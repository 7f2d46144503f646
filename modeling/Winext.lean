import Winext.Lib.Machine
import Winext.Lib.Program
import Winext.Lib.CompletionPort
import Winext.Lib.Ownership
import Winext.Lib.History
import Winext.Lib.MessageQueue
import Winext.Lib.Components
import Winext.Windows
import Winext.NamedPipe.ServerDetails
import Winext.NamedPipe.Acceptor
import Winext.NamedPipe.ConnectRace
import Winext.NamedPipe.AcceptWorld
import Winext.NamedPipe.AcceptReport
import Winext.NamedPipe.Instances
import Winext.NamedPipe.AcceptLoop
import Winext.Http.Convert
import Winext.Http.ResponseHistory
import Winext.Http.ResponseFields
import Winext.Http.FirstResponse
import Winext.Http.KnownTable
import Winext.Http.RequestHeaders
import Winext.Http.BasicHttpHandle
import Winext.Http.Completion
import Winext.Http.Connection
import Winext.Http.ConnectionLife
import Winext.Http.Listening
import Winext.Http.Requests
import Winext.Http.Ending
import Winext.Http.BeastServer
import Winext.Http.BeastConnections
import Winext.Http.BeastResponses
import Winext.Http.BeastDeadlines
import Winext.Http.HeaderRoundTrip
import Winext.Http.ObjectCalls
import Winext.Http.Handlers
import Winext.Http.SentResponses
import Winext.NamedPipe.ClientDetails
import Winext.NamedPipe.ClientWorld
import Winext.NamedPipe.ClientOutcome
import Winext.NamedPipe.ClientHandles
import Winext.NamedPipe.EchoSession
import Winext.NamedPipe.EchoServer
import Winext.NamedPipe.SessionPipes
import Winext.NamedPipe.Endpoint
import Winext.NamedPipe.Echo
import Winext.NamedPipe.Answers
import Winext.NamedPipe.AnswerProgress
import Winext.NamedPipe.FlushServer
import Winext.NamedPipe.FlushProgress
import Winext.NamedPipe.EchoClient
import Winext.NamedPipe.Conversation
import Winext.NamedPipe.Replies
import Winext.NamedPipe.ReplyProgress
import Winext.NamedPipe.Serving
import Winext.NamedPipe.ServerWatch
import Winext.NamedPipe.ServerProgress
import Winext.NamedPipe.EchoCoro
import Winext.NamedPipe.EchoCoroSessions
