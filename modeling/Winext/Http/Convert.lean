import Mathlib.Tactic.Common
import Std.Data.TreeMap

/-! `simple_request` and `simple_response`: what user code reads and sets, over the
structures of HTTP.sys. -/
namespace Winext.Http

abbrev Bytes := List UInt8

abbrev RequestId := UInt64

def httpNullId : RequestId := 0

/-- A pointer to text is the bytes it points to, which begin the string and may go on
after it. The null pointer has no bytes. -/
structure HttpKnownHeader where
  rawValueLength : UInt16 := 0
  pRawValue : Bytes := []
  deriving DecidableEq, Repr

structure HttpUnknownHeader where
  nameLength : UInt16
  rawValueLength : UInt16
  pName : Bytes
  pRawValue : Bytes
  deriving DecidableEq, Repr

def HttpKnownHeader.value (h : HttpKnownHeader) : Bytes := h.pRawValue.take h.rawValueLength.toNat

def HttpUnknownHeader.name (h : HttpUnknownHeader) : Bytes := h.pName.take h.nameLength.toNat

def HttpUnknownHeader.value (h : HttpUnknownHeader) : Bytes :=
  h.pRawValue.take h.rawValueLength.toNat

def httpHeaderRequestMaximum : ℕ := 41

def httpHeaderResponseMaximum : ℕ := 30

def httpHeaderContentType : ℕ := 12

structure HttpRequest where
  requestId : RequestId := httpNullId
  knownHeaders : Vector HttpKnownHeader httpHeaderRequestMaximum := .replicate _ {}
  unknownHeaderCount : UInt16 := 0
  pUnknownHeaders : List HttpUnknownHeader := []
  deriving DecidableEq, Repr

/-- The request buffer holds the structure and `room` bytes after it. The length of the
body is not initialised. -/
structure SimpleRequest where
  request : HttpRequest := {}
  room : ℕ := 2048
  bodyBuffer : Bytes := .replicate 1024 0
  bodyLen : Option ℕ := none
  deriving DecidableEq, Repr

namespace SimpleRequest

def getRequestId (r : SimpleRequest) : RequestId := r.request.requestId

def setBodyLen (r : SimpleRequest) (len : ℕ) : SimpleRequest := { r with bodyLen := some len }

/-- There is no such string when the length is not set or exceeds the buffer. -/
def getBodyString (r : SimpleRequest) : Option Bytes :=
  r.bodyLen.bind fun len => if len ≤ r.bodyBuffer.length then some (r.bodyBuffer.take len) else none

def getKnownHeaders (r : SimpleRequest) : Std.TreeMap ℕ Bytes :=
  (List.finRange httpHeaderRequestMaximum).foldl (fun headersMap i =>
    let header := r.request.knownHeaders.get i
    if header.rawValueLength = 0 then headersMap else headersMap.insert i header.value) ∅

def getUnknownHeaders (r : SimpleRequest) : Std.TreeMap Bytes Bytes :=
  (r.request.pUnknownHeaders.take r.request.unknownHeaderCount.toNat).foldl
    (fun headersMap header => headersMap.insert header.name header.value) ∅

/-- What `<<` writes for a literal or a number. -/
def text (s : String) : Bytes := s.toUTF8.data.toList

/-- `operator<<`. -/
def print (r : SimpleRequest) : Option Bytes :=
  r.getBodyString.map fun body =>
    r.getKnownHeaders.toList.flatMap
      (fun x => text s!"KnonwHeader [{x.1}] " ++ x.2 ++ text "\n") ++
    r.getUnknownHeaders.toList.flatMap (fun x => x.1 ++ text " " ++ x.2 ++ text "\n") ++
    body ++ text "\n"

end SimpleRequest

/-- A data chunk points into the object that made it: at the body as of its `pBuffer`-th
setting, or at the trailers as of their `pTrailers`-th rebuilding. -/
inductive HttpDataChunk
  | fromMemory (pBuffer : ℕ) (bufferLength : UInt32)
  | trailers (trailerCount : UInt16) (pTrailers : ℕ)
  deriving DecidableEq, Repr

inductive EntityChunks
  | null
  | chunks (dataChunks : List HttpDataChunk)
  | text (pRawValue : Bytes)
  deriving DecidableEq, Repr

/-- The members in their order: the chunk count and pointer follow the table, then come
the response infos. `overrun` says that a write went past the structure. A status code
that was never set is indeterminate. -/
structure HttpResponse where
  statusCode : Option UInt16 := some 0
  reasonLength : UInt16 := 0
  pReason : Bytes := []
  unknownHeaderCount : UInt16 := 0
  pUnknownHeaders : List HttpUnknownHeader := []
  knownHeaders : Vector HttpKnownHeader httpHeaderResponseMaximum := .replicate _ {}
  entityChunkCount : UInt16 := 0
  pEntityChunks : EntityChunks := .null
  responseInfoCount : UInt16 := 0
  pResponseInfo : Bytes := []
  overrun : Bool := false
  deriving DecidableEq, Repr

/-- `KnownHeaders[id] = header`, also where the table has no entry `id`. -/
def HttpResponse.setKnownHeader (r : HttpResponse) (id : ℕ) (header : HttpKnownHeader) :
    HttpResponse :=
  if h : id < httpHeaderResponseMaximum then
    { r with knownHeaders := r.knownHeaders.set id header h }
  else if id = httpHeaderResponseMaximum then
    { r with
      entityChunkCount := header.rawValueLength
      pEntityChunks := .text header.pRawValue }
  else if id = httpHeaderResponseMaximum + 1 then
    { r with
      responseInfoCount := header.rawValueLength
      pResponseInfo := header.pRawValue }
  else { r with overrun := true }

/-- `bodyVersion` counts the calls of `set_body`, and `trailersVersion` those that cleared
`trailers_buff_`: a pointer taken before is no longer valid. -/
structure SimpleResponse where
  resp : HttpResponse := {}
  dataChunks : List HttpDataChunk := []
  reason : Bytes := []
  statusCode : Option UInt16 := none
  body : Bytes := []
  bodyVersion : ℕ := 0
  knownHeaders : Std.TreeMap ℕ Bytes := ∅
  unknownHeaders : Std.TreeMap Bytes Bytes := ∅
  unknownHeadersBuff : List HttpUnknownHeader := []
  trailers : Std.TreeMap Bytes Bytes := ∅
  trailersBuff : List HttpUnknownHeader := []
  trailersVersion : ℕ := 0

namespace SimpleResponse

def setReason (s : SimpleResponse) (reason : Bytes) : SimpleResponse := { s with reason := reason }

def setStatusCode (s : SimpleResponse) (statusCode : UInt16) : SimpleResponse :=
  { s with statusCode := some statusCode }

def setBody (s : SimpleResponse) (body : Bytes) : SimpleResponse :=
  { s with body := body, bodyVersion := s.bodyVersion + 1 }

def addKnownHeader (s : SimpleResponse) (id : ℕ) (data : Bytes) : SimpleResponse :=
  { s with knownHeaders := s.knownHeaders.insert id data }

def setContentType (s : SimpleResponse) (contentType : Bytes) : SimpleResponse :=
  s.addKnownHeader httpHeaderContentType contentType

def addUnknownHeader (s : SimpleResponse) (name val : Bytes) : SimpleResponse :=
  { s with unknownHeaders := s.unknownHeaders.insert name val }

def addTrailer (s : SimpleResponse) (name val : Bytes) : SimpleResponse :=
  { s with trailers := s.trailers.insert name val }

/-- The lengths and counts are cast to the width of their field. -/
def knownHeader (data : Bytes) : HttpKnownHeader := ⟨.ofNat data.length,data⟩

def unknownHeader (name val : Bytes) : HttpUnknownHeader :=
  ⟨.ofNat name.length,.ofNat val.length,name,val⟩

/-- The array that backs the headers of a map, in the order of their names. -/
def buffOf (headers : Std.TreeMap Bytes Bytes) : List HttpUnknownHeader :=
  headers.foldl (fun buff name val => buff ++ [unknownHeader name val]) []

def storeKnownHeaders (resp : HttpResponse) (headers : Std.TreeMap ℕ Bytes) : HttpResponse :=
  headers.foldl (fun resp id data => resp.setKnownHeader id (knownHeader data)) resp

/-- The count and the pointer are left alone when there is no header. -/
def setUnknownHeaders (resp : HttpResponse) (buff : List HttpUnknownHeader) : HttpResponse :=
  if buff.length > 0 then
    { resp with unknownHeaderCount := .ofNat buff.length, pUnknownHeaders := buff }
  else resp

/-- `data_chunks_` is appended to by every call, and cleared by none. -/
def pushBody (s : SimpleResponse) (dataChunks : List HttpDataChunk) : List HttpDataChunk :=
  if s.body.length > 0 then
    dataChunks ++ [.fromMemory s.bodyVersion (.ofNat s.body.length)]
  else dataChunks

def pushTrailers (trailersBuff : List HttpUnknownHeader) (trailersVersion : ℕ)
    (dataChunks : List HttpDataChunk) : List HttpDataChunk :=
  if trailersBuff.length > 0 then
    dataChunks ++ [.trailers (.ofNat trailersBuff.length) trailersVersion]
  else dataChunks

def setEntityChunks (resp : HttpResponse) (dataChunks : List HttpDataChunk) : HttpResponse :=
  if dataChunks.length > 0 then
    { resp with
      entityChunkCount := .ofNat dataChunks.length
      pEntityChunks := .chunks dataChunks }
  else resp

/-- The object after the call. The pointer returned is the address of its `resp`. -/
def getResponse (s : SimpleResponse) : SimpleResponse :=
  let resp := { s.resp with
    statusCode := s.statusCode
    pReason := s.reason
    reasonLength := .ofNat s.reason.length }
  let resp := storeKnownHeaders resp s.knownHeaders
  let unknownHeadersBuff := buffOf s.unknownHeaders
  let resp := setUnknownHeaders resp unknownHeadersBuff
  let dataChunks := s.pushBody s.dataChunks
  let trailersBuff := buffOf s.trailers
  let trailersVersion := s.trailersVersion + 1
  let dataChunks := pushTrailers trailersBuff trailersVersion dataChunks
  let resp := setEntityChunks resp dataChunks
  { s with
    resp := resp
    dataChunks := dataChunks
    unknownHeadersBuff := unknownHeadersBuff
    trailersBuff := trailersBuff
    trailersVersion := trailersVersion }

end SimpleResponse
end Winext.Http
