import Mathlib.Tactic.Common

/-! Messages that wait in a pipe and are read one at a time into a buffer of bounded size.
What does not fit the buffer stays in front of the queue. A relay reads into its buffer
and writes from it, and loses no byte on the way. -/
namespace Winext.Lib
variable {α : Type*} {size : ℕ} {queue rest : List (List α)} {bytes : List α} {more : Bool}

/-- What a read gets, whether there is more of the same message, and what is left. -/
def readMessage (size : ℕ) : List (List α) → Option (List α × Bool × List (List α))
  | [] => none
  | message::queue =>
    if message.length ≤ size then some (message,false,queue)
    else some (message.take size,true,message.drop size::queue)

/-- The front message is read whole, or as much of it as fits. -/
theorem readMessage_cases (h : readMessage size queue = some (bytes,more,rest)) :
    (more = false ∧ queue = bytes::rest ∧ bytes.length ≤ size) ∨
    (more = true ∧ ∃ message messages, queue = message::messages ∧ size < message.length ∧
      bytes = message.take size ∧ rest = message.drop size::messages) := by
  cases queue with
  | nil => cases h
  | cons message messages =>
    simp only [readMessage] at h
    split_ifs at h with hle
    · cases h
      exact Or.inl ⟨rfl,rfl,hle⟩
    · cases h
      exact Or.inr ⟨rfl,message,messages,rfl,Nat.lt_of_not_le hle,rfl,rfl⟩

/-- A read takes bytes from the front, and loses none. -/
theorem readMessage_flatten (h : readMessage size queue = some (bytes,more,rest)) :
    bytes ++ rest.flatten = queue.flatten := by
  cases queue with
  | nil => cases h
  | cons message queue =>
    simp only [readMessage] at h
    split_ifs at h
    · cases h
      rfl
    · cases h
      rw [List.flatten_cons,← List.append_assoc,List.take_append_drop,List.flatten_cons]

/-- There is more only when the front message does not fit, and then the buffer is full. -/
theorem readMessage_more (h : readMessage size queue = some (bytes,true,rest)) :
    bytes.length = size ∧ ∃ message ∈ queue.head?, size < message.length := by
  cases queue with
  | nil => cases h
  | cons message queue =>
    simp only [readMessage] at h
    split_ifs at h with hle
    · cases h
    · cases h
      have hlt := Nat.lt_of_not_le hle
      exact ⟨List.length_take_of_le (Nat.le_of_lt hlt),message,rfl,hlt⟩

/-- A read that takes no notice of where the messages end. -/
def readBytes (size : ℕ) (queue : List (List α)) : Option (List α × Bool × List (List α)) :=
  match queue.flatten with
  | [] => none
  | bytes => some (bytes.take size,false,if size < bytes.length then [bytes.drop size] else [])

theorem readBytes_flatten (h : readBytes size queue = some (bytes,more,rest)) :
    bytes ++ rest.flatten = queue.flatten := by
  simp only [readBytes] at h
  split at h
  · cases h
  · split_ifs at h with hlt
    · cases h
      rw [List.flatten_singleton,List.take_append_drop]
    · cases h
      rw [List.flatten_nil,List.append_nil,List.take_of_length_le (Nat.le_of_not_lt hlt)]

def readQueue (messageMode : Bool) (size : ℕ) (queue : List (List α)) :
    Option (List α × Bool × List (List α)) :=
  if messageMode then readMessage size queue else readBytes size queue

theorem readQueue_flatten {messageMode : Bool}
    (h : readQueue messageMode size queue = some (bytes,more,rest)) :
    bytes ++ rest.flatten = queue.flatten := by
  cases messageMode with
  | true => exact readMessage_flatten h
  | false => exact readBytes_flatten h

/-- A read gets no more than fits its buffer. -/
theorem readQueue_length_le {messageMode : Bool}
    (h : readQueue messageMode size queue = some (bytes,more,rest)) : bytes.length ≤ size := by
  unfold readQueue at h
  split_ifs at h
  · obtain ⟨-,-,hle⟩ | ⟨-,message,messages,-,-,rfl,-⟩ := readMessage_cases h
    · exact hle
    · exact List.length_take_le size message
  · unfold readBytes at h
    split at h
    · cases h
    · cases h
      exact List.length_take_le size _

/-- From a queue without empty messages, a read gets some bytes and leaves no empty message. -/
theorem readQueue_nonempty {messageMode : Bool} (hsize : 0 < size) (hqueue : ∀ m ∈ queue, m ≠ [])
    (h : readQueue messageMode size queue = some (bytes,more,rest)) :
    bytes ≠ [] ∧ ∀ m ∈ rest, m ≠ [] := by
  unfold readQueue at h
  split_ifs at h
  · obtain ⟨-,rfl,-⟩ | ⟨-,message,messages,rfl,hlt,rfl,rfl⟩ := readMessage_cases h
    · exact ⟨hqueue bytes List.mem_cons_self,fun m hm => hqueue m (List.mem_cons_of_mem bytes hm)⟩
    · refine ⟨List.ne_nil_of_length_pos ?_,fun m hm => ?_⟩
      · rw [List.length_take]
        omega
      · obtain rfl | hm := List.mem_cons.mp hm
        · refine List.ne_nil_of_length_pos ?_
          rw [List.length_drop]
          omega
        · exact hqueue m (List.mem_cons_of_mem message hm)
  · cases hall : queue.flatten with
    | nil =>
      simp only [readBytes,hall] at h
      cases h
    | cons a all =>
      simp only [readBytes,hall] at h
      cases h
      refine ⟨List.ne_nil_of_length_pos ?_,fun m hm => ?_⟩
      · rw [List.length_take,List.length_cons]
        omega
      · split_ifs at hm with hlt
        · rw [List.mem_singleton.mp hm]
          refine List.ne_nil_of_length_pos ?_
          rw [List.length_drop]
          omega
        · cases hm

/-- A read that can take nothing finds no bytes. -/
theorem readQueue_eq_none {messageMode : Bool} (h : readQueue messageMode size queue = none) :
    queue.flatten = [] := by
  unfold readQueue at h
  split_ifs at h
  · cases queue with
    | nil => rfl
    | cons message messages =>
      simp only [readMessage] at h
      split_ifs at h
  · unfold readBytes at h
    split at h
    · assumption
    · cases h

/-- A read reports more only in message mode, when it has filled its buffer. -/
theorem readQueue_more {messageMode : Bool}
    (h : readQueue messageMode size queue = some (bytes,true,rest)) :
    messageMode = true ∧ bytes.length = size ∧ ∃ message ∈ queue.head?, size < message.length := by
  cases messageMode with
  | true => exact ⟨rfl,readMessage_more h⟩
  | false =>
    simp only [readQueue,readBytes,Bool.false_eq_true,if_false] at h
    split at h <;> cases h

/-- Messages that fit the buffer are read whole. -/
theorem readMessage_short (hshort : ∀ m ∈ queue, m.length ≤ size)
    (h : readMessage size queue = some (bytes,more,rest)) : ∀ m ∈ rest, m.length ≤ size := by
  cases queue with
  | nil => cases h
  | cons message queue =>
    obtain ⟨hmessage,hqueue⟩ := List.forall_mem_cons.mp hshort
    rw [readMessage,if_pos hmessage] at h
    cases h
    exact hqueue

/-- What was sent has been written on, is in the relay's hand, or waits to be read. -/
def Relayed (sent : List (List α)) (written inHand : List α) (unread : List (List α)) : Prop :=
  sent.flatten = written ++ inHand ++ unread.flatten

namespace Relayed
variable {sent unread : List (List α)} {written inHand out : List α}

theorem begins (h : Relayed sent written inHand unread) : written <+: sent.flatten := by
  rw [Relayed,List.append_assoc] at h
  exact ⟨_,h.symm⟩

theorem written_eq (h : Relayed sent written [] []) : written = sent.flatten := by
  rw [Relayed,List.append_nil,List.flatten_nil,List.append_nil] at h
  exact h.symm

theorem written_ne (h : Relayed sent written inHand unread) (hne : inHand ≠ []) :
    written ≠ sent.flatten := by
  intro heq
  rw [Relayed,← heq,List.append_assoc] at h
  exact hne (List.append_eq_nil_iff.mp (List.self_eq_append_right.mp h)).1

theorem send (h : Relayed sent written inHand unread) (messages : List (List α)) :
    Relayed (sent ++ messages) written inHand (unread ++ messages) := by
  rw [Relayed,List.flatten_append,List.flatten_append,h,List.append_assoc (written ++ inHand)]

theorem fetch {messageMode : Bool} (h : Relayed sent written [] unread)
    (hread : readQueue messageMode size unread = some (bytes,more,rest)) :
    Relayed sent written bytes rest := by
  rw [Relayed,h,List.append_nil,List.append_assoc,readQueue_flatten hread]

theorem forward (h : Relayed sent written (out ++ inHand) unread) :
    Relayed sent (written ++ out) inHand unread := by
  rw [Relayed,h,List.append_assoc written out]

end Relayed
end Winext.Lib
