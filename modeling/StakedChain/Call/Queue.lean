import StakedChain.Word
import StakedChain.Octets

namespace StakedChain

inductive BlockRef where
  | hash (h : Hash)
  | number (n : Word64)
  | pending
  deriving DecidableEq, Repr

def BlockRef.text : BlockRef → String
  | .hash h => h.hex
  | .number n => "#" ++ Word.decimal n
  | .pending => "pending"

structure Request where
  sender : Option Address
  target : Address
  data : Bytes
  deriving DecidableEq, Repr

inductive CallError where
  | reverted (data : Bytes)
  | unavailable (block : BlockRef)
  | other (text : String)
  deriving DecidableEq, Repr

def CallError.message : CallError → String
  | .reverted _ => "call reverted"
  | .unavailable block => "state unavailable at " ++ block.text
  | .other text => "call failed: " ++ text

/-- Whatever answers read-only calls; its answers may depend on what it was asked before. -/
abbrev Caller (σ : Type) := Request → BlockRef → σ → Except CallError Bytes × σ

structure CallQueue where
  responses : List (Except CallError Bytes)
  requests : List (Request × BlockRef)

namespace CallQueue

def empty : CallQueue :=
  ⟨[], []⟩

def push (queue : CallQueue) (response : Except CallError Bytes) : CallQueue :=
  { queue with responses := queue.responses ++ [response] }

def answer : List (Except CallError Bytes) → Except CallError Bytes
  | [] => .error (.other "no response queued")
  | response :: _ => response

def call : Caller CallQueue := fun request block queue =>
  (answer queue.responses, ⟨queue.responses.tail, queue.requests ++ [(request, block)]⟩)

end CallQueue

end StakedChain
