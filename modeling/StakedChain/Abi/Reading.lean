import StakedChain.Abi.Value
import StakedChain.Abi.Word

namespace StakedChain.Abi

/-- Each error but the first gives the place of the word at fault. -/
inductive DecodeError where
  | empty
  | endOfBuffer (place : Nat)
  | invalidOffset (place : Nat)
  | invalidLength (place : Nat)
  | malformed (a : Atom) (place : Nat)
  deriving DecidableEq, Repr

def DecodeError.message : DecodeError → String
  | .empty => "empty buffer"
  | .endOfBuffer place => s!"unexpected end of buffer at {place}"
  | .invalidOffset place => s!"invalid offset at {place}"
  | .invalidLength place => s!"invalid length at {place}"
  | .malformed a place => "invalid " ++ a.text ++ s!" at {place}"

namespace Reading

/-- Places, offsets and lengths are 64-bit numbers. -/
def limit : Nat := 0x10000000000000000

def word (data : Bytes) (place : Nat) : Except DecodeError (Octets 32) :=
  if place + 32 < limit then
    match Octets.ofBytes? 32 ((data.drop place).take 32) with
    | some w => .ok w
    | none => .error (.endOfBuffer place)
  else .error (.endOfBuffer place)

def atom (a : Atom) (data : Bytes) (place : Nat) : Except DecodeError a.Carrier :=
  match word data place with
  | .ok w =>
    match a.ofWord? w with
    | some x => .ok x
    | none => .error (.malformed a place)
  | .error e => .error e

def number (data : Bytes) (place : Nat) (invalid : Nat → DecodeError) : Except DecodeError Nat :=
  match word data place with
  | .ok w => if w.value < limit then .ok w.value else .error (invalid place)
  | .error e => .error e

def items (a : Atom) (data : Bytes) : Nat → Nat → Except DecodeError (List a.Carrier)
  | 0, _ => .ok []
  | n + 1, place =>
    match atom a data place with
    | .ok x => (items a data n (place + 32)).map (x :: ·)
    | .error e => .error e

/-- A length is checked against what is left of the data before any item is read. -/
def array (a : Atom) (data : Bytes) (place : Nat) : Except DecodeError (List a.Carrier) :=
  match number data place .invalidLength with
  | .ok n =>
    if n ≤ (data.length - (place + 32)) / 32 then items a data n (place + 32)
    else .error (.invalidLength place)
  | .error e => .error e

/-- Offsets count from the start of the sequence that holds them. -/
def destination (data : Bytes) (start place : Nat) : Except DecodeError Nat :=
  match number data place .invalidOffset with
  | .ok offset =>
    if start + offset < limit then .ok (start + offset) else .error (.invalidOffset place)
  | .error e => .error e

mutual

def value (data : Bytes) : Ty → Nat → Except DecodeError Value
  | .atom a, place => (atom a data place).map (.atom a)
  | .array a, place => (array a data place).map (.array a)
  | .tuple members, place => (sequence data members place place).map .tuple

def sequence (data : Bytes) : List Ty → Nat → Nat → Except DecodeError (List Value)
  | [], _, _ => .ok []
  | t :: ts, start, place =>
    match if t.isDynamic then destination data start place else .ok place with
    | .ok here =>
      match value data t here with
      | .ok v => (sequence data ts start (place + t.headSize)).map (v :: ·)
      | .error e => .error e
    | .error e => .error e

end

end Reading

def decode (schema : List Ty) (data : Bytes) : Except DecodeError (List Value) :=
  if data = [] ∧ schema ≠ [] then .error .empty else Reading.sequence data schema 0 0

end StakedChain.Abi
