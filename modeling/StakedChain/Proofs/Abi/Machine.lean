import StakedChain.Proofs.Abi.Acceptance

namespace StakedChain.Abi.Machine

-- What would end a reading for good: a number beyond 64 bits, or a cut beyond what is cut.
inductive Trap where
  | overflow
  | bounds
  deriving DecidableEq, Repr

def orOverflow : Option Word64 → Except Trap Word64
  | some n => .ok n
  | none => .error .overflow

def cut (bs : Bytes) (first last : Nat) : Except Trap Bytes :=
  if first ≤ last ∧ last ≤ bs.length then .ok ((bs.drop first).take (last - first))
  else .error .bounds

def exactly (n : Nat) (bs : Bytes) : Except Trap (Octets n) :=
  match Octets.ofBytes? n bs with
  | some a => .ok a
  | none => .error .bounds

-- A part that is asked for and may not be there; this is no trap.
def part? (data : Bytes) (first last : Word64) : Option Bytes :=
  if first ≤ last ∧ last.toNat ≤ data.length then
    some ((data.drop first.toNat).take (last.toNat - first.toNat))
  else none

def fetch (data : Bytes) (place : Word64) : Except DecodeError Bytes :=
  match (Word.add? place 32).bind (part? data place) with
  | some w => .ok w
  | none => .error (.endOfBuffer place.toNat)

def soiled (bs : Bytes) : Bool :=
  bs.any (· != 0)

def convert : (a : Atom) → Word64 → Bytes → Except Trap (Except DecodeError a.Carrier)
  | .address, place, w => do
    let padding ← cut w 0 12
    if soiled padding then return .error (.malformed .address place.toNat)
    let account ← exactly 20 (← cut w 12 w.length)
    return .ok account
  | .uint, _, w =>
    if w.length ≤ 32 then .ok (.ok (BitVec.ofNat 256 (Bytes.value w))) else .error .bounds
  | .bool, place, w => do
    let padding ← cut w 0 31
    if soiled padding then return .error (.malformed .bool place.toNat)
    let last : Option UInt8 := w[31]?
    match last with
    | none => .error .bounds
    | some b =>
      if b = 0 then return .ok false
      else if b = 1 then return .ok true
      else return .error (.malformed .bool place.toNat)

def atom (a : Atom) (data : Bytes) (place : Word64) : Except Trap (Except DecodeError a.Carrier) :=
  match fetch data place with
  | .error e => .ok (.error e)
  | .ok w => convert a place w

def number (data : Bytes) (place : Word64) (invalid : Nat → DecodeError) :
    Except Trap (Except DecodeError Word64) :=
  match fetch data place with
  | .error e => .ok (.error e)
  | .ok w => do
    let padding ← cut w 0 24
    if soiled padding then return .error (invalid place.toNat)
    let n ← exactly 8 (← cut w 24 w.length)
    return .ok (BitVec.ofNat 64 n.value)

def items (a : Atom) (data : Bytes) (start : Word64) :
    Nat → Word64 → Except Trap (Except DecodeError (List a.Carrier))
  | 0, _ => .ok (.ok [])
  | n + 1, i => do
    let step ← orOverflow (Word.mul? i 32)
    let place ← orOverflow (Word.add? start step)
    match ← atom a data place with
    | .error e => return .error e
    | .ok x =>
      let next ← orOverflow (Word.add? i 1)
      return (← items a data start n next).map (x :: ·)

def array (a : Atom) (data : Bytes) (place : Word64) :
    Except Trap (Except DecodeError (List a.Carrier)) := do
  match ← number data place .invalidLength with
  | .error e => return .error e
  | .ok n =>
    let start ← orOverflow (Word.add? place 32)
    let room ← orOverflow (Word.sub? (BitVec.ofNat 64 data.length) start)
    if room / 32 < n then return .error (.invalidLength place.toNat)
    items a data start n.toNat 0

mutual

def headSize : Ty → Except Trap Word64
  | .atom _ => .ok 32
  | .array _ => .ok 32
  | .tuple members => if Ty.anyDynamic members then .ok 32 else headSizes 0 members

def headSizes : Word64 → List Ty → Except Trap Word64
  | sum, [] => .ok sum
  | sum, t :: ts => do
    let size ← headSize t
    let sum ← orOverflow (Word.add? sum size)
    headSizes sum ts

end

def destination (data : Bytes) (start place : Word64) :
    Except Trap (Except DecodeError Word64) := do
  match ← number data place .invalidOffset with
  | .error e => return .error e
  | .ok offset =>
    match Word.add? start offset with
    | some here => return .ok here
    | none => return .error (.invalidOffset place.toNat)

def locate (data : Bytes) (t : Ty) (start place : Word64) :
    Except Trap (Except DecodeError Word64) :=
  if t.isDynamic then destination data start place else .ok (.ok place)

mutual

def value (data : Bytes) : Ty → Word64 → Except Trap (Except DecodeError Value)
  | .atom a, place => return (← atom a data place).map (.atom a)
  | .array a, place => return (← array a data place).map (.array a)
  | .tuple members, place => return (← sequence data members place place).map .tuple

def sequence (data : Bytes) :
    List Ty → Word64 → Word64 → Except Trap (Except DecodeError (List Value))
  | [], _, _ => .ok (.ok [])
  | t :: ts, start, place => do
    match ← locate data t start place with
    | .error e => return .error e
    | .ok here =>
      match ← value data t here with
      | .error e => return .error e
      | .ok v =>
        let size ← headSize t
        let place ← orOverflow (Word.add? place size)
        return (← sequence data ts start place).map (v :: ·)

end

def decode (schema : List Ty) (data : Bytes) : Except Trap (Except DecodeError (List Value)) :=
  if data = [] ∧ schema ≠ [] then .ok (.error .empty) else sequence data schema 0 0

end StakedChain.Abi.Machine
