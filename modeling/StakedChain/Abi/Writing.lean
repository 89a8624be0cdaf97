import StakedChain.Abi.Value
import StakedChain.Abi.Word

namespace StakedChain.Abi

inductive EncodeError where
  | count (expected found : Nat)
  | mismatch (index : Nat) (expected : Ty) (found : String)
  deriving Repr

def EncodeError.message : EncodeError → String
  | .count expected found => s!"expected {expected} values, found {found}"
  | .mismatch index expected found =>
    s!"value {index}: expected " ++ expected.text ++ ", found " ++ found

namespace Writing

def counted (schema : List Ty) (vs : List Value) (written : Except EncodeError Bytes) :
    Except EncodeError Bytes :=
  if schema.length = vs.length then written else .error (.count schema.length vs.length)

mutual

def value (index : Nat) : Ty → Value → Bytes → Except EncodeError Bytes
  | .atom a, .atom b x, out =>
    if a = b then .ok (out ++ (b.toWord x).bytes)
    else .error (.mismatch index (.atom a) (Value.atom b x).name)
  | .array a, .array b xs, out =>
    if a = b then
      .ok (out ++ (Bytes.ofNat 32 xs.length ++ xs.flatMap fun x => (b.toWord x).bytes))
    else .error (.mismatch index (.array a) (Value.array b xs).name)
  | .tuple ts, .tuple vs, out =>
    if (Value.tuple vs).conforms (.tuple ts) then
      counted ts vs (members (Ty.headSizes ts) 0 ts vs out [])
    else .error (.mismatch index (.tuple ts) (Value.tuple vs).name)
  | t, v, _ => .error (.mismatch index t v.name)

/-- Writes the members of a sequence from the one at `index` on. Their slots go behind `out`; what
is dynamic is collected in `tail` and follows the head, of size `head`, once that is complete. -/
def members (head : Nat) :
    Nat → List Ty → List Value → Bytes → Bytes → Except EncodeError Bytes
  | index, t :: ts, v :: vs, out, tail =>
    if t.isDynamic then
      match value index t v tail with
      | .ok longer =>
        members head (index + 1) ts vs (out ++ Bytes.ofNat 32 (head + tail.length)) longer
      | .error e => .error e
    else
      match value index t v out with
      | .ok longer => members head (index + 1) ts vs longer tail
      | .error e => .error e
  | _, _, _, out, tail => .ok (out ++ tail)

end

end Writing

def encode (schema : List Ty) (vs : List Value) : Except EncodeError Bytes :=
  Writing.counted schema vs (Writing.members (Ty.headSizes schema) 0 schema vs [] [])

def encodeCall (selector : Octets 4) (schema : List Ty) (vs : List Value) :
    Except EncodeError Bytes :=
  (encode schema vs).map (selector.bytes ++ ·)

end StakedChain.Abi
