import StakedChain.Abi.Value
import StakedChain.Abi.Word

namespace StakedChain.Abi

structure Part where
  dynamic : Bool
  body : Bytes
  deriving DecidableEq, Repr

namespace Part

/-- The head of a sequence, where `free` is the place of the next dynamic member. -/
def heads : Nat → List Part → Bytes
  | _, [] => []
  | free, part :: rest =>
    if part.dynamic then Bytes.ofNat 32 free ++ heads (free + part.body.length) rest
    else part.body ++ heads free rest

def tails : List Part → Bytes
  | [] => []
  | part :: rest => if part.dynamic then part.body ++ tails rest else tails rest

def headSizes : List Part → Nat
  | [] => 0
  | part :: rest => (if part.dynamic then 32 else part.body.length) + headSizes rest

theorem length_heads (ps : List Part) : ∀ free : Nat, (heads free ps).length = headSizes ps := by
  induction ps with
  | nil => intro _; rfl
  | cons part rest ih =>
    intro free
    by_cases h : part.dynamic = true <;> simp [heads, headSizes, h, ih]

end Part

namespace Layout

mutual

def value : Ty → Value → Bytes
  | .atom _, .atom a x => (a.toWord x).bytes
  | .array _, .array a xs => Bytes.ofNat 32 xs.length ++ xs.flatMap fun x => (a.toWord x).bytes
  | .tuple members, .tuple items =>
    let ps := parts members items
    Part.heads (Ty.headSizes members) ps ++ Part.tails ps
  | _, _ => []

def parts : List Ty → List Value → List Part
  | t :: ts, v :: vs => ⟨t.isDynamic, value t v⟩ :: parts ts vs
  | _, _ => []

end

def sequence (schema : List Ty) (vs : List Value) : Bytes :=
  Part.heads (Ty.headSizes schema) (parts schema vs) ++ Part.tails (parts schema vs)

theorem length_parts : ∀ {schema : List Ty} {vs : List Value},
    schema.length = vs.length → (parts schema vs).length = schema.length
  | [], [], _ => by simp [parts]
  | _ :: schema, _ :: vs, h => by
    simp only [List.length_cons, Nat.add_right_cancel_iff] at h
    simp [parts, length_parts h]

theorem value_tuple (members : List Ty) (items : List Value) :
    value (.tuple members) (.tuple items) = sequence members items := by
  simp only [value, sequence]

end Layout

end StakedChain.Abi
