import StakedChain.Abi.Ty

namespace StakedChain.Abi

inductive Value where
  | atom (a : Atom) (x : a.Carrier)
  | array (a : Atom) (xs : List a.Carrier)
  | tuple (items : List Value)

namespace Value

def name : Value → String
  | .atom a _ => a.text
  | .array a _ => a.text ++ "[]"
  | .tuple _ => "tuple"

abbrev address (x : Address) : Value := .atom .address x

abbrev uint (x : Word256) : Value := .atom .uint x

abbrev bool (x : Bool) : Value := .atom .bool x

mutual

def conforms : Value → Ty → Bool
  | .atom a _, .atom b => a == b
  | .array a _, .array b => a == b
  | .tuple items, .tuple members => conformsAll items members
  | _, _ => false

def conformsAll : List Value → List Ty → Bool
  | [], [] => true
  | v :: vs, t :: ts => conforms v t && conformsAll vs ts
  | _, _ => false

end

theorem length_eq_of_conformsAll :
    ∀ {vs : List Value} {ts : List Ty}, conformsAll vs ts = true → vs.length = ts.length
  | [], [], _ => rfl
  | [], _ :: _, h => by simp [conformsAll] at h
  | _ :: _, [], h => by simp [conformsAll] at h
  | _ :: _, _ :: _, h => by
    simp only [conformsAll, Bool.and_eq_true] at h
    simp [length_eq_of_conformsAll h.2]

end Value

inductive ConversionError where
  | unexpected (expected found : String)
  | fieldCount (expected found : Nat)
  | missing
  deriving DecidableEq, Repr

def ConversionError.message : ConversionError → String
  | .unexpected expected found => "expected " ++ expected ++ ", found " ++ found
  | .fieldCount expected found => s!"expected {expected} values, found {found}"
  | .missing => "missing value"

namespace Value

def toAtom (a : Atom) : Value → Except ConversionError a.Carrier
  | .atom b x => if h : b = a then .ok (h ▸ x) else .error (.unexpected a.text b.text)
  | v => .error (.unexpected a.text v.name)

def toArray (a : Atom) : Value → Except ConversionError (List a.Carrier)
  | .array b xs =>
    if h : b = a then .ok (h ▸ xs) else .error (.unexpected (a.text ++ "[]") (b.text ++ "[]"))
  | v => .error (.unexpected (a.text ++ "[]") v.name)

def toTuple : Value → Except ConversionError (List Value)
  | .tuple items => .ok items
  | v => .error (.unexpected "tuple" v.name)

@[simp] theorem toAtom_atom (a : Atom) (x : a.Carrier) : (Value.atom a x).toAtom a = .ok x := by
  simp [toAtom]

@[simp] theorem toArray_array (a : Atom) (xs : List a.Carrier) :
    (Value.array a xs).toArray a = .ok xs := by
  simp [toArray]

@[simp] theorem toTuple_tuple (items : List Value) : (Value.tuple items).toTuple = .ok items := rfl

end Value

/-- Takes the first value; it is gone also when it does not convert. -/
def take {α : Type} (convert : Value → Except ConversionError α) :
    List Value → Except ConversionError α × List Value
  | [] => (.error .missing, [])
  | v :: vs => (convert v, vs)

end StakedChain.Abi
