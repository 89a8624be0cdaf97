import StakedChain.Octets
import StakedChain.Word

namespace StakedChain.Abi

inductive Atom where
  | address
  | uint
  | bool
  deriving DecidableEq, Repr

abbrev Atom.Carrier : Atom → Type
  | .address => Address
  | .uint => Word256
  | .bool => Bool

def Atom.text : Atom → String
  | .address => "address"
  | .uint => "uint256"
  | .bool => "bool"

inductive Ty where
  | atom (a : Atom)
  | array (a : Atom)
  | tuple (members : List Ty)
  deriving Repr

namespace Ty

mutual

def chars : Ty → List Char
  | .atom a => a.text.toList
  | .array a => a.text.toList ++ ['[', ']']
  | .tuple members => '(' :: (joined members ++ [')'])

def joined : List Ty → List Char
  | [] => []
  | [t] => chars t
  | t :: u :: rest => chars t ++ ',' :: joined (u :: rest)

end

def text (t : Ty) : String :=
  String.ofList t.chars

mutual

/-- Whether values are placed behind the head and found there by an offset. -/
def isDynamic : Ty → Bool
  | .atom _ => false
  | .array _ => true
  | .tuple members => anyDynamic members

def anyDynamic : List Ty → Bool
  | [] => false
  | t :: rest => isDynamic t || anyDynamic rest

end

mutual

def headSize : Ty → Nat
  | .atom _ => 32
  | .array _ => 32
  | .tuple members => if anyDynamic members then 32 else headSizes members

def headSizes : List Ty → Nat
  | [] => 0
  | t :: rest => headSize t + headSizes rest

end

theorem headSize_of_isDynamic : ∀ {t : Ty}, t.isDynamic = true → t.headSize = 32
  | .atom _, h => by simp [isDynamic] at h
  | .array _, _ => by simp [headSize]
  | .tuple _, h => by
    simp only [isDynamic] at h
    simp only [headSize, h, if_true]

end Ty

end StakedChain.Abi
