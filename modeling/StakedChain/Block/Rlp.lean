import StakedChain.Bytes

namespace StakedChain.Block.Rlp

inductive Item where
  | octets (bs : Bytes)
  | list (items : List Item)
  deriving Repr

/-- Numbers have no leading zeros, and zero has no octets at all. -/
def Item.ofNat (n : Nat) : Item :=
  .octets (Bytes.minimal n)

/-- The mark and length in front of `size` octets; a length above 55 is written out. -/
def header (mark size : Nat) : Bytes :=
  if size ≤ 55 then [UInt8.ofNat (mark + size)]
  else UInt8.ofNat (mark + 55 + Bytes.width size) :: Bytes.minimal size

def octets : Bytes → Bytes
  | [b] => if b < 128 then [b] else header 128 1 ++ [b]
  | bs => header 128 bs.length ++ bs

mutual

def encode : Item → Bytes
  | .octets bs => octets bs
  | .list items => header 192 (encodeAll items).length ++ encodeAll items

def encodeAll : List Item → Bytes
  | [] => []
  | item :: rest => encode item ++ encodeAll rest

end

theorem encodeAll_append (xs ys : List Item) :
    encodeAll (xs ++ ys) = encodeAll xs ++ encodeAll ys := by
  induction xs with
  | nil => simp [encodeAll]
  | cons x xs ih => simp [encodeAll, ih]

end StakedChain.Block.Rlp
