namespace StakedChain

abbrev Bytes := List UInt8

namespace Bytes

-- Powers are those of the lemmas on machine words, whatever else is in scope.
attribute [local instance (2000)] instPowNat

def value : Bytes → Nat
  | [] => 0
  | b :: bs => b.toNat * 256 ^ bs.length + value bs

/-- The low `width` octets of a number, most significant first. -/
def ofNat : Nat → Nat → Bytes
  | 0, _ => []
  | width + 1, n => UInt8.ofNat (n / 256 ^ width) :: ofNat width n

@[simp] theorem length_ofNat (width n : Nat) : (ofNat width n).length = width := by
  induction width with
  | zero => rfl
  | succ width ih => simp [ofNat, ih]

theorem value_lt (bs : Bytes) : value bs < 256 ^ bs.length := by
  induction bs with
  | nil => simp [value]
  | cons b bs ih =>
    have hb : b.toNat + 1 ≤ 256 := b.toNat_lt
    calc value (b :: bs) < b.toNat * 256 ^ bs.length + 256 ^ bs.length :=
          Nat.add_lt_add_left ih _
      _ = (b.toNat + 1) * 256 ^ bs.length := (Nat.succ_mul _ _).symm
      _ ≤ 256 * 256 ^ bs.length := Nat.mul_le_mul_right _ hb
      _ = 256 ^ (b :: bs).length := by rw [List.length_cons, Nat.pow_succ, Nat.mul_comm]

theorem value_ofNat (width n : Nat) : value (ofNat width n) = n % 256 ^ width := by
  induction width with
  | zero => simp [ofNat, value, Nat.mod_one]
  | succ width ih =>
    have hb : (UInt8.ofNat (n / 256 ^ width)).toNat = n / 256 ^ width % 256 := by simp
    rw [ofNat, value, hb, ih, length_ofNat, Nat.pow_succ, Nat.mod_mul, Nat.mul_comm,
      Nat.add_comm]

theorem ofNat_value (bs : Bytes) : ofNat bs.length (value bs) = bs := by
  suffices h : ∀ (bs : Bytes) (k : Nat), ofNat bs.length (k * 256 ^ bs.length + value bs) = bs by
    simpa using h bs 0
  intro bs
  induction bs with
  | nil => intro k; rfl
  | cons b bs ih =>
    intro k
    have hlt := value_lt bs
    have hpos : 0 < 256 ^ bs.length := Nat.pow_pos (by decide)
    have hsplit : k * 256 ^ (bs.length + 1) + value (b :: bs)
        = (k * 256 + b.toNat) * 256 ^ bs.length + value bs := by
      rw [value, Nat.pow_succ, Nat.add_mul, Nat.mul_assoc, Nat.mul_comm 256, Nat.add_assoc]
    have hdiv : ((k * 256 + b.toNat) * 256 ^ bs.length + value bs) / 256 ^ bs.length
        = k * 256 + b.toNat := by
      rw [Nat.mul_comm, Nat.mul_add_div hpos, Nat.div_eq_of_lt hlt, Nat.add_zero]
    rw [List.length_cons, ofNat, hsplit, ih, hdiv]
    congr 1
    apply UInt8.toNat_inj.mp
    simp

theorem value_inj {as bs : Bytes} (hl : as.length = bs.length) (h : value as = value bs) :
    as = bs := by
  rw [← ofNat_value as, ← ofNat_value bs, hl, h]

/-- The number of octets of the shortest numeral; zero has none. -/
def width (n : Nat) : Nat :=
  if n = 0 then 0 else n.log2 / 8 + 1

def minimal (n : Nat) : Bytes :=
  ofNat (width n) n

def hexPair (b : UInt8) : List Char :=
  [Nat.digitChar (b.toNat / 16), Nat.digitChar (b.toNat % 16)]

def hexDigits (bs : Bytes) : List Char :=
  bs.flatMap hexPair

def hex (bs : Bytes) : String :=
  String.ofList ('0' :: 'x' :: hexDigits bs)

def listing (bs : Bytes) : String :=
  "[" ++ ", ".intercalate (bs.map fun b => String.ofList (hexPair b)) ++ "]"

end Bytes

end StakedChain
