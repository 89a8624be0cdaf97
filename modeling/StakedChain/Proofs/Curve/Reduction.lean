import Mathlib.FieldTheory.Finite.Basic
import StakedChain.Curve.Point

namespace StakedChain.Curve

attribute [local instance (2000)] Zero.ofOfNat0 instPowNat

variable {m : Nat}

-- The residues among the integers modulo `m`, where there is a theory of rings and fields.
def reduce (x : Fin m) : ZMod m :=
  (x.val : ZMod m)

theorem val_reduce (x : Fin m) : (reduce x).val = x.val := by
  rw [reduce, ZMod.val_natCast, Nat.mod_eq_of_lt x.isLt]

theorem reduce_injective : Function.Injective (reduce (m := m)) := by
  intro x y h
  rw [Fin.ext_iff, ← val_reduce x, ← val_reduce y, h]

@[simp] theorem reduce_inj {x y : Fin m} : reduce x = reduce y ↔ x = y :=
  reduce_injective.eq_iff

@[simp] theorem reduce_add (x y : Fin m) : reduce (x + y) = reduce x + reduce y := by
  rw [reduce, Fin.val_add, ZMod.natCast_mod, Nat.cast_add]
  rfl

@[simp] theorem reduce_mul (x y : Fin m) : reduce (x * y) = reduce x * reduce y := by
  rw [reduce, Fin.val_mul, ZMod.natCast_mod, Nat.cast_mul]
  rfl

@[simp] theorem reduce_sub (x y : Fin m) : reduce (x - y) = reduce x - reduce y := by
  have hval : (x - y).val = (m - y.val + x.val) % m := rfl
  rw [reduce, hval, ZMod.natCast_mod, Nat.cast_add, Nat.cast_sub y.isLt.le, ZMod.natCast_self,
    zero_sub, neg_add_eq_sub]
  rfl

section

variable [NeZero m]

@[simp] theorem reduce_ofNat (n : Nat) : reduce (Fin.ofNat m n) = n := by
  rw [reduce, Fin.val_ofNat, ZMod.natCast_mod]

@[simp] theorem reduce_zero : reduce (0 : Fin m) = 0 := by
  rw [show (0 : Fin m) = Fin.ofNat m 0 from rfl, reduce_ofNat, Nat.cast_zero]

@[simp] theorem reduce_one : reduce (1 : Fin m) = 1 := by
  rw [show (1 : Fin m) = Fin.ofNat m 1 from rfl, reduce_ofNat, Nat.cast_one]

@[simp] theorem reduce_numeral (n : Nat) [n.AtLeastTwo] :
    reduce (no_index (OfNat.ofNat n) : Fin m) = OfNat.ofNat n := by
  rw [show (OfNat.ofNat n : Fin m) = Fin.ofNat m n from rfl, reduce_ofNat]
  rfl

@[simp] theorem reduce_neg (x : Fin m) : reduce (-x) = -reduce x := by
  rw [show -x = 0 - x from Fin.ext rfl, reduce_sub, reduce_zero, zero_sub]

theorem reduce_eq_zero_iff {x : Fin m} : reduce x = 0 ↔ x = 0 := by
  rw [← reduce_zero, reduce_inj]

theorem val_neg_of_ne_zero {x : Fin m} (h : x ≠ 0) : (-x).val = m - x.val := by
  have hpos : 0 < x.val := Nat.pos_of_ne_zero fun h0 => h (Fin.ext h0)
  have hval : (-x).val = (m - x.val) % m := rfl
  rw [hval, Nat.mod_eq_of_lt (Nat.sub_lt (Nat.zero_lt_of_lt x.isLt) hpos)]

theorem reduce_powerBits (x : Fin m) {bits e : Nat} (h : e < 2 ^ bits) :
    reduce (powerBits x bits e) = reduce x ^ e := by
  induction bits generalizing e with
  | zero =>
    obtain rfl : e = 0 := Nat.lt_one_iff.mp h
    rw [powerBits, reduce_one, pow_zero]
  | succ bits ih =>
    have hhalf : e / 2 < 2 ^ bits := by
      rw [Nat.pow_succ] at h
      omega
    have hsquare : reduce (powerBits x bits (e / 2)) * reduce (powerBits x bits (e / 2)) =
        reduce x ^ (2 * (e / 2)) := by
      rw [ih hhalf, ← pow_add, ← Nat.two_mul]
    simp only [powerBits]
    split
    case isTrue hodd =>
      rw [reduce_mul, reduce_mul, hsquare, ← pow_succ]
      congr 1
      omega
    case isFalse heven =>
      rw [reduce_mul, hsquare]
      congr 1
      omega

theorem reduce_power (x : Fin m) (e : Nat) : reduce (power x e) = reduce x ^ e :=
  reduce_powerBits x Nat.lt_log2_self

theorem reduce_inverse [Fact m.Prime] (hm : 2 < m) (x : Fin m) :
    reduce (inverse x) = (reduce x)⁻¹ := by
  rw [inverse, reduce_power]
  by_cases hx : reduce x = 0
  · rw [hx, inv_zero, zero_pow (Nat.sub_ne_zero_of_lt hm)]
  · refine eq_inv_of_mul_eq_one_left ?_
    rw [← pow_succ, show m - 2 + 1 = m - 1 by omega, ZMod.pow_card_sub_one_eq_one hx]

end

end StakedChain.Curve
