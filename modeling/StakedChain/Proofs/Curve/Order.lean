import Mathlib.Data.ZMod.Basic
import StakedChain.Proofs.Curve.Group

namespace StakedChain.Curve

attribute [local instance (2000)] Zero.ofOfNat0 instPowNat

namespace Point

variable {p : Point} {P : Element}

theorem Represents.timesBits (h : p.Represents P) {bits k : Nat} (hk : k < 2 ^ bits) :
    (p.timesBits bits k).Represents (k • P) := by
  induction bits generalizing k with
  | zero =>
    obtain rfl : k = 0 := Nat.lt_one_iff.mp hk
    rw [zero_nsmul]
    exact represents_infinity
  | succ bits ih =>
    have hhalf : k / 2 < 2 ^ bits := by
      rw [Nat.pow_succ] at hk
      omega
    have twice := (ih hhalf).double
    rw [← add_nsmul, ← Nat.two_mul] at twice
    simp only [Point.timesBits]
    split
    case isTrue hodd =>
      have heq : k = 2 * (k / 2) + 1 := by omega
      have sum := twice.add h
      rwa [← succ_nsmul, ← heq] at sum
    case isFalse heven =>
      have heq : 2 * (k / 2) = k := by omega
      rwa [heq] at twice

theorem Represents.times (h : p.Represents P) (k : Scalar) :
    (p.times k).Represents (k.val • P) :=
  h.timesBits (Nat.lt_trans k.isLt (by decide))

end Point

theorem discriminant_ne_zero : (curve (ZMod fieldOrder)).Δ ≠ 0 := by
  have hΔ : (curve (ZMod fieldOrder)).Δ = -21168 := by
    simp only [WeierstrassCurve.Δ, WeierstrassCurve.b₂, WeierstrassCurve.b₄, WeierstrassCurve.b₆,
      WeierstrassCurve.b₈, curve]
    ring
  rw [hΔ, neg_ne_zero, ← reduce_numeral, Ne, reduce_eq_zero_iff]
  decide

theorem nonsingular_reduce {x y : Coordinate} (h : y * y = x * x * x + 7) :
    (curve (ZMod fieldOrder)).Nonsingular (reduce x) (reduce y) := by
  rw [← WeierstrassCurve.Affine.equation_iff_nonsingular_of_Δ_ne_zero discriminant_ne_zero,
    equation_iff, ← reduce_mul, h]
  simp only [reduce_add, reduce_mul, reduce_numeral]

theorem base_on_curve : Point.base.y * Point.base.y =
    Point.base.x * Point.base.x * Point.base.x + 7 := by
  decide +kernel

def generator : Element :=
  .some (reduce Point.base.x) (reduce Point.base.y) (nonsingular_reduce base_on_curve)

namespace Point

theorem represents_some {x y : Coordinate} (h : y * y = x * x * x + 7) :
    Represents ⟨x, y, 1⟩ (.some (reduce x) (reduce y) (nonsingular_reduce h)) := by
  constructor
  simp only [Denotes, reduce_one, one_pow, mul_one, and_self, and_true]
  exact one_ne_zero

theorem represents_base : base.Represents generator :=
  represents_some base_on_curve

theorem groupOrder_times_base : (base.timesBits 256 groupOrder).z = 0 := by
  decide +kernel

end Point

theorem generator_ne_zero : generator ≠ 0 :=
  WeierstrassCurve.Affine.Point.some_ne_zero _

theorem groupOrder_nsmul_generator : groupOrder • generator = 0 :=
  (Point.represents_base.timesBits (by decide)).eq_zero_iff.mp Point.groupOrder_times_base

theorem addOrderOf_generator : addOrderOf generator = groupOrder :=
  addOrderOf_eq_prime groupOrder_nsmul_generator generator_ne_zero

def multiple : ZMod groupOrder →+ Element :=
  ZMod.lift groupOrder ⟨zmultiplesHom Element generator, by
    rw [zmultiplesHom_apply, natCast_zsmul, groupOrder_nsmul_generator]⟩

theorem multiple_natCast (n : Nat) : multiple n = n • generator := by
  rw [← Int.cast_natCast, multiple, ZMod.lift_coe, zmultiplesHom_apply, natCast_zsmul]

theorem multiple_reduce (k : Scalar) : multiple (reduce k) = k.val • generator :=
  multiple_natCast k.val

theorem nsmul_multiple (k : Scalar) (a : ZMod groupOrder) :
    k.val • multiple a = multiple (reduce k * a) := by
  rw [← map_nsmul, nsmul_eq_mul]
  rfl

theorem multiple_eq_zero_iff {a : ZMod groupOrder} : multiple a = 0 ↔ a = 0 := by
  rw [← ZMod.natCast_zmod_val a, multiple_natCast, ← addOrderOf_dvd_iff_nsmul_eq_zero,
    addOrderOf_generator, ZMod.natCast_eq_zero_iff]

theorem multiple_reduce_ne_zero {k : Scalar} (h : k ≠ 0) : multiple (reduce k) ≠ 0 := by
  rwa [Ne, multiple_eq_zero_iff, reduce_eq_zero_iff]

theorem Point.represents_times_base (k : Scalar) :
    (Point.base.times k).Represents (multiple (reduce k)) := by
  rw [multiple_reduce]
  exact Point.represents_base.times k

end StakedChain.Curve
