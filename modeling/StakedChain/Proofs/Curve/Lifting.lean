import StakedChain.Proofs.Curve.Order

namespace StakedChain.Curve

attribute [local instance (2000)] Zero.ofOfNat0

theorem odd_neg_of_ne_zero {y : Coordinate} (h : y ≠ 0) :
    ((-y).val % 2 == 1) = !(y.val % 2 == 1) := by
  have hlt := y.isLt
  have hodd : fieldOrder % 2 = 1 := by decide
  rw [val_neg_of_ne_zero h]
  rcases Nat.mod_two_eq_zero_or_one y.val with hy | hy
  · have hneg : (fieldOrder - y.val) % 2 = 1 := by omega
    rw [hneg, hy]
    rfl
  · have hneg : (fieldOrder - y.val) % 2 = 0 := by omega
    rw [hneg, hy]
    rfl

-- Four times the exponent is one more than the order of the field, and y ^ (p + 1) = y * y.
theorem power_square (y : Coordinate) :
    power (y * y) ((fieldOrder + 1) / 4) = y ∨ power (y * y) ((fieldOrder + 1) / 4) = -y := by
  have hexponent : (fieldOrder + 1) / 4 * 4 = fieldOrder + 1 := by decide
  have hsquare : reduce (power (y * y) ((fieldOrder + 1) / 4)) *
      reduce (power (y * y) ((fieldOrder + 1) / 4)) = reduce y * reduce y :=
    calc _ = (reduce y * reduce y) ^ ((fieldOrder + 1) / 4) *
          (reduce y * reduce y) ^ ((fieldOrder + 1) / 4) := by rw [reduce_power, reduce_mul]
      _ = reduce y ^ ((fieldOrder + 1) / 4 * 4) := by ring
      _ = reduce y * reduce y := by rw [hexponent, pow_succ, ZMod.pow_card]
  rw [← reduce_inj, ← reduce_inj (y := -y), reduce_neg]
  exact mul_self_eq_mul_self_iff.mp hsquare

namespace Point

theorem lift?_eq {x y : Coordinate} (h : y * y = x * x * x + 7) (odd : Bool) :
    lift? x odd = some ⟨x, if (y.val % 2 == 1) = odd then y else -y, 1⟩ := by
  unfold lift?
  simp only [← h]
  rcases power_square y with hroot | hroot
  · rw [hroot, if_pos rfl]
  · have hsquare : -y * -y = y * y := by
      rw [← reduce_inj, reduce_mul, reduce_neg, neg_mul_neg, reduce_mul]
    have hneg : - -y = y := by
      rw [← reduce_inj, reduce_neg, reduce_neg, neg_neg]
    rw [hroot, if_pos hsquare, hneg]
    by_cases hy : y = 0
    · have hzero : -y = y := by rw [hy]; rfl
      rw [hzero, ite_self]
    · rw [odd_neg_of_ne_zero hy]
      cases hodd : y.val % 2 == 1 <;> cases odd <;> rfl

variable {p q : Point} {P : Element}

theorem Represents.affine {x y : ZMod fieldOrder}
    {h : (curve (ZMod fieldOrder)).Nonsingular x y} (rep : p.Represents (.some x y h)) :
    reduce p.affine.1 = x ∧ reduce p.affine.2 = y := by
  obtain ⟨hz, hx, hy⟩ := rep.denotes
  simp only [Point.affine, reduce_mul, reduce_inverse (show 2 < fieldOrder by decide), hx, hy]
  constructor <;> field_simp

theorem Represents.affine_eq (ne : P ≠ 0) (rep : p.Represents P) (rep' : q.Represents P) :
    p.affine = q.affine := by
  cases P with
  | zero => exact absurd rfl ne
  | some x y h =>
    obtain ⟨hx, hy⟩ := rep.affine
    obtain ⟨hx', hy'⟩ := rep'.affine
    exact Prod.ext (reduce_injective (hx.trans hx'.symm)) (reduce_injective (hy.trans hy'.symm))

theorem Represents.affine_on_curve (ne : P ≠ 0) (rep : p.Represents P) :
    p.affine.2 * p.affine.2 = p.affine.1 * p.affine.1 * p.affine.1 + 7 := by
  cases P with
  | zero => exact absurd rfl ne
  | some x y h =>
    obtain ⟨hx, hy⟩ := rep.affine
    rw [← reduce_inj]
    simp only [reduce_add, reduce_mul, reduce_numeral, hx, hy]
    exact equation_iff.mp h.1

theorem Represents.at_affine (ne : P ≠ 0) (rep : p.Represents P) :
    Represents ⟨p.affine.1, p.affine.2, 1⟩ P ∧ Represents ⟨p.affine.1, -p.affine.2, 1⟩ (-P) := by
  cases P with
  | zero => exact absurd rfl ne
  | some x y h =>
    obtain ⟨hx, hy⟩ := rep.affine
    rw [WeierstrassCurve.Affine.Point.neg_some]
    refine ⟨⟨?_⟩, ⟨?_⟩⟩ <;>
      simp only [Denotes, reduce_one, reduce_neg, hx, hy, negY_eq, one_pow, mul_one, and_true] <;>
      exact one_ne_zero

end Point

end StakedChain.Curve
