import Mathlib.AlgebraicGeometry.EllipticCurve.Affine.Point
import Mathlib.Tactic.LinearCombination
import StakedChain.Proofs.Curve.Primality

namespace StakedChain.Curve

open WeierstrassCurve.Affine

section formulas

variable {F : Type} [Field F]

def curve (F : Type) [Field F] : WeierstrassCurve.Affine F :=
  ⟨0, 0, 0, 0, 7⟩

theorem equation_iff {x y : F} : (curve F).Equation x y ↔ y * y = x * x * x + 7 := by
  rw [WeierstrassCurve.Affine.equation_iff]
  simp only [curve]
  ring_nf

theorem negY_eq (x y : F) : (curve F).negY x y = -y := by
  simp only [negY, curve]
  ring

theorem addX_eq (x₁ x₂ slope : F) : (curve F).addX x₁ x₂ slope = slope ^ 2 - x₁ - x₂ := by
  simp only [addX, curve]
  ring

theorem addY_eq (x₁ x₂ y₁ slope : F) : (curve F).addY x₁ x₂ y₁ slope =
    slope * (x₁ - (curve F).addX x₁ x₂ slope) - y₁ := by
  simp only [addY, negAddY, negY_eq]
  ring

-- A triple stands for a point of the curve as `(x / z², y / z³)`.
def Denotes (x y z : F) : (curve F).Point → Prop
  | .zero => z = 0
  | .some a b _ => z ≠ 0 ∧ x = a * z ^ 2 ∧ y = b * z ^ 3

variable {x y z x' y' z' : F} {P Q : (curve F).Point}

theorem denotes_zero_iff : Denotes x y z 0 ↔ z = 0 :=
  .rfl

theorem Denotes.eq_zero_iff (h : Denotes x y z P) : z = 0 ↔ P = 0 := by
  cases P with
  | zero => exact iff_of_true h rfl
  | some a b hP => exact iff_of_false h.1 (Point.some_ne_zero hP)

variable [DecidableEq F]

omit [DecidableEq F] in
theorem ne_negY (two : (2 : F) ≠ 0) (a : F) {b : F} (hb : b ≠ 0) : b ≠ (curve F).negY a b := by
  rw [negY_eq, Ne, eq_neg_iff_add_eq_zero, ← two_mul]
  exact mul_ne_zero two hb

theorem tangent_slope (two : (2 : F) ≠ 0) {a b : F} (hb : b ≠ 0) :
    2 * b * (curve F).slope a a b b = 3 * a ^ 2 := by
  have hden : b - (curve F).negY a b = 2 * b := by
    rw [negY_eq]
    ring
  rw [slope_of_Y_ne rfl (ne_negY two a hb), hden, mul_div_cancel₀ _ (mul_ne_zero two hb)]
  simp only [curve]
  ring

theorem denotes_tangent (two : (2 : F) ≠ 0) (h : Denotes x y z P) {s m : F}
    (hs : s = 4 * (x * (y * y))) (hm : m = 3 * (x * x)) :
    Denotes (m * m - 2 * s) (m * (s - (m * m - 2 * s)) - 8 * (y * y * (y * y))) (2 * (y * z))
      (P + P) := by
  cases P with
  | zero =>
    have hz : z = 0 := h
    change Denotes _ _ _ 0
    rw [denotes_zero_iff, hz, mul_zero, mul_zero]
  | some a b hP =>
    obtain ⟨hz, rfl, rfl⟩ := h
    by_cases hb : b = 0
    · have hy : b = (curve F).negY a b := by rw [negY_eq, hb, neg_zero]
      rw [Point.add_self_of_Y_eq hy, denotes_zero_iff, hb, zero_mul, zero_mul, mul_zero]
    · have hslope := tangent_slope two (a := a) hb
      rw [Point.add_self_of_Y_ne (ne_negY two a hb)]
      have hx : m * m - 2 * s =
          (curve F).addX a a ((curve F).slope a a b b) * (2 * (b * z ^ 3 * z)) ^ 2 := by
        rw [addX_eq, hm, hs]
        linear_combination (-(z ^ 8) * (3 * a ^ 2 + 2 * b * (curve F).slope a a b b)) * hslope
      refine ⟨by simp [two, hb, hz], hx, ?_⟩
      rw [hx, addY_eq, hm, hs]
      linear_combination (-4 * b ^ 2 * z ^ 12 *
        (a - (curve F).addX a a ((curve F).slope a a b b))) * hslope

theorem denotes_chord (h : Denotes x y z P) (h' : Denotes x' y' z' Q) (hz : z ≠ 0) (hz' : z' ≠ 0)
    {u s d r : F} (hu : u = x * (z' * z')) (hs : s = y * (z' * z') * z')
    (hd : d = x' * (z * z) - u) (hr : r = y' * (z * z) * z - s) (ne : d ≠ 0) :
    Denotes (r * r - d * d * d - 2 * (u * (d * d)))
      (r * (u * (d * d) - (r * r - d * d * d - 2 * (u * (d * d)))) - s * (d * d * d))
      (z * z' * d) (P + Q) := by
  cases P with
  | zero => exact absurd h hz
  | some a b hP =>
    cases Q with
    | zero => exact absurd h' hz'
    | some a' b' hQ =>
      obtain ⟨-, rfl, rfl⟩ := h
      obtain ⟨-, rfl, rfl⟩ := h'
      have hd' : d = (a' - a) * (z ^ 2 * z' ^ 2) := by rw [hd, hu]; ring
      have hne : a ≠ a' := by
        rintro rfl
        exact ne (by rw [hd', sub_self, zero_mul])
      have hslope : (curve F).slope a a' b b' * (a - a') = b - b' := by
        rw [slope_of_X_ne hne, div_mul_cancel₀ _ (sub_ne_zero.mpr hne)]
      have hr' : r = (curve F).slope a a' b b' * (z * z' * d) := by
        rw [hr, hs, hd']
        linear_combination (z ^ 3 * z' ^ 3) * hslope
      rw [Point.add_of_X_ne hne]
      have hx : r * r - d * d * d - 2 * (u * (d * d)) =
          (curve F).addX a a' ((curve F).slope a a' b b') * (z * z' * d) ^ 2 := by
        rw [addX_eq, hr', hu]
        linear_combination (-(d ^ 2)) * hd'
      refine ⟨mul_ne_zero (mul_ne_zero hz hz') ne, hx, ?_⟩
      rw [hx, addY_eq, hr', hs, hu]
      ring

theorem vertical_cases (h : Denotes x y z P) (h' : Denotes x' y' z' Q) (hz : z ≠ 0) (hz' : z' ≠ 0)
    (hx : x' * (z * z) - x * (z' * z') = 0) :
    (y' * (z * z) * z - y * (z' * z') * z' = 0 → P = Q) ∧
      (y' * (z * z) * z - y * (z' * z') * z' ≠ 0 → P + Q = 0) := by
  cases P with
  | zero => exact absurd h hz
  | some a b hP =>
    cases Q with
    | zero => exact absurd h' hz'
    | some a' b' hQ =>
      obtain ⟨-, rfl, rfl⟩ := h
      obtain ⟨-, rfl, rfl⟩ := h'
      have hscale : z ^ 2 * z' ^ 2 ≠ 0 := mul_ne_zero (pow_ne_zero 2 hz) (pow_ne_zero 2 hz')
      have hscale' : z ^ 3 * z' ^ 3 ≠ 0 := mul_ne_zero (pow_ne_zero 3 hz) (pow_ne_zero 3 hz')
      obtain rfl : a' = a := by
        refine sub_eq_zero.mp ((mul_eq_zero_iff_right hscale).mp ?_)
        linear_combination hx
      have hy : b' * z' ^ 3 * (z * z) * z - b * z ^ 3 * (z' * z') * z' =
          (b' - b) * (z ^ 3 * z' ^ 3) := by ring
      rw [hy, Ne, mul_eq_zero_iff_right hscale', sub_eq_zero]
      constructor
      · rintro rfl
        rfl
      · intro hne
        refine Point.add_of_Y_eq rfl ((Y_eq_of_X_eq hP.1 hQ.1 rfl).resolve_left (Ne.symm hne))

end formulas

abbrev Element :=
  (curve (ZMod fieldOrder)).Point

namespace Point

structure Represents (p : Point) (P : Element) : Prop where
  denotes : Denotes (reduce p.x) (reduce p.y) (reduce p.z) P

theorem two_ne_zero : (2 : ZMod fieldOrder) ≠ 0 := by
  rw [← reduce_numeral, Ne, reduce_eq_zero_iff]
  decide

variable {p q : Point} {P Q : Element}

theorem Represents.eq_zero_iff (h : p.Represents P) : p.z = 0 ↔ P = 0 := by
  rw [← reduce_eq_zero_iff, h.denotes.eq_zero_iff]

theorem represents_infinity : infinity.Represents 0 :=
  ⟨reduce_zero⟩

theorem Represents.double (h : p.Represents P) : p.double.Represents (P + P) := by
  constructor
  simp only [Point.double, reduce_sub, reduce_mul, reduce_numeral]
  exact denotes_tangent two_ne_zero h.denotes rfl rfl

theorem Represents.add (h : p.Represents P) (h' : q.Represents Q) :
    (p.add q).Represents (P + Q) := by
  unfold Point.add
  split
  case isTrue hz => rwa [h.eq_zero_iff.mp hz, zero_add]
  case isFalse hz =>
    split
    case isTrue hz' => rwa [h'.eq_zero_iff.mp hz', add_zero]
    case isFalse hz' =>
      rw [← reduce_eq_zero_iff] at hz hz'
      have cases := vertical_cases h.denotes h'.denotes hz hz'
      simp only [← reduce_eq_zero_iff, reduce_sub, reduce_mul]
      split
      case isTrue hd =>
        split
        case isTrue hr =>
          rw [← (cases hd).1 hr]
          exact h.double
        case isFalse hr =>
          rw [(cases hd).2 hr]
          exact represents_infinity
      case isFalse hd =>
        constructor
        simp only [reduce_sub, reduce_mul, reduce_numeral]
        exact denotes_chord h.denotes h'.denotes hz hz' rfl rfl rfl rfl hd

end Point

end StakedChain.Curve
