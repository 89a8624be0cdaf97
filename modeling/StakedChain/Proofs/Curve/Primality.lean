import Mathlib.NumberTheory.LucasPrimality
import Mathlib.Tactic.NormNum.Prime
import StakedChain.Curve.Point
import StakedChain.Proofs.Curve.Reduction

namespace StakedChain.Curve

attribute [local instance (2000)] Zero.ofOfNat0

structure Certificate where
  number : Nat
  generator : Nat
  factors : List Nat

namespace Certificate

def product : List Nat → Nat
  | [] => 1
  | q :: qs => q * product qs

theorem mem_of_prime_dvd_product {q : Nat} (hq : q.Prime) {factors : List Nat}
    (primes : ∀ f ∈ factors, f.Prime) (h : q ∣ product factors) : q ∈ factors := by
  induction factors with
  | nil => exact absurd (Nat.dvd_one.mp h) hq.ne_one
  | cons f factors ih =>
    obtain ⟨hf, hfs⟩ := List.forall_mem_cons.mp primes
    rcases hq.dvd_mul.mp h with hdvd | hdvd
    · exact List.mem_cons.mpr (.inl ((Nat.prime_dvd_prime_iff_eq hq hf).mp hdvd))
    · exact List.mem_cons_of_mem f (ih hfs hdvd)

-- The test of Lucas, with the factors among the primes known so far.
def passes (known : List Nat) (c : Certificate) : Bool :=
  if h : c.number ≠ 0 then
    haveI : NeZero c.number := ⟨h⟩
    let g : Fin c.number := Fin.ofNat c.number c.generator
    c.factors.all (known.contains ·) && product c.factors == c.number - 1 &&
      power g (c.number - 1) == 1 &&
      c.factors.all fun q => !(power g ((c.number - 1) / q) == 1)
  else false

theorem prime_of_passes {known : List Nat} {c : Certificate} (primes : ∀ q ∈ known, q.Prime)
    (h : c.passes known = true) : c.number.Prime := by
  unfold passes at h
  split at h
  case isFalse => cases h
  case isTrue hne =>
    have : NeZero c.number := ⟨hne⟩
    simp only [Bool.and_eq_true, List.all_eq_true, List.contains_iff_mem, beq_iff_eq,
      Bool.not_eq_true', beq_eq_false_iff_ne] at h
    obtain ⟨⟨⟨hknown, hproduct⟩, hfull⟩, hparts⟩ := h
    refine lucas_primality c.number (reduce (Fin.ofNat c.number c.generator)) ?_ ?_
    · rw [← reduce_power, hfull, reduce_one]
    · intro q hq hdvd
      rw [← hproduct] at hdvd
      have mem := mem_of_prime_dvd_product hq (fun f hf => primes f (hknown f hf)) hdvd
      rw [← reduce_power, ← reduce_one, Ne, reduce_inj]
      exact hparts q mem

def passAll : List Nat → List Certificate → Bool
  | _, [] => true
  | known, c :: cs => c.passes known && passAll (c.number :: known) cs

theorem prime_of_passAll {known : List Nat} {cs : List Certificate}
    (primes : ∀ q ∈ known, q.Prime) (h : passAll known cs = true) :
    ∀ c ∈ cs, c.number.Prime := by
  induction cs generalizing known with
  | nil => nofun
  | cons c cs ih =>
    rw [passAll, Bool.and_eq_true] at h
    have hc := prime_of_passes primes h.1
    exact List.forall_mem_cons.mpr ⟨hc, ih (List.forall_mem_cons.mpr ⟨hc, primes⟩) h.2⟩

end Certificate

def smallPrimes : List Nat :=
  [2, 3, 5, 7, 11, 17, 29, 31, 41, 53, 59, 97, 109, 149, 293, 461, 631, 797, 971, 1373, 1627,
    1871, 2011, 2621, 2657, 4051, 4423, 5323, 7723, 9349, 13441, 16699, 20113, 24809, 28181,
    41201, 85831, 96557, 120233, 305873]

theorem prime_of_mem_smallPrimes : ∀ q ∈ smallPrimes, q.Prime := by
  simp only [smallPrimes, List.forall_mem_cons]
  norm_num

def certificates : List Certificate :=
  [⟨1206781, 10, [2, 2, 3, 5, 20113]⟩,
    ⟨1627771, 3, [2, 3, 5, 29, 1871]⟩,
    ⟨4681609, 23, [2, 2, 2, 3, 97, 2011]⟩,
    ⟨7240687, 3, [2, 3, 1206781]⟩,
    ⟨13331831, 13, [2, 5, 971, 1373]⟩,
    ⟨44706919, 6, [2, 3, 797, 9349]⟩,
    ⟨107590001, 3, [2, 2, 2, 2, 5, 5, 5, 5, 7, 29, 53]⟩,
    ⟨545358713, 5, [2, 2, 2, 41, 59, 28181]⟩,
    ⟨297159362677, 2, [2, 2, 3, 3, 11, 461, 1627771]⟩,
    ⟨107361793816595537, 3, [2, 2, 2, 2, 16699, 85831, 4681609]⟩,
    ⟨173378833005251801, 6, [2, 2, 2, 5, 5, 2621, 24809, 13331831]⟩,
    ⟨174723607534414371449, 3, [2, 2, 2, 17, 59, 4051, 120233, 44706919]⟩,
    ⟨22149492674086928081353, 5, [2, 2, 2, 3, 5323, 173378833005251801]⟩,
    ⟨132896956044521568488119, 6, [2, 3, 22149492674086928081353]⟩,
    ⟨29047611873442575647497758179, 2, [2, 293, 305873, 545358713, 297159362677]⟩,
    ⟨341948486974166000522343609283189, 2, [2, 2, 3, 3, 3, 109, 29047611873442575647497758179]⟩,
    ⟨255515944373312847190720520512484175977, 3,
      [2, 2, 2, 7, 7, 11, 1627, 2657, 4423, 41201, 96557, 7240687, 107590001]⟩,
    ⟨205115282021455665897114700593932402728804164701536103180137503955397371, 10,
      [2, 3, 5, 29, 29, 31, 7723, 132896956044521568488119,
        255515944373312847190720520512484175977]⟩,
    ⟨groupOrder, 7, [2, 2, 2, 2, 2, 2, 3, 149, 631, 107361793816595537, 174723607534414371449,
      341948486974166000522343609283189]⟩,
    ⟨fieldOrder, 3, [2, 3, 7, 13441,
      205115282021455665897114700593932402728804164701536103180137503955397371]⟩]

theorem passAll_certificates : Certificate.passAll smallPrimes certificates = true := by
  decide +kernel

theorem prime_of_mem_certificates {p : Nat} (h : p ∈ certificates.map (·.number)) : p.Prime := by
  obtain ⟨c, hc, rfl⟩ := List.mem_map.mp h
  exact Certificate.prime_of_passAll prime_of_mem_smallPrimes passAll_certificates c hc

theorem prime_fieldOrder : fieldOrder.Prime :=
  prime_of_mem_certificates (by decide +kernel)

theorem prime_groupOrder : groupOrder.Prime :=
  prime_of_mem_certificates (by decide +kernel)

instance : Fact fieldOrder.Prime :=
  ⟨prime_fieldOrder⟩

instance : Fact groupOrder.Prime :=
  ⟨prime_groupOrder⟩

end StakedChain.Curve
