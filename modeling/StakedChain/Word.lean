namespace StakedChain

abbrev Word (w : Nat) := BitVec w

abbrev Word64 := Word 64

abbrev Word128 := Word 128

abbrev Word256 := Word 256

namespace Word

variable {w v : Nat}

attribute [local instance (2000)] instPowNat

def ofNat? (w n : Nat) : Option (Word w) :=
  if n < 2 ^ w then some (BitVec.ofNat w n) else none

theorem ofNat?_eq_some_iff {n : Nat} {a : Word w} : ofNat? w n = some a ↔ a.toNat = n := by
  unfold ofNat?
  constructor
  · intro h
    split at h
    · cases h; exact Nat.mod_eq_of_lt ‹_›
    · cases h
  · intro h
    subst h
    rw [if_pos a.isLt, BitVec.ofNat_toNat, BitVec.setWidth_eq]

theorem ofNat?_eq_none_iff {n : Nat} : ofNat? w n = none ↔ 2 ^ w ≤ n := by
  simp [ofNat?]

def add? (a b : Word w) : Option (Word w) :=
  ofNat? w (a.toNat + b.toNat)

def mul? (a b : Word w) : Option (Word w) :=
  ofNat? w (a.toNat * b.toNat)

def sub? (a b : Word w) : Option (Word w) :=
  if b ≤ a then some (a - b) else none

def div? (a b : Word w) : Option (Word w) :=
  if b = 0 then none else some (a / b)

def rem? (a b : Word w) : Option (Word w) :=
  if b = 0 then none else some (a % b)

def narrow? (v : Nat) (a : Word w) : Option (Word v) :=
  ofNat? v a.toNat

def widen (v : Nat) (a : Word w) : Word v :=
  BitVec.ofNat v a.toNat

def decimal (a : Word w) : String :=
  toString a.toNat

theorem add?_eq_some_iff {a b c : Word w} : add? a b = some c ↔ c.toNat = a.toNat + b.toNat :=
  ofNat?_eq_some_iff

theorem mul?_eq_some_iff {a b c : Word w} : mul? a b = some c ↔ c.toNat = a.toNat * b.toNat :=
  ofNat?_eq_some_iff

theorem sub?_eq_some_iff {a b c : Word w} :
    sub? a b = some c ↔ b.toNat ≤ a.toNat ∧ c.toNat = a.toNat - b.toNat := by
  unfold sub?
  constructor
  · intro h
    split at h
    · rename_i hle
      cases h
      exact ⟨hle, BitVec.toNat_sub_of_le hle⟩
    · cases h
  · rintro ⟨hle, h⟩
    have hle' : b ≤ a := hle
    rw [if_pos hle']
    congr 1
    apply BitVec.eq_of_toNat_eq
    rw [BitVec.toNat_sub_of_le hle', h]

theorem div?_eq_some_iff {a b c : Word w} :
    div? a b = some c ↔ b ≠ 0 ∧ c.toNat = a.toNat / b.toNat := by
  unfold div?
  by_cases hb : b = 0
  · simp [hb]
  · rw [if_neg hb, Option.some.injEq, eq_comm, ← BitVec.toNat_inj, BitVec.toNat_udiv]
    exact (and_iff_right hb).symm

theorem rem?_eq_some_iff {a b c : Word w} :
    rem? a b = some c ↔ b ≠ 0 ∧ c.toNat = a.toNat % b.toNat := by
  unfold rem?
  by_cases hb : b = 0
  · simp [hb]
  · rw [if_neg hb, Option.some.injEq, eq_comm, ← BitVec.toNat_inj, BitVec.toNat_umod]
    exact (and_iff_right hb).symm

theorem narrow?_eq_some_iff {a : Word w} {b : Word v} : narrow? v a = some b ↔ b.toNat = a.toNat :=
  ofNat?_eq_some_iff

theorem toNat_widen (h : w ≤ v) (a : Word w) : (widen v a).toNat = a.toNat :=
  Nat.mod_eq_of_lt (Nat.lt_of_lt_of_le a.isLt (Nat.pow_le_pow_right (by decide) h))

end Word

end StakedChain
