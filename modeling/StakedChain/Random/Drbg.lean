import StakedChain.Digest.Sha256

namespace StakedChain.Random

structure Drbg where
  key : Octets 32
  value : Octets 32
  deriving DecidableEq, Repr

namespace Drbg

def update (g : Drbg) (mark : UInt8) (input : Bytes) : Drbg :=
  let key := Digest.hmac g.key.bytes (g.value.bytes ++ mark :: input)
  ⟨key, Digest.hmac key.bytes g.value.bytes⟩

def seeded (input : Bytes) : Drbg :=
  let start : Drbg := ⟨.zero 32, ⟨List.replicate 32 1, List.length_replicate⟩⟩
  (start.update 0 input).update 1 input

def advance (g : Drbg) : Drbg :=
  ⟨g.key, Digest.hmac g.key.bytes g.value.bytes⟩

def draw? (bound : Nat) : Nat → Drbg → Option Nat
  | 0, _ => none
  | attempts + 1, g =>
    let g := g.advance
    if 0 < g.value.value ∧ g.value.value < bound then some g.value.value
    else draw? bound attempts (g.update 0 [])

theorem draw?_range {bound attempts k : Nat} {g : Drbg} (h : draw? bound attempts g = some k) :
    0 < k ∧ k < bound := by
  induction attempts generalizing g with
  | zero => cases h
  | succ attempts ih =>
    simp only [draw?] at h
    split at h
    · cases h; assumption
    · exact ih h

end Drbg

end StakedChain.Random
