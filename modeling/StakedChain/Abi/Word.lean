import StakedChain.Abi.Ty

namespace StakedChain.Abi.Atom

def toWord : (a : Atom) → a.Carrier → Octets 32
  | .address, x => ⟨List.replicate 12 0 ++ x.bytes, by simp [x.length_bytes]⟩
  | .uint, x => .ofNat 32 x.toNat
  | .bool, x => .ofNat 32 x.toNat

def ofWord? : (a : Atom) → Octets 32 → Option a.Carrier
  | .address, w =>
    if w.bytes.take 12 = List.replicate 12 0 then some w.address else none
  | .uint, w => some (BitVec.ofNat 256 w.value)
  | .bool, w => if w.value = 0 then some false else if w.value = 1 then some true else none

theorem ofWord?_toWord (a : Atom) (x : a.Carrier) : a.ofWord? (a.toWord x) = some x := by
  cases a with
  | address =>
    have hx := x.length_bytes
    simp [ofWord?, toWord, Octets.address, Octets.suffix]
  | uint =>
    simp only [ofWord?, toWord, Octets.value_ofNat, Option.some.injEq]
    apply BitVec.eq_of_toNat_eq
    have := x.isLt
    simp
    omega
  | bool => cases x <;> decide

theorem toWord_of_ofWord? {a : Atom} {w : Octets 32} {x : a.Carrier} (h : a.ofWord? w = some x) :
    a.toWord x = w := by
  cases a with
  | address =>
    simp only [ofWord?] at h
    split at h
    · rename_i hz
      cases h
      apply Octets.ext
      simp [toWord, Octets.address, Octets.suffix, ← hz]
    · cases h
  | uint =>
    simp only [ofWord?, Option.some.injEq] at h
    subst h
    have := w.value_lt
    apply Octets.value_inj
    simp only [toWord, Octets.value_ofNat, BitVec.toNat_ofNat]
    omega
  | bool =>
    simp only [ofWord?] at h
    split at h
    · rename_i hz
      cases h
      exact Octets.value_inj (by rw [hz]; decide)
    · split at h
      · rename_i hz
        cases h
        exact Octets.value_inj (by rw [hz]; decide)
      · cases h

end StakedChain.Abi.Atom
