import StakedChain.Proofs.Abi.Acceptance

namespace StakedChain.Abi

namespace Ty

mutual

def arrays : Ty → Nat
  | .atom _ => 0
  | .array _ => 1
  | .tuple members => arraysAll members

def arraysAll : List Ty → Nat
  | [] => 0
  | t :: ts => arrays t + arraysAll ts

end

end Ty

namespace Value

mutual

def items : Value → Nat
  | .atom _ _ => 0
  | .array _ xs => xs.length
  | .tuple vs => itemsAll vs

def itemsAll : List Value → Nat
  | [] => 0
  | v :: vs => items v + itemsAll vs

end

mutual

def Within (bound : Nat) : Value → Prop
  | .atom _ _ => True
  | .array _ xs => xs.length ≤ bound
  | .tuple vs => WithinAll bound vs

def WithinAll (bound : Nat) : List Value → Prop
  | [] => True
  | v :: vs => Within bound v ∧ WithinAll bound vs

end

mutual

theorem items_le {bound : Nat} : ∀ {t : Ty} {v : Value}, v.conforms t = true → v.Within bound →
    v.items ≤ t.arrays * bound
  | .atom _, .atom _ _, _, _ => Nat.zero_le _
  | .array _, .array _ xs, _, h => by
    simpa [items, Ty.arrays, Within] using h
  | .tuple members, .tuple vs, hc, h => by
    simp only [conforms] at hc
    simp only [Within] at h
    simpa only [items, Ty.arrays] using itemsAll_le hc h
  | .atom _, .array _ _, hc, _ | .atom _, .tuple _, hc, _
  | .array _, .atom _ _, hc, _ | .array _, .tuple _, hc, _
  | .tuple _, .atom _ _, hc, _ | .tuple _, .array _ _, hc, _ => by
    simp [conforms] at hc

theorem itemsAll_le {bound : Nat} : ∀ {ts : List Ty} {vs : List Value},
    conformsAll vs ts = true → WithinAll bound vs → itemsAll vs ≤ Ty.arraysAll ts * bound
  | [], [], _, _ => Nat.zero_le _
  | [], _ :: _, hc, _ | _ :: _, [], hc, _ => by simp [conformsAll] at hc
  | t :: ts, v :: vs, hc, h => by
    simp only [conformsAll, Bool.and_eq_true] at hc
    simp only [WithinAll] at h
    have first := items_le hc.1 h.1
    have rest := itemsAll_le hc.2 h.2
    rw [itemsAll, Ty.arraysAll, Nat.add_mul]
    exact Nat.add_le_add first rest

end

end Value

namespace Reading

theorem length_array {a : Atom} {data : Bytes} {place : Nat} {xs : List a.Carrier}
    (h : array a data place = .ok xs) : xs.length ≤ data.length / 32 := by
  obtain ⟨n, -, hroom, hxs⟩ := array_eq_ok_iff.mp h
  rw [length_items hxs]
  omega

mutual

theorem within_value {data : Bytes} : ∀ {t : Ty} {place : Nat} {v : Value},
    value data t place = .ok v → v.Within (data.length / 32)
  | .atom a, place, v, h => by
    rw [value, map_eq_ok_iff] at h
    obtain ⟨x, -, rfl⟩ := h
    simp only [Value.Within]
  | .array a, place, v, h => by
    rw [value, map_eq_ok_iff] at h
    obtain ⟨xs, hxs, rfl⟩ := h
    simpa only [Value.Within] using length_array hxs
  | .tuple members, place, v, h => by
    rw [value, map_eq_ok_iff] at h
    obtain ⟨vs, hvs, rfl⟩ := h
    simpa only [Value.Within] using within_sequence hvs

theorem within_sequence {data : Bytes} : ∀ {ts : List Ty} {start slot : Nat} {vs : List Value},
    sequence data ts start slot = .ok vs → Value.WithinAll (data.length / 32) vs
  | [], _, _, vs, h => by
    simp only [sequence, Except.ok.injEq] at h
    subst h
    simp only [Value.WithinAll]
  | t :: ts, start, slot, vs, h => by
    obtain ⟨here, v, rest, -, hv, hrest, rfl⟩ := sequence_cons_eq_ok_iff.mp h
    simp only [Value.WithinAll]
    exact ⟨within_value hv, within_sequence hrest⟩

end

end Reading

theorem withinAll_of_decode {schema : List Ty} {data : Bytes} {vs : List Value}
    (h : decode schema data = .ok vs) : Value.WithinAll (data.length / 32) vs := by
  unfold decode at h
  split at h
  · cases h
  · exact Reading.within_sequence h

end StakedChain.Abi
