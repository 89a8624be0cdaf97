import StakedChain.Proofs.Abi.RoundTrip

namespace StakedChain.Abi

variable {data longer : Bytes} {place : Nat}

theorem Lies.mono {bs : Bytes} (h : Lies data place bs) (hp : data <+: longer) :
    Lies longer place bs := by
  obtain ⟨more, rfl⟩ := hp
  rw [Lies, List.drop_append]
  exact h.trans (List.prefix_append _ _)

namespace Reading

theorem word_eq_ok_iff {w : Octets 32} :
    word data place = .ok w ↔ place + 32 < limit ∧ Lies data place w.bytes := by
  constructor
  · intro h
    unfold word at h
    split at h
    · rename_i hb
      split at h
      · rename_i w' hw
        cases h
        rw [Lies, Octets.bytes_of_ofBytes? hw]
        exact ⟨hb, List.take_prefix _ _⟩
      · cases h
    · cases h
  · rintro ⟨hb, h⟩
    exact word_of_lies h hb

theorem atom_eq_ok_iff {a : Atom} {x : a.Carrier} :
    atom a data place = .ok x ↔ ∃ w, word data place = .ok w ∧ a.ofWord? w = some x := by
  unfold atom
  cases word data place with
  | error e => simp
  | ok w => cases hx : a.ofWord? w <;> simp [hx]

theorem number_eq_ok_iff {invalid : Nat → DecodeError} {n : Nat} :
    number data place invalid = .ok n ↔
      ∃ w, word data place = .ok w ∧ w.value < limit ∧ w.value = n := by
  unfold number
  cases word data place with
  | error e => simp
  | ok w => by_cases hw : w.value < limit <;> simp [hw]

theorem items_succ_eq_ok_iff {a : Atom} {n : Nat} {xs : List a.Carrier} :
    items a data (n + 1) place = .ok xs ↔
      ∃ x rest, atom a data place = .ok x ∧ items a data n (place + 32) = .ok rest ∧
        x :: rest = xs := by
  simp only [items]
  cases atom a data place with
  | error e => simp
  | ok x => simp [map_eq_ok_iff]

theorem array_eq_ok_iff {a : Atom} {xs : List a.Carrier} :
    array a data place = .ok xs ↔ ∃ n, number data place .invalidLength = .ok n ∧
      n ≤ (data.length - (place + 32)) / 32 ∧ items a data n (place + 32) = .ok xs := by
  unfold array
  cases number data place .invalidLength with
  | error e => simp
  | ok n => by_cases hn : n ≤ (data.length - (place + 32)) / 32 <;> simp [hn]

theorem destination_eq_ok_iff {start here : Nat} :
    destination data start place = .ok here ↔ ∃ offset,
      number data place .invalidOffset = .ok offset ∧ start + offset < limit ∧
        start + offset = here := by
  unfold destination
  cases number data place .invalidOffset with
  | error e => simp
  | ok offset => by_cases ho : start + offset < limit <;> simp [ho]

-- Where the value of a member is: behind the head if its type is dynamic, else in its slot.
def Located (data : Bytes) (t : Ty) (start slot here : Nat) : Prop :=
  (t.isDynamic = true ∧ destination data start slot = .ok here) ∨
    (t.isDynamic = false ∧ slot = here)

theorem located_iff {t : Ty} {start slot here : Nat} :
    (if t.isDynamic then destination data start slot else .ok slot) = .ok here ↔
      Located data t start slot here := by
  cases hd : t.isDynamic <;> simp [Located, hd]

theorem sequence_cons_eq_ok_iff {t : Ty} {ts : List Ty} {start slot : Nat} {vs : List Value} :
    sequence data (t :: ts) start slot = .ok vs ↔ ∃ here v rest,
      Located data t start slot here ∧ value data t here = .ok v ∧
        sequence data ts start (slot + t.headSize) = .ok rest ∧ v :: rest = vs := by
  simp only [sequence, ← located_iff]
  cases if t.isDynamic then destination data start slot else .ok slot with
  | error e => simp
  | ok here =>
    cases hv : value data t here with
    | error e => simp [hv]
    | ok v => simp [hv, map_eq_ok_iff]

theorem length_items {a : Atom} {n : Nat} {xs : List a.Carrier}
    (h : items a data n place = .ok xs) : xs.length = n := by
  induction n generalizing place xs with
  | zero => cases h; rfl
  | succ n ih =>
    obtain ⟨x, rest, -, hrest, rfl⟩ := items_succ_eq_ok_iff.mp h
    rw [List.length_cons, ih hrest]

theorem end_le_of_word {w : Octets 32} (h : word data place = .ok w) :
    place + 32 ≤ data.length := by
  have hne : w.bytes ≠ [] := List.ne_nil_of_length_eq_add_one w.length_bytes
  have := (word_eq_ok_iff.mp h).2.end_le hne
  rwa [w.length_bytes] at this

theorem end_le_of_number {invalid : Nat → DecodeError} {n : Nat}
    (h : number data place invalid = .ok n) : place + 32 ≤ data.length := by
  obtain ⟨w, hw, -⟩ := number_eq_ok_iff.mp h
  exact end_le_of_word hw

-- Octets that an accepted reading has gone through; none at all may lie beyond the end.
def Covered (data : Bytes) (place size : Nat) : Prop :=
  size = 0 ∨ place + size ≤ data.length

theorem Covered.append {m n : Nat} (first : Covered data place m)
    (rest : Covered data (place + m) n) : Covered data place (m + n) := by
  unfold Covered at *
  omega

theorem covered_of_destination {t : Ty} {start slot here : Nat}
    (hd : t.isDynamic = true) (h : destination data start slot = .ok here) :
    Covered data slot t.headSize := by
  obtain ⟨offset, ho, -⟩ := destination_eq_ok_iff.mp h
  rw [Ty.headSize_of_isDynamic hd]
  exact .inr (end_le_of_number ho)

mutual

theorem covered_of_static : ∀ {t : Ty} {place : Nat} {v : Value},
    t.isDynamic = false → value data t place = .ok v → Covered data place t.headSize
  | .atom a, place, v, _, h => by
    rw [value, map_eq_ok_iff] at h
    obtain ⟨x, hx, -⟩ := h
    obtain ⟨w, hw, -⟩ := atom_eq_ok_iff.mp hx
    exact .inr (end_le_of_word hw)
  | .array a, place, v, hs, _ => by simp [Ty.isDynamic] at hs
  | .tuple members, place, v, hs, h => by
    rw [value, map_eq_ok_iff] at h
    obtain ⟨items, hitems, -⟩ := h
    simp only [Ty.isDynamic] at hs
    simp only [Ty.headSize, hs, Bool.false_eq_true, if_false]
    exact covered_heads hitems

theorem covered_heads : ∀ {ts : List Ty} {start slot : Nat} {vs : List Value},
    sequence data ts start slot = .ok vs → Covered data slot (Ty.headSizes ts)
  | [], _, _, _, _ => .inl rfl
  | t :: ts, start, slot, vs, h => by
    obtain ⟨here, v, rest, hloc, hv, hrest, rfl⟩ := sequence_cons_eq_ok_iff.mp h
    have head : Covered data slot t.headSize := by
      rcases hloc with ⟨hd, hdest⟩ | ⟨hs, rfl⟩
      · exact covered_of_destination hd hdest
      · exact covered_of_static hs hv
    rw [Ty.headSizes]
    exact head.append (covered_heads hrest)

end

theorem covered_slot {t : Ty} {start slot here : Nat} {v : Value}
    (hloc : Located data t start slot here) (hv : value data t here = .ok v) :
    Covered data slot t.headSize := by
  have alone : sequence data [t] start slot = .ok [v] :=
    sequence_cons_eq_ok_iff.mpr ⟨here, v, [], hloc, hv, by rw [sequence], rfl⟩
  simpa [Ty.headSizes] using covered_heads alone

theorem Located.lt_limit {t : Ty} {start slot here : Nat} (h : Located data t start slot here)
    (hs : slot < limit) : here < limit := by
  rcases h with ⟨-, hdest⟩ | ⟨-, rfl⟩
  · obtain ⟨offset, -, hlt, rfl⟩ := destination_eq_ok_iff.mp hdest
    exact hlt
  · exact hs

end Reading

end StakedChain.Abi
