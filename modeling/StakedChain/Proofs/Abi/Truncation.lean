import StakedChain.Proofs.Abi.Acceptance

namespace StakedChain.Abi

namespace Reading

section

variable {data longer : Bytes} {place : Nat} (hp : data <+: longer)
include hp

theorem word_mono {w : Octets 32} (h : word data place = .ok w) :
    word longer place = .ok w := by
  obtain ⟨hb, hw⟩ := word_eq_ok_iff.mp h
  exact word_of_lies (hw.mono hp) hb

theorem atom_mono {a : Atom} {x : a.Carrier} (h : atom a data place = .ok x) :
    atom a longer place = .ok x := by
  obtain ⟨w, hw, hx⟩ := atom_eq_ok_iff.mp h
  exact atom_eq_ok_iff.mpr ⟨w, word_mono hp hw, hx⟩

theorem number_mono {invalid : Nat → DecodeError} {n : Nat}
    (h : number data place invalid = .ok n) : number longer place invalid = .ok n := by
  obtain ⟨w, hw, hn⟩ := number_eq_ok_iff.mp h
  exact number_eq_ok_iff.mpr ⟨w, word_mono hp hw, hn⟩

theorem items_mono {a : Atom} {n : Nat} {xs : List a.Carrier}
    (h : items a data n place = .ok xs) : items a longer n place = .ok xs := by
  induction n generalizing place xs with
  | zero => exact h
  | succ n ih =>
    obtain ⟨x, rest, hx, hrest, rfl⟩ := items_succ_eq_ok_iff.mp h
    exact items_succ_eq_ok_iff.mpr ⟨x, rest, atom_mono hp hx, ih hrest, rfl⟩

theorem array_mono {a : Atom} {xs : List a.Carrier} (h : array a data place = .ok xs) :
    array a longer place = .ok xs := by
  obtain ⟨n, hn, hroom, hxs⟩ := array_eq_ok_iff.mp h
  have hl := hp.length_le
  exact array_eq_ok_iff.mpr ⟨n, number_mono hp hn, by omega, items_mono hp hxs⟩

theorem destination_mono {start here : Nat} (h : destination data start place = .ok here) :
    destination longer start place = .ok here := by
  obtain ⟨offset, ho, hhere⟩ := destination_eq_ok_iff.mp h
  exact destination_eq_ok_iff.mpr ⟨offset, number_mono hp ho, hhere⟩

theorem Located.mono {t : Ty} {start slot here : Nat} (h : Located data t start slot here) :
    Located longer t start slot here :=
  h.imp_left fun ⟨hd, hhere⟩ => ⟨hd, destination_mono hp hhere⟩

mutual

theorem value_mono : ∀ {t : Ty} {place : Nat} {v : Value},
    value data t place = .ok v → value longer t place = .ok v
  | .atom a, place, v, h => by
    rw [value, map_eq_ok_iff] at h ⊢
    obtain ⟨x, hx, rfl⟩ := h
    exact ⟨x, atom_mono hp hx, rfl⟩
  | .array a, place, v, h => by
    rw [value, map_eq_ok_iff] at h ⊢
    obtain ⟨xs, hxs, rfl⟩ := h
    exact ⟨xs, array_mono hp hxs, rfl⟩
  | .tuple members, place, v, h => by
    rw [value, map_eq_ok_iff] at h ⊢
    obtain ⟨items, hitems, rfl⟩ := h
    exact ⟨items, sequence_mono hitems, rfl⟩

theorem sequence_mono : ∀ {ts : List Ty} {start slot : Nat} {vs : List Value},
    sequence data ts start slot = .ok vs → sequence longer ts start slot = .ok vs
  | [], _, _, _, h => by simpa only [sequence] using h
  | t :: ts, start, slot, vs, h => by
    obtain ⟨here, v, rest, hloc, hv, hrest, rfl⟩ := sequence_cons_eq_ok_iff.mp h
    exact sequence_cons_eq_ok_iff.mpr
      ⟨here, v, rest, hloc.mono hp, value_mono hv, sequence_mono hrest, rfl⟩

end

end

variable {data short : Bytes} {place : Nat}

theorem covered_array (hp : short <+: data) {a : Atom} {xs ys : List a.Carrier}
    (h : Lies data place
      (Bytes.ofNat 32 xs.length ++ xs.flatMap fun x => (a.toWord x).bytes))
    (hb : place + (32 + 32 * xs.length) < limit) (hr : array a short place = .ok ys) :
    Covered short place (32 + 32 * xs.length) := by
  obtain ⟨n, hn, hroom, -⟩ := array_eq_ok_iff.mp hr
  have hend := end_le_of_number hn
  have hlen := number_of_lies .invalidLength (lies_append.mp h).1 (by omega) (by omega)
  obtain rfl : n = xs.length :=
    Except.ok.inj ((number_mono hp hn).symm.trans hlen)
  right
  omega

theorem covered_sequence {ts : List Ty} {vs ws : List Value} {place : Nat}
    (hc : Value.conformsAll vs ts = true) (h : Lies data place (Layout.sequence ts vs))
    (hb : place + (Layout.sequence ts vs).length < limit)
    (hr : sequence short ts place place = .ok ws)
    (tails : Lies data place (Part.heads (Ty.headSizes ts) (Layout.parts ts vs)) →
      Lies data (place + Ty.headSizes ts) (Part.tails (Layout.parts ts vs)) →
      place + Part.headSizes (Layout.parts ts vs) < limit →
      place + Ty.headSizes ts + (Part.tails (Layout.parts ts vs)).length < limit →
        Covered short (place + Ty.headSizes ts) (Part.tails (Layout.parts ts vs)).length) :
    Covered short place (Layout.sequence ts vs).length := by
  rw [Layout.length_sequence hc] at hb ⊢
  rw [Layout.sequence, lies_append, Part.length_heads, Layout.headSizes_parts hc] at h
  rw [Layout.headSizes_parts hc] at tails
  exact (covered_heads hr).append (tails h.1 h.2 (by omega) (by omega))

mutual

-- What the encoding of a value takes up is what a reading from a shorter buffer has to see.
theorem covered_value (hp : short <+: data) :
    ∀ {t : Ty} {v w : Value} {place : Nat}, v.conforms t = true →
      Lies data place (Layout.value t v) → place + (Layout.value t v).length < limit →
      value short t place = .ok w → Covered short place (Layout.value t v).length
  | .atom a, .atom b x, w, place, hc, h, hb, hr => by
    rw [Layout.length_value_of_static hc rfl]
    exact covered_of_static rfl hr
  | .array a, .array b xs, w, place, hc, h, hb, hr => by
    obtain rfl : b = a := by simpa [Value.conforms] using hc
    rw [value, map_eq_ok_iff] at hr
    obtain ⟨ys, hys, -⟩ := hr
    simp only [Layout.value, List.length_append, Bytes.length_ofNat,
      b.length_flatMap_toWord] at h hb ⊢
    exact covered_array hp h hb hys
  | .tuple members, .tuple items, w, place, hc, h, hb, hr => by
    simp only [Value.conforms] at hc
    rw [value, map_eq_ok_iff] at hr
    obtain ⟨ws, hws, -⟩ := hr
    rw [Layout.value_tuple] at h hb ⊢
    exact covered_sequence hc h hb hws fun hh ht hs hf => covered_tails hp hc hh ht hs hf hws
  | .atom _, .array _ _, _, _, hc, _, _, _ | .atom _, .tuple _, _, _, hc, _, _, _
  | .array _, .atom _ _, _, _, hc, _, _, _ | .array _, .tuple _, _, _, hc, _, _, _
  | .tuple _, .atom _ _, _, _, hc, _, _, _ | .tuple _, .array _ _, _, _, hc, _, _, _ => by
    simp [Value.conforms] at hc
termination_by structural t => t

theorem covered_tails (hp : short <+: data) :
    ∀ {ts : List Ty} {vs ws : List Value} {start slot free : Nat},
      Value.conformsAll vs ts = true →
      Lies data slot (Part.heads free (Layout.parts ts vs)) →
      Lies data (start + free) (Part.tails (Layout.parts ts vs)) →
      slot + Part.headSizes (Layout.parts ts vs) < limit →
      start + free + (Part.tails (Layout.parts ts vs)).length < limit →
      sequence short ts start slot = .ok ws →
        Covered short (start + free) (Part.tails (Layout.parts ts vs)).length
  | [], [], _, _, _, _, _, _, _, _, _, _ => .inl rfl
  | [], _ :: _, _, _, _, _, hc, _, _, _, _, _ | _ :: _, [], _, _, _, _, hc, _, _, _, _, _ => by
    simp [Value.conformsAll] at hc
  | t :: ts, v :: vs, ws, start, slot, free, hc, hh, ht, hs, hf, hr => by
    simp only [Value.conformsAll, Bool.and_eq_true] at hc
    simp only [Layout.parts, Part.heads, Part.tails, Part.headSizes] at hh ht hs hf ⊢
    obtain ⟨here, w, rest, hloc, hw, hrest, rfl⟩ := sequence_cons_eq_ok_iff.mp hr
    rcases hloc with ⟨hd, hdest⟩ | ⟨hd, rfl⟩
    · simp only [hd, if_true, lies_append, Bytes.length_ofNat, List.length_append] at hh ht hs hf ⊢
      have hfree : destination data start slot = .ok (start + free) :=
        destination_of_lies hh.1 (by omega) (by omega)
      obtain rfl : here = start + free :=
        Except.ok.inj ((destination_mono hp hdest).symm.trans hfree)
      have hv := covered_value hp hc.1 ht.1 (by omega) hw
      rw [Ty.headSize_of_isDynamic hd] at hrest
      rw [Nat.add_assoc] at ht
      have tails := covered_tails hp hc.2 hh.2 ht.2 (by omega) (by omega) hrest
      rw [← Nat.add_assoc] at tails
      exact hv.append tails
    · simp only [hd, Bool.false_eq_true, if_false, lies_append,
        Layout.length_value_of_static hc.1 hd] at hh ht hs hf ⊢
      exact covered_tails hp hc.2 hh.2 ht (by omega) hf hrest
termination_by structural ts => ts

end

theorem covered_layout (hp : short <+: data) {ts : List Ty} {vs ws : List Value} {place : Nat}
    (hc : Value.conformsAll vs ts = true) (h : Lies data place (Layout.sequence ts vs))
    (hb : place + (Layout.sequence ts vs).length < limit)
    (hr : sequence short ts place place = .ok ws) :
    Covered short place (Layout.sequence ts vs).length :=
  covered_sequence hc h hb hr fun hh ht hs hf => covered_tails hp hc hh ht hs hf hr

end Reading

theorem decode_eq_ok_iff {schema : List Ty} {data : Bytes} {vs : List Value} :
    decode schema data = .ok vs ↔
      (data ≠ [] ∨ schema = []) ∧ Reading.sequence data schema 0 0 = .ok vs := by
  unfold decode
  split
  · rename_i h
    simp [h.1, h.2]
  · rename_i h
    have : data ≠ [] ∨ schema = [] := by
      by_cases hd : data = []
      · exact .inr (Decidable.not_not.mp fun hs => h ⟨hd, hs⟩)
      · exact .inl hd
    simp [this]

theorem decode_append {schema : List Ty} {data : Bytes} {vs : List Value}
    (h : decode schema data = .ok vs) (more : Bytes) : decode schema (data ++ more) = .ok vs := by
  obtain ⟨hne, hvs⟩ := decode_eq_ok_iff.mp h
  refine decode_eq_ok_iff.mpr ⟨hne.imp_left fun hd => ?_, ?_⟩
  · exact List.append_ne_nil_of_left_ne_nil hd more
  · exact Reading.sequence_mono (List.prefix_append data more) hvs

theorem eq_of_decode_short {schema : List Ty} {vs ws : List Value} {short : Bytes}
    (hc : Value.conformsAll vs schema = true)
    (hl : (Layout.sequence schema vs).length < Bytes.bufferLimit)
    (hp : short <+: Layout.sequence schema vs) (h : decode schema short = .ok ws) :
    short = Layout.sequence schema vs := by
  have hlies : Lies (Layout.sequence schema vs) 0 (Layout.sequence schema vs) :=
    List.prefix_rfl
  have hfit : 0 + (Layout.sequence schema vs).length < Reading.limit := by
    have : Bytes.bufferLimit < Reading.limit := by decide
    omega
  have hcovered := Reading.covered_layout hp hc hlies hfit (decode_eq_ok_iff.mp h).2
  apply hp.eq_of_length_le
  rcases hcovered with hnil | hle
  · omega
  · omega

theorem truncations_refused_and_suffixes_ignored :
    (∀ (schema : List Ty) (vs : List Value) (e : Bytes),
      encode schema vs = .ok e → e.length < Bytes.bufferLimit →
        ∀ short : Bytes, short <+: e → short ≠ e → ∃ err, decode schema short = .error err) ∧
    ∀ (schema : List Ty) (data : Bytes) (vs : List Value), decode schema data = .ok vs →
      ∀ more : Bytes, decode schema (data ++ more) = .ok vs := by
  refine ⟨?_, fun schema data vs h more => decode_append h more⟩
  intro schema vs e he hl short hp hne
  obtain ⟨hc, rfl⟩ := encode_eq_ok_iff.mp he
  cases h : decode schema short with
  | error err => exact ⟨err, rfl⟩
  | ok ws => exact absurd (eq_of_decode_short hc hl hp h) hne

def gapped : Bytes :=
  Bytes.ofNat 32 64 ++ List.replicate 32 9 ++ Layout.value (.array .bool) (.array .bool [true])

theorem empty_array_truncated_and_gap_kept :
    (∃ e : Bytes, encode [.atom .uint, .tuple [.array .bool, .tuple []]]
        [.uint 9, .tuple [.array .bool [], .tuple []]] = .ok e ∧ e.length = 128 ∧
      ∃ err, decode [.atom .uint, .tuple [.array .bool, .tuple []]] (e.take 127) = .error err) ∧
    decode [.array .bool] gapped = .ok [.array .bool [true]] ∧
    decode [.array .bool] (gapped ++ [5]) = .ok [.array .bool [true]] := by
  have hdecode : decode [.array .bool] gapped = .ok [.array .bool [true]] := by
    refine decode_eq_ok_iff.mpr ⟨.inl (by decide +kernel), ?_⟩
    refine Reading.sequence_cons_eq_ok_iff.mpr ⟨0 + 64, _, [], .inl ⟨rfl, ?_⟩, ?_, ?_, rfl⟩
    · exact Reading.destination_of_lies (by unfold Lies; decide +kernel) (by decide) (by decide)
    · exact Reading.value_of_lies rfl (by unfold Lies; decide +kernel) (by decide +kernel)
    · rw [Reading.sequence]
  refine ⟨⟨_, rfl, rfl, ?_⟩, hdecode, ?_⟩
  · exact truncations_refused_and_suffixes_ignored.1 _
      [.uint 9, .tuple [.array .bool [], .tuple []]] _ rfl (by decide +kernel) _
      (List.take_prefix 127 _) (fun h => absurd (congrArg List.length h) (by decide +kernel))
  · exact truncations_refused_and_suffixes_ignored.2 _ _ _ hdecode [5]

end StakedChain.Abi
