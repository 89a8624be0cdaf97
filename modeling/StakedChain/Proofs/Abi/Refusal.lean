import StakedChain.Proofs.Abi.Conformance

namespace StakedChain.Abi

structure Misfit (schema : List Ty) (vs : List Value) (index : Nat) (t : Ty) (v : Value) :
    Prop where
  expected : schema[index]? = some t
  found : vs[index]? = some v
  refused : v.conforms t = false
  least : ∀ j u w, j < index → schema[j]? = some u → vs[j]? = some w → w.conforms u = true

variable {t u : Ty} {v w : Value} {ts : List Ty} {vs : List Value}

theorem misfit_nil {i : Nat} : ¬ Misfit [] vs i t v :=
  fun h => by simpa using h.expected

theorem misfit_cons_of_not_conforms {i : Nat} (h : v.conforms t = false) :
    Misfit (t :: ts) (v :: vs) i u w ↔ i = 0 ∧ u = t ∧ w = v := by
  constructor
  · intro hm
    cases i with
    | zero => exact ⟨rfl, (Option.some.inj hm.expected).symm, (Option.some.inj hm.found).symm⟩
    | succ i =>
      have hc := hm.least 0 t v (Nat.succ_pos i) rfl rfl
      rw [h] at hc
      cases hc
  · rintro ⟨rfl, rfl, rfl⟩
    exact ⟨rfl, rfl, h, fun j _ _ hj => absurd hj (Nat.not_lt_zero j)⟩

theorem misfit_cons_of_conforms {i : Nat} (h : v.conforms t = true) :
    Misfit (t :: ts) (v :: vs) i u w ↔ ∃ j, i = j + 1 ∧ Misfit ts vs j u w := by
  constructor
  · intro hm
    cases i with
    | zero =>
      have ht : t = u := Option.some.inj hm.expected
      have hv : v = w := Option.some.inj hm.found
      have hr := hm.refused
      rw [← ht, ← hv, h] at hr
      cases hr
    | succ i =>
      refine ⟨i, rfl, hm.expected, hm.found, hm.refused, fun j u w hj => ?_⟩
      exact hm.least (j + 1) u w (Nat.succ_lt_succ hj)
  · rintro ⟨j, rfl, hm⟩
    refine ⟨hm.expected, hm.found, hm.refused, fun k u w hk hu hw => ?_⟩
    cases k with
    | zero =>
      have ht : t = u := Option.some.inj hu
      have hv : v = w := Option.some.inj hw
      rw [← ht, ← hv, h]
    | succ k => exact hm.least k u w (Nat.lt_of_succ_lt_succ hk) hu hw

theorem conformsAll_iff : ∀ {vs : List Value} {ts : List Ty}, Value.conformsAll vs ts = true ↔
    ts.length = vs.length ∧
      ∀ (i : Nat) (t : Ty) (v : Value), ts[i]? = some t → vs[i]? = some v → v.conforms t = true
  | [], [] => by simp [Value.conformsAll]
  | [], _ :: _ | _ :: _, [] => by simp [Value.conformsAll]
  | v :: vs, t :: ts => by
    rw [Value.conformsAll, Bool.and_eq_true, conformsAll_iff, List.length_cons, List.length_cons,
      Nat.add_right_cancel_iff]
    constructor
    · rintro ⟨hc, hl, hall⟩
      refine ⟨hl, fun i u w hu hw => ?_⟩
      cases i with
      | zero => rwa [← Option.some.inj hu, ← Option.some.inj hw]
      | succ i => exact hall i u w hu hw
    · rintro ⟨hl, hall⟩
      exact ⟨hall 0 t v rfl rfl, hl, fun i => hall (i + 1)⟩

namespace Writing

-- `index` is where the sequence is entered; members before it have been written.
theorem members_eq_error_iff {head index : Nat} {out tail : Bytes} {e : EncodeError}
    (hl : ts.length = vs.length) : members head index ts vs out tail = .error e ↔
      ∃ i t v, Misfit ts vs i t v ∧ e = .mismatch (index + i) t v.name := by
  induction ts generalizing vs index out tail with
  | nil =>
    rw [List.length_nil, eq_comm, List.length_eq_zero_iff] at hl
    subst hl
    simp [members, misfit_nil]
  | cons t ts ih =>
    cases vs with
    | nil => cases hl
    | cons v vs =>
      rw [List.length_cons, List.length_cons, Nat.add_right_cancel_iff] at hl
      cases hc : v.conforms t with
      | true =>
        obtain ⟨out', tail', hrest⟩ := members_cons_of_conforms hc
        rw [hrest, ih hl]
        constructor
        · rintro ⟨i, u, w, hm, rfl⟩
          exact ⟨i + 1, u, w, (misfit_cons_of_conforms hc).mpr ⟨i, rfl, hm⟩,
            by rw [Nat.add_right_comm, Nat.add_assoc]⟩
        · rintro ⟨i, u, w, hm, rfl⟩
          obtain ⟨j, rfl, hj⟩ := (misfit_cons_of_conforms hc).mp hm
          exact ⟨j, u, w, hj, by rw [Nat.add_right_comm, Nat.add_assoc]⟩
      | false =>
        rw [members_cons_of_not_conforms hc, Except.error.injEq]
        constructor
        · rintro rfl
          exact ⟨0, t, v, (misfit_cons_of_not_conforms hc).mpr ⟨rfl, rfl, rfl⟩, rfl⟩
        · rintro ⟨i, u, w, hm, rfl⟩
          obtain ⟨rfl, rfl, rfl⟩ := (misfit_cons_of_not_conforms hc).mp hm
          rfl

end Writing

variable {schema : List Ty}

theorem exists_encode_iff : (∃ e, encode schema vs = .ok e) ↔ schema.length = vs.length ∧
    ∀ (i : Nat) (t : Ty) (v : Value),
      schema[i]? = some t → vs[i]? = some v → v.conforms t = true := by
  rw [← conformsAll_iff]
  constructor
  · rintro ⟨e, he⟩
    exact (encode_eq_ok_iff.mp he).1
  · exact fun hc => ⟨_, encode_eq_ok_iff.mpr ⟨hc, rfl⟩⟩

theorem encode_eq_count_iff {expected found : Nat} :
    encode schema vs = .error (.count expected found) ↔
      schema.length ≠ vs.length ∧ expected = schema.length ∧ found = vs.length := by
  by_cases hl : schema.length = vs.length
  · rw [encode, Writing.counted_of_length hl, Writing.members_eq_error_iff hl]
    constructor
    · rintro ⟨i, t, v, -, h⟩
      cases h
    · exact fun h => absurd hl h.1
  · simp [encode, Writing.counted, hl, eq_comm]

theorem encode_eq_mismatch_iff {index : Nat} {found : String} :
    encode schema vs = .error (.mismatch index t found) ↔
      schema.length = vs.length ∧ ∃ v, Misfit schema vs index t v ∧ found = v.name := by
  by_cases hl : schema.length = vs.length
  · rw [encode, Writing.counted_of_length hl, Writing.members_eq_error_iff hl]
    constructor
    · rintro ⟨i, u, v, hm, h⟩
      rw [Nat.zero_add] at h
      cases h
      exact ⟨hl, v, hm, rfl⟩
    · rintro ⟨-, v, hm, rfl⟩
      exact ⟨index, t, v, hm, by rw [Nat.zero_add]⟩
  · simp [encode, Writing.counted, hl]

theorem encodeCall_eq_error_iff {selector : Octets 4} {e : EncodeError} :
    encodeCall selector schema vs = .error e ↔ encode schema vs = .error e := by
  unfold encodeCall
  cases encode schema vs <;> simp [Except.map]

-- The second part is about the writer at any depth: an error never names another value than the one
-- that was to be written, so none of those that a nested sequence could raise gets out.
theorem encode_blames_first_misfit :
    (∀ (schema : List Ty) (vs : List Value),
      ((∃ e, encode schema vs = .ok e) ↔ schema.length = vs.length ∧
        ∀ (i : Nat) (t : Ty) (v : Value),
          schema[i]? = some t → vs[i]? = some v → v.conforms t = true) ∧
      (∀ expected found, encode schema vs = .error (.count expected found) ↔
        schema.length ≠ vs.length ∧ expected = schema.length ∧ found = vs.length) ∧
      ∀ index t found, encode schema vs = .error (.mismatch index t found) ↔
        schema.length = vs.length ∧ ∃ v, Misfit schema vs index t v ∧ found = v.name) ∧
    (∀ (index : Nat) (t : Ty) (v : Value) (out : Bytes) (e : EncodeError),
      Writing.value index t v out = .error e ↔
        v.conforms t = false ∧ e = .mismatch index t v.name) ∧
    ∀ (selector : Octets 4) (schema : List Ty) (vs : List Value) (e : EncodeError),
      encodeCall selector schema vs = .error e ↔ encode schema vs = .error e := by
  refine ⟨fun schema vs => ⟨exists_encode_iff, ?_, ?_⟩, ?_, ?_⟩
  · exact fun expected found => encode_eq_count_iff
  · exact fun index t found => encode_eq_mismatch_iff
  · exact fun index t v out e => Writing.value_eq_error_iff
  · exact fun selector schema vs e => encodeCall_eq_error_iff

example : encode [.atom .bool, .tuple [.tuple [.atom .uint, .atom .uint]]]
    [.bool true, .tuple [.tuple [.uint 0]]] =
      .error (.mismatch 1 (.tuple [.tuple [.atom .uint, .atom .uint]]) "tuple") := rfl

end StakedChain.Abi
