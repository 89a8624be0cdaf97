import StakedChain.Abi.Layout
import StakedChain.Abi.Method

namespace StakedChain

theorem map_eq_ok_iff {ε α β : Type} {f : α → β} {x : Except ε α} {b : β} :
    x.map f = .ok b ↔ ∃ a, x = .ok a ∧ f a = b := by
  cases x <;> simp [Except.map]

theorem map_eq_error_iff {ε α β : Type} {f : α → β} {x : Except ε α} {e : ε} :
    x.map f = .error e ↔ x = .error e := by
  cases x <;> simp [Except.map]

theorem mapError_eq_ok_iff {ε δ α : Type} {f : ε → δ} {x : Except ε α} {a : α} :
    x.mapError f = .ok a ↔ x = .ok a := by
  cases x with
  | ok y => exact ⟨fun h => congrArg _ (Except.ok.inj h), fun h => congrArg _ (Except.ok.inj h)⟩
  | error e => exact ⟨nofun, nofun⟩

namespace Abi

namespace Writing

variable {t : Ty} {v : Value} {ts : List Ty} {vs : List Value} {index head : Nat}
  {out tail : Bytes}

theorem counted_of_length (h : ts.length = vs.length) (written : Except EncodeError Bytes) :
    counted ts vs written = written :=
  if_pos h

-- A tuple is looked through before any of its members is written: this needs no induction.
theorem value_of_not_conforms (h : v.conforms t = false) :
    value index t v out = .error (.mismatch index t v.name) := by
  unfold value
  split
  · refine if_neg fun hab => ?_
    simp [Value.conforms, hab] at h
  · refine if_neg fun hab => ?_
    simp [Value.conforms, hab] at h
  · exact if_neg (Bool.eq_false_iff.mp h)
  · rfl

mutual

theorem value_of_conforms : ∀ {t : Ty} {v : Value} (index : Nat) (out : Bytes),
    v.conforms t = true → value index t v out = .ok (out ++ Layout.value t v)
  | .atom a, .atom b x, index, out, hc => by
    obtain rfl : b = a := by simpa [Value.conforms] using hc
    rw [value, if_pos rfl, Layout.value]
  | .array a, .array b xs, index, out, hc => by
    obtain rfl : b = a := by simpa [Value.conforms] using hc
    rw [value, if_pos rfl, Layout.value]
  | .tuple ts, .tuple vs, index, out, hc => by
    have hall : Value.conformsAll vs ts = true := by simpa only [Value.conforms] using hc
    have hl := (Value.length_eq_of_conformsAll hall).symm
    rw [value, if_pos hc, counted_of_length hl, members_of_conformsAll _ 0 out [] hall,
      Layout.value_tuple, Layout.sequence, List.append_assoc]
    rfl
  | .atom _, .array _ _, _, _, hc | .atom _, .tuple _, _, _, hc
  | .array _, .atom _ _, _, _, hc | .array _, .tuple _, _, _, hc
  | .tuple _, .atom _ _, _, _, hc | .tuple _, .array _ _, _, _, hc => by
    simp [Value.conforms] at hc
termination_by structural t => t

-- The place of the next dynamic member is where the tail that is written so far will end.
theorem members_of_conformsAll : ∀ {ts : List Ty} {vs : List Value} (head index : Nat)
    (out tail : Bytes), Value.conformsAll vs ts = true →
      members head index ts vs out tail =
        .ok (out ++ Part.heads (head + tail.length) (Layout.parts ts vs)
          ++ (tail ++ Part.tails (Layout.parts ts vs)))
  | [], [], head, index, out, tail, _ => by
    simp [members, Layout.parts, Part.heads, Part.tails]
  | [], _ :: _, _, _, _, _, hc | _ :: _, [], _, _, _, _, hc => by simp [Value.conformsAll] at hc
  | t :: ts, v :: vs, head, index, out, tail, hc => by
    simp only [Value.conformsAll, Bool.and_eq_true] at hc
    cases hd : t.isDynamic with
    | true =>
      simp only [members, hd, if_true, value_of_conforms index tail hc.1,
        members_of_conformsAll head (index + 1) _ _ hc.2, Layout.parts, Part.heads, Part.tails,
        List.length_append, List.append_assoc, Nat.add_assoc]
    | false =>
      simp only [members, hd, Bool.false_eq_true, if_false, value_of_conforms index out hc.1,
        members_of_conformsAll head (index + 1) _ _ hc.2, Layout.parts, Part.heads, Part.tails,
        List.append_assoc]
termination_by structural ts => ts

end

theorem value_eq_error_iff {e : EncodeError} :
    value index t v out = .error e ↔ v.conforms t = false ∧ e = .mismatch index t v.name := by
  cases hc : v.conforms t with
  | true => simp [value_of_conforms index out hc]
  | false => simp [value_of_not_conforms hc, eq_comm]

theorem members_cons_of_not_conforms (h : v.conforms t = false) :
    members head index (t :: ts) (v :: vs) out tail = .error (.mismatch index t v.name) := by
  simp only [members, value_of_not_conforms h, ite_self]

theorem members_cons_of_conforms (h : v.conforms t = true) : ∃ out' tail',
    members head index (t :: ts) (v :: vs) out tail =
      members head (index + 1) ts vs out' tail' := by
  cases hd : t.isDynamic with
  | true =>
    simp only [members, hd, if_true, value_of_conforms index tail h]
    exact ⟨_, _, rfl⟩
  | false =>
    simp only [members, hd, Bool.false_eq_true, if_false, value_of_conforms index out h]
    exact ⟨_, _, rfl⟩

theorem conformsAll_of_members {e : Bytes} (hl : ts.length = vs.length)
    (h : members head index ts vs out tail = .ok e) : Value.conformsAll vs ts = true := by
  induction ts generalizing vs index out tail with
  | nil =>
    rw [List.length_nil, eq_comm, List.length_eq_zero_iff] at hl
    subst hl
    rfl
  | cons t ts ih =>
    cases vs with
    | nil => cases hl
    | cons v vs =>
      rw [List.length_cons, List.length_cons, Nat.add_right_cancel_iff] at hl
      cases hc : v.conforms t with
      | true =>
        obtain ⟨out', tail', hrest⟩ := members_cons_of_conforms hc
        rw [hrest] at h
        simp only [Value.conformsAll, hc, ih hl h, Bool.and_self]
      | false =>
        rw [members_cons_of_not_conforms hc] at h
        cases h

end Writing

theorem encode_eq_ok_iff {schema : List Ty} {vs : List Value} {e : Bytes} :
    encode schema vs = .ok e ↔
      Value.conformsAll vs schema = true ∧ Layout.sequence schema vs = e := by
  by_cases hl : schema.length = vs.length
  · rw [encode, Writing.counted_of_length hl]
    constructor
    · intro h
      have hc := Writing.conformsAll_of_members hl h
      rw [Writing.members_of_conformsAll _ 0 [] [] hc] at h
      exact ⟨hc, Except.ok.inj h⟩
    · rintro ⟨hc, rfl⟩
      exact Writing.members_of_conformsAll _ 0 [] [] hc
  · have hc : Value.conformsAll vs schema ≠ true := fun h =>
      hl (Value.length_eq_of_conformsAll h).symm
    simp [encode, Writing.counted, hl, hc]

theorem Method.encodeCall_eq_ok_iff {m : Method} {args : List Value} {data : Bytes} :
    m.encodeCall args = .ok data ↔ Value.conformsAll args m.inputs = true ∧
      m.selector.bytes ++ Layout.sequence m.inputs args = data := by
  simp only [Method.encodeCall, Abi.encodeCall, map_eq_ok_iff, encode_eq_ok_iff]
  constructor
  · rintro ⟨e, ⟨hc, rfl⟩, h⟩
    exact ⟨hc, h⟩
  · rintro ⟨hc, h⟩
    exact ⟨_, ⟨hc, rfl⟩, h⟩

namespace Reading

mutual

theorem conforms_of_value {data : Bytes} :
    ∀ {t : Ty} {place : Nat} {v : Value}, value data t place = .ok v → v.conforms t = true
  | .atom a, place, v, h => by
    rw [value, map_eq_ok_iff] at h
    obtain ⟨x, -, rfl⟩ := h
    simp [Value.conforms]
  | .array a, place, v, h => by
    rw [value, map_eq_ok_iff] at h
    obtain ⟨xs, -, rfl⟩ := h
    simp [Value.conforms]
  | .tuple members, place, v, h => by
    rw [value, map_eq_ok_iff] at h
    obtain ⟨items, hi, rfl⟩ := h
    simpa [Value.conforms] using conformsAll_of_sequence hi

theorem conformsAll_of_sequence {data : Bytes} :
    ∀ {ts : List Ty} {start place : Nat} {vs : List Value},
      sequence data ts start place = .ok vs → Value.conformsAll vs ts = true
  | [], _, _, vs, h => by
    simp only [sequence, Except.ok.injEq] at h
    subst h
    rfl
  | t :: ts, start, place, vs, h => by
    simp only [sequence] at h
    split at h
    · split at h
      · rename_i v hv
        rw [map_eq_ok_iff] at h
        obtain ⟨rest, hr, rfl⟩ := h
        simp [Value.conformsAll, conforms_of_value hv, conformsAll_of_sequence hr]
      · cases h
    · cases h

end

end Reading

theorem conformsAll_of_decode {schema : List Ty} {data : Bytes} {vs : List Value}
    (h : decode schema data = .ok vs) : Value.conformsAll vs schema = true := by
  unfold decode at h
  split at h
  · cases h
  · exact Reading.conformsAll_of_sequence h

end Abi

end StakedChain
