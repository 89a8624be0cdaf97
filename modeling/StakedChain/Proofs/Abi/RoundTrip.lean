import StakedChain.Proofs.Abi.Extent

namespace StakedChain.Abi

def Lies (data : Bytes) (place : Nat) (bs : Bytes) : Prop :=
  bs <+: data.drop place

variable {data : Bytes} {place : Nat}

theorem lies_append {as bs : Bytes} :
    Lies data place (as ++ bs) ↔ Lies data place as ∧ Lies data (place + as.length) bs := by
  constructor
  · rintro ⟨rest, h⟩
    refine ⟨⟨bs ++ rest, by rw [← h, List.append_assoc]⟩, ⟨rest, ?_⟩⟩
    rw [← List.drop_drop, ← h, List.append_assoc, List.drop_left]
  · rintro ⟨⟨rest, h⟩, hb⟩
    rw [Lies, ← List.drop_drop, ← h, List.drop_left] at hb
    obtain ⟨last, rfl⟩ := hb
    exact ⟨last, by rw [← h, List.append_assoc]⟩

theorem Lies.end_le {bs : Bytes} (h : Lies data place bs) (hne : bs ≠ []) :
    place + bs.length ≤ data.length := by
  have hl := h.length_le
  have hpos := List.length_pos_iff.mpr hne
  rw [List.length_drop] at hl
  omega

namespace Reading

theorem word_of_lies {w : Octets 32} (h : Lies data place w.bytes) (hb : place + 32 < limit) :
    word data place = .ok w := by
  have ht : (data.drop place).take 32 = w.bytes := by
    have := List.prefix_iff_eq_take.mp h
    rw [w.length_bytes] at this
    exact this.symm
  rw [word, if_pos hb, ht, Octets.ofBytes?_bytes]

theorem atom_of_lies {a : Atom} {x : a.Carrier} (h : Lies data place (a.toWord x).bytes)
    (hb : place + 32 < limit) : atom a data place = .ok x := by
  simp only [atom, word_of_lies h hb, Atom.ofWord?_toWord]

theorem number_of_lies (invalid : Nat → DecodeError) {n : Nat}
    (h : Lies data place (Bytes.ofNat 32 n)) (hb : place + 32 < limit) (hn : n < limit) :
    number data place invalid = .ok n := by
  have hw : Lies data place (Octets.ofNat 32 n).bytes := h
  have hv : (Octets.ofNat 32 n).value = n := by
    rw [Octets.value_ofNat]
    exact Nat.mod_eq_of_lt (Nat.lt_trans hn (by decide))
  simp only [number, word_of_lies hw hb, hv, if_pos hn]

theorem items_of_lies {a : Atom} {xs : List a.Carrier}
    (h : Lies data place (xs.flatMap fun x => (a.toWord x).bytes))
    (hb : place + 32 * xs.length < limit) : items a data xs.length place = .ok xs := by
  induction xs generalizing place with
  | nil => rfl
  | cons x xs ih =>
    rw [List.flatMap_cons, lies_append, (a.toWord x).length_bytes] at h
    rw [List.length_cons] at hb
    have hx := atom_of_lies h.1 (by omega)
    have hxs := ih h.2 (by omega)
    simp only [List.length_cons, items, hx, hxs, Except.map]

theorem array_of_lies {a : Atom} {xs : List a.Carrier}
    (h : Lies data place
      (Bytes.ofNat 32 xs.length ++ xs.flatMap fun x => (a.toWord x).bytes))
    (hb : place + (32 + 32 * xs.length) < limit) : array a data place = .ok xs := by
  have hfit := h.end_le (by simp [Bytes.ofNat])
  rw [List.length_append, Bytes.length_ofNat, a.length_flatMap_toWord] at hfit
  rw [lies_append, Bytes.length_ofNat] at h
  have hn := number_of_lies .invalidLength h.1 (by omega) (by omega)
  have hle : xs.length ≤ (data.length - (place + 32)) / 32 := by omega
  simp only [array, hn, if_pos hle, items_of_lies h.2 (by omega)]

theorem destination_of_lies {start free : Nat} (h : Lies data place (Bytes.ofNat 32 free))
    (hb : place + 32 < limit) (hf : start + free < limit) :
    destination data start place = .ok (start + free) := by
  simp only [destination, number_of_lies .invalidOffset h hb (by omega : free < limit), if_pos hf]

mutual

theorem value_of_lies : ∀ {t : Ty} {v : Value} {place : Nat}, v.conforms t = true →
    Lies data place (Layout.value t v) → place + (Layout.value t v).length < limit →
      value data t place = .ok v
  | .atom a, .atom b x, place, hc, h, hb => by
    obtain rfl : b = a := by simpa [Value.conforms] using hc
    simp only [Layout.value, (b.toWord x).length_bytes] at h hb
    simp only [value, atom_of_lies h hb, Except.map]
  | .array a, .array b xs, place, hc, h, hb => by
    obtain rfl : b = a := by simpa [Value.conforms] using hc
    simp only [Layout.value, List.length_append, Bytes.length_ofNat,
      b.length_flatMap_toWord] at h hb
    simp only [value, array_of_lies h hb, Except.map]
  | .tuple members, .tuple items, place, hc, h, hb => by
    simp only [Value.conforms] at hc
    rw [Layout.value_tuple] at h hb
    simp only [value, sequence_of_layout hc h hb, Except.map]
  | .atom _, .array _ _, _, hc, _, _ | .atom _, .tuple _, _, hc, _, _
  | .array _, .atom _ _, _, hc, _, _ | .array _, .tuple _, _, hc, _, _
  | .tuple _, .atom _ _, _, hc, _, _ | .tuple _, .array _ _, _, hc, _, _ => by
    simp [Value.conforms] at hc

theorem sequence_of_layout {ts : List Ty} {vs : List Value} {place : Nat}
    (hc : Value.conformsAll vs ts = true) (h : Lies data place (Layout.sequence ts vs))
    (hb : place + (Layout.sequence ts vs).length < limit) :
    sequence data ts place place = .ok vs := by
  rw [Layout.length_sequence hc] at hb
  rw [Layout.sequence, lies_append, Part.length_heads, Layout.headSizes_parts hc] at h
  exact sequence_of_lies hc h.1 h.2 (by rw [Layout.headSizes_parts hc]; omega) (by omega)

-- The two cursors move together: a slot of the head, and the place where the tail goes on.
theorem sequence_of_lies : ∀ {ts : List Ty} {vs : List Value} {start slot free : Nat},
    Value.conformsAll vs ts = true →
    Lies data slot (Part.heads free (Layout.parts ts vs)) →
    Lies data (start + free) (Part.tails (Layout.parts ts vs)) →
    slot + Part.headSizes (Layout.parts ts vs) < limit →
    start + free + (Part.tails (Layout.parts ts vs)).length < limit →
      sequence data ts start slot = .ok vs
  | [], [], _, _, _, _, _, _, _, _ => by simp [sequence]
  | [], _ :: _, _, _, _, hc, _, _, _, _ | _ :: _, [], _, _, _, hc, _, _, _, _ => by
    simp [Value.conformsAll] at hc
  | t :: ts, v :: vs, start, slot, free, hc, hh, ht, hs, hf => by
    simp only [Value.conformsAll, Bool.and_eq_true] at hc
    simp only [Layout.parts, Part.heads, Part.tails, Part.headSizes] at hh ht hs hf
    cases hd : t.isDynamic with
    | true =>
      simp only [hd, if_true, lies_append, Bytes.length_ofNat, List.length_append] at hh ht hs hf
      have hv := value_of_lies hc.1 ht.1 (by omega)
      have hvs : sequence data ts start (slot + 32) = .ok vs :=
        sequence_of_lies hc.2 hh.2 (by rw [← Nat.add_assoc]; exact ht.2) (by omega) (by omega)
      have hdest : destination data start slot = .ok (start + free) :=
        destination_of_lies hh.1 (by omega) (by omega)
      simp only [sequence, hd, if_true, hdest, hv, Ty.headSize_of_isDynamic hd, hvs, Except.map]
    | false =>
      have hl := Layout.length_value_of_static hc.1 hd
      simp only [hd, Bool.false_eq_true, if_false, lies_append, hl] at hh ht hs hf
      have hv := value_of_lies hc.1 hh.1 (by omega)
      have hvs := sequence_of_lies hc.2 hh.2 ht (by omega) hf
      simp only [sequence, hd, Bool.false_eq_true, if_false, hv, hvs, Except.map]

end

end Reading

theorem decode_layout {schema : List Ty} {vs : List Value}
    (hc : Value.conformsAll vs schema = true)
    (hl : (Layout.sequence schema vs).length < Bytes.bufferLimit) (t : Bytes) :
    decode schema (Layout.sequence schema vs ++ t) =
      if Layout.sequence schema vs ++ t = [] ∧ schema ≠ [] then .error .empty else .ok vs := by
  have hlies : Lies (Layout.sequence schema vs ++ t) 0 (Layout.sequence schema vs) :=
    List.prefix_append _ _
  have hfit : 0 + (Layout.sequence schema vs).length < Reading.limit := by
    have : Bytes.bufferLimit < Reading.limit := by decide
    omega
  rw [decode, Reading.sequence_of_layout hc hlies hfit]

theorem Method.decodeInput_of_encodeCall {m : Method} {args : List Value} {data : Bytes}
    (encoded : m.encodeCall args = .ok data) (short : data.length < Bytes.bufferLimit)
    (solid : Ty.allHollow m.inputs = false) : m.decodeInput data = .ok args := by
  obtain ⟨hc, rfl⟩ := Method.encodeCall_eq_ok_iff.mp encoded
  have hne : Layout.sequence m.inputs args ≠ [] := by
    rw [Ne, Layout.sequence_eq_nil_iff hc, solid]
    exact Bool.false_ne_true
  rw [List.length_append] at short
  have hdecode := decode_layout hc (by omega) []
  rw [List.append_nil, if_neg (fun h => hne h.1)] at hdecode
  rw [Method.decodeInput, if_pos (List.take_left' m.selector.length_bytes),
    List.drop_left' m.selector.length_bytes, hdecode]
  rfl

theorem decode_undoes_encode :
    (∀ (schema : List Ty) (vs : List Value) (e : Bytes),
      encode schema vs = .ok e → e.length < Bytes.bufferLimit →
        (e = [] ↔ Ty.allHollow schema = true) ∧
        ∀ t : Bytes, decode schema (e ++ t) =
          if e ++ t = [] ∧ schema ≠ [] then .error .empty else .ok vs) ∧
    (∀ (m : Method) (args : List Value) (data : Bytes),
      m.encodeCall args = .ok data → data.length < Bytes.bufferLimit →
        m.decodeInput data =
          if Ty.allHollow m.inputs = true ∧ m.inputs ≠ [] then .error (.arguments .empty)
          else .ok args) ∧
    (∀ (m : Method) (data : Bytes), data.take 4 ≠ m.selector.bytes →
      m.decodeInput data = .error (.selector m.selector (data.take 4))) := by
  refine ⟨?_, ?_, ?_⟩
  · intro schema vs e he hl
    obtain ⟨hc, rfl⟩ := encode_eq_ok_iff.mp he
    exact ⟨Layout.sequence_eq_nil_iff hc, decode_layout hc hl⟩
  · intro m args data hd hl
    obtain ⟨hc, rfl⟩ := Method.encodeCall_eq_ok_iff.mp hd
    have ht : (m.selector.bytes ++ Layout.sequence m.inputs args).take 4 = m.selector.bytes :=
      List.take_left' m.selector.length_bytes
    have hr : (m.selector.bytes ++ Layout.sequence m.inputs args).drop 4
        = Layout.sequence m.inputs args :=
      List.drop_left' m.selector.length_bytes
    rw [List.length_append] at hl
    have hdec := decode_layout hc (by omega) []
    simp only [List.append_nil, Layout.sequence_eq_nil_iff hc] at hdec
    rw [Method.decodeInput, if_pos ht, hr, hdec]
    split <;> rfl
  · intro m data hne
    rw [Method.decodeInput, if_neg hne]

theorem decode_undoes_encode_nested :
    (∃ e : Bytes,
      encode [.tuple [.array .uint, .tuple [.atom .bool]], .tuple [], .atom .uint]
        [.tuple [.array .uint [7, 8], .tuple [.bool true]], .tuple [], .uint 9] = .ok e ∧
      e.length = 224 ∧
      decode [.tuple [.array .uint, .tuple [.atom .bool]], .tuple [], .atom .uint] (e ++ [1]) =
        .ok [.tuple [.array .uint [7, 8], .tuple [.bool true]], .tuple [], .uint 9]) ∧
    decode [.tuple [.tuple []]] [] = .error .empty ∧
    (∃ data : Bytes, Method.encodeCall ⟨"f", [.array .bool], []⟩ [.array .bool [true]] = .ok data ∧
      Method.decodeInput ⟨"f", [.array .bool], []⟩ data = .ok [.array .bool [true]]) ∧
    Method.decodeInput ⟨"f", [], []⟩ [] =
      .error (.selector (Method.selector ⟨"f", [], []⟩) []) := by
  refine ⟨⟨_, rfl, rfl, ?_⟩, ?_, ⟨_, Method.encodeCall_eq_ok_iff.mpr ⟨rfl, rfl⟩, ?_⟩, ?_⟩
  · exact (decode_undoes_encode.1 _ _ _ rfl (by decide +kernel)).2 [1]
  · exact (decode_undoes_encode.1 [.tuple [.tuple []]] [.tuple [.tuple []]] [] rfl (by decide)).2 []
  · refine (decode_undoes_encode.2.1 _ _ _ (Method.encodeCall_eq_ok_iff.mpr ⟨rfl, rfl⟩) ?_).trans
      (if_neg (by decide))
    rw [List.length_append, Octets.length_bytes]
    decide +kernel
  · refine decode_undoes_encode.2.2 _ _ fun h => ?_
    have := congrArg List.length h
    rw [Octets.length_bytes] at this
    cases this

end StakedChain.Abi
