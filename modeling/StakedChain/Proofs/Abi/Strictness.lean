import StakedChain.Proofs.Abi.Truncation

namespace StakedChain.Abi

namespace Reading

variable {data : Bytes}

theorem lies_of_atom {a : Atom} {place : Nat} {x : a.Carrier} (h : atom a data place = .ok x) :
    Lies data place (a.toWord x).bytes := by
  obtain ⟨w, hw, hx⟩ := atom_eq_ok_iff.mp h
  rw [Atom.toWord_of_ofWord? hx]
  exact (word_eq_ok_iff.mp hw).2

mutual

-- A static value is read from where its encoding would be, so its encoding is there.
theorem lies_of_value : ∀ {t : Ty} {place : Nat} {v : Value}, t.isDynamic = false →
    value data t place = .ok v → Lies data place (Layout.value t v)
  | .atom a, place, v, _, h => by
    rw [value, map_eq_ok_iff] at h
    obtain ⟨x, hx, rfl⟩ := h
    rw [Layout.value]
    exact lies_of_atom hx
  | .array a, place, v, hs, _ => by simp [Ty.isDynamic] at hs
  | .tuple ts, place, v, hs, h => by
    rw [value, map_eq_ok_iff] at h
    obtain ⟨vs, hvs, rfl⟩ := h
    simp only [Ty.isDynamic] at hs
    rw [Layout.value_tuple, Layout.sequence_of_static vs hs]
    exact lies_of_sequence _ hs hvs
termination_by structural t => t

theorem lies_of_sequence : ∀ {ts : List Ty} {start slot : Nat} {vs : List Value} (free : Nat),
    Ty.anyDynamic ts = false → sequence data ts start slot = .ok vs →
      Lies data slot (Part.heads free (Layout.parts ts vs))
  | [], _, _, _, _, _, _ => by simp [Layout.parts, Part.heads, Lies]
  | t :: ts, start, slot, vs, free, hs, h => by
    simp only [Ty.anyDynamic, Bool.or_eq_false_iff] at hs
    obtain ⟨here, v, rest, hloc, hv, hrest, rfl⟩ := sequence_cons_eq_ok_iff.mp h
    rcases hloc with ⟨hd, -⟩ | ⟨-, rfl⟩
    · rw [hs.1] at hd
      cases hd
    · have hl := Layout.length_value_of_static (conforms_of_value hv) hs.1
      simp only [Layout.parts, Part.heads, hs.1, Bool.false_eq_true, if_false, lies_append, hl]
      exact ⟨lies_of_value hs.1 hv, lies_of_sequence free hs.2 hrest⟩
termination_by structural ts => ts

end

end Reading

variable {schema : List Ty} {data : Bytes} {vs : List Value}

theorem encode_of_static_decode (hs : Ty.anyDynamic schema = false)
    (h : decode schema data = .ok vs) : Ty.headSizes schema ≤ data.length ∧
      encode schema vs = .ok (data.take (Ty.headSizes schema)) := by
  have hc := conformsAll_of_decode h
  have hl := Layout.length_sequence_of_static hc hs
  have hp : Layout.sequence schema vs <+: data := by
    rw [Layout.sequence_of_static vs hs]
    exact Reading.lies_of_sequence _ hs (decode_eq_ok_iff.mp h).2
  refine ⟨hl ▸ hp.length_le, encode_eq_ok_iff.mpr ⟨hc, ?_⟩⟩
  rw [← hl]
  exact List.prefix_iff_eq_take.mp hp

theorem static_decode_of_encode (hs : Ty.anyDynamic schema = false)
    (short : data.length < Reading.limit) (hne : data ≠ [] ∨ schema = [])
    (hfit : Ty.headSizes schema ≤ data.length)
    (he : encode schema vs = .ok (data.take (Ty.headSizes schema))) :
    decode schema data = .ok vs := by
  obtain ⟨hc, hseq⟩ := encode_eq_ok_iff.mp he
  have hl := Layout.length_sequence_of_static hc hs
  refine decode_eq_ok_iff.mpr ⟨hne, Reading.sequence_of_layout hc ?_ (by omega)⟩
  rw [hseq]
  exact List.take_prefix _ _

-- A buffer has a length of 64 bits.
theorem static_decode_accepts_exactly_encodings (schema : List Ty)
    (static : Ty.anyDynamic schema = false) :
    (∀ (data : Bytes) (vs : List Value), data.length < Reading.limit →
      (decode schema data = .ok vs ↔ (data ≠ [] ∨ schema = []) ∧
        Ty.headSizes schema ≤ data.length ∧
        encode schema vs = .ok (data.take (Ty.headSizes schema)))) ∧
    ∀ (data other : Bytes) (vs : List Value),
      decode schema data = .ok vs → decode schema other = .ok vs →
        data.take (Ty.headSizes schema) = other.take (Ty.headSizes schema) := by
  refine ⟨fun data vs short => ⟨fun h => ?_, ?_⟩, fun data other vs hd ho => ?_⟩
  · exact ⟨(decode_eq_ok_iff.mp h).1, encode_of_static_decode static h⟩
  · rintro ⟨hne, hfit, he⟩
    exact static_decode_of_encode static short hne hfit he
  · have hd := (encode_of_static_decode static hd).2
    rw [(encode_of_static_decode static ho).2] at hd
    exact (Except.ok.inj hd).symm

def marked (more : Bytes) : Bytes :=
  List.replicate 12 0 ++ List.replicate 20 0xaa ++ List.replicate 31 0 ++ [1] ++ more

def markedAccount : List Value :=
  [.tuple [.tuple [], .address ⟨List.replicate 20 0xaa, rfl⟩], .bool true]

theorem marked_account_accepted :
    Ty.anyDynamic [.tuple [.tuple [], .atom .address], .atom .bool] = false ∧
    (marked [7]).length < Reading.limit ∧ (marked [8, 9]).length < Reading.limit ∧
    decode [.tuple [.tuple [], .atom .address], .atom .bool] (marked [7]) =
      .ok markedAccount ∧
    decode [.tuple [.tuple [], .atom .address], .atom .bool] (marked [8, 9]) =
      .ok markedAccount ∧
    (marked [7]).take 64 = (marked [8, 9]).take 64 := by
  have h := static_decode_accepts_exactly_encodings
    [.tuple [.tuple [], .atom .address], .atom .bool] rfl
  have first := (h.1 (marked [7]) markedAccount (by decide +kernel)).mpr
    ⟨.inl (by decide), by decide +kernel, rfl⟩
  have second := (h.1 (marked [8, 9]) markedAccount (by decide +kernel)).mpr
    ⟨.inl (by decide), by decide +kernel, rfl⟩
  exact ⟨rfl, by decide +kernel, by decide +kernel, first, second, h.2 _ _ _ first second⟩

end StakedChain.Abi
