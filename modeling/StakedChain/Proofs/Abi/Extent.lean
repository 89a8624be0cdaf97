import StakedChain.Proofs.Abi.Conformance

namespace StakedChain

-- No buffer of a 64-bit machine is longer than this.
def Bytes.bufferLimit : Nat := 0x8000000000000000

namespace Abi

namespace Ty

mutual

def isHollow : Ty → Bool
  | .atom _ => false
  | .array _ => false
  | .tuple members => allHollow members

def allHollow : List Ty → Bool
  | [] => true
  | t :: rest => isHollow t && allHollow rest

end

theorem headSizes_of_anyDynamic : ∀ {ts : List Ty}, anyDynamic ts = true → 32 ≤ headSizes ts
  | [], h => by simp [anyDynamic] at h
  | t :: ts, h => by
    simp only [anyDynamic, Bool.or_eq_true] at h
    simp only [headSizes]
    rcases h with ht | hts
    · have := headSize_of_isDynamic ht
      omega
    · have := headSizes_of_anyDynamic hts
      omega

mutual

theorem headSize_eq_zero_iff : ∀ {t : Ty}, t.headSize = 0 ↔ t.isHollow = true
  | .atom _ => by simp [headSize, isHollow]
  | .array _ => by simp [headSize, isHollow]
  | .tuple members => by
    simp only [headSize, isHollow, ← headSizes_eq_zero_iff]
    split
    · rename_i hd
      have := headSizes_of_anyDynamic hd
      omega
    · rfl

theorem headSizes_eq_zero_iff : ∀ {ts : List Ty}, headSizes ts = 0 ↔ allHollow ts = true
  | [] => by simp [headSizes, allHollow]
  | t :: ts => by
    simp only [headSizes, allHollow, Bool.and_eq_true, Nat.add_eq_zero_iff,
      headSize_eq_zero_iff, headSizes_eq_zero_iff]

end

end Ty

theorem Atom.length_flatMap_toWord (a : Atom) (xs : List a.Carrier) :
    (xs.flatMap fun x => (a.toWord x).bytes).length = 32 * xs.length := by
  induction xs with
  | nil => rfl
  | cons x xs ih =>
    simp only [List.flatMap_cons, List.length_append, List.length_cons, ih,
      (a.toWord x).length_bytes]
    omega

namespace Layout

theorem tails_parts_of_static : ∀ {ts : List Ty} (vs : List Value),
    Ty.anyDynamic ts = false → Part.tails (parts ts vs) = []
  | [], _, _ => by simp [parts, Part.tails]
  | _ :: _, [], _ => by simp [parts, Part.tails]
  | t :: ts, v :: vs, h => by
    simp only [Ty.anyDynamic, Bool.or_eq_false_iff] at h
    simp [parts, Part.tails, h.1, tails_parts_of_static vs h.2]

mutual

theorem length_value_of_static : ∀ {t : Ty} {v : Value}, v.conforms t = true →
    t.isDynamic = false → (value t v).length = t.headSize
  | .atom a, .atom b x, hc, _ => by
    simp [value, Ty.headSize, (b.toWord x).length_bytes]
  | .array _, _, _, hs => by simp [Ty.isDynamic] at hs
  | .tuple members, .tuple items, hc, hs => by
    simp only [Value.conforms] at hc
    simp only [Ty.isDynamic] at hs
    rw [value_tuple, sequence, List.length_append, Part.length_heads, headSizes_parts hc,
      tails_parts_of_static items hs]
    simp [Ty.headSize, hs]
  | .atom _, .array _ _, hc, _ | .atom _, .tuple _, hc, _ => by simp [Value.conforms] at hc
  | .tuple _, .atom _ _, hc, _ | .tuple _, .array _ _, hc, _ => by simp [Value.conforms] at hc

theorem headSizes_parts : ∀ {ts : List Ty} {vs : List Value},
    Value.conformsAll vs ts = true → Part.headSizes (parts ts vs) = Ty.headSizes ts
  | [], vs, _ => by simp [parts, Part.headSizes, Ty.headSizes]
  | _ :: _, [], hc => by simp [Value.conformsAll] at hc
  | t :: ts, v :: vs, hc => by
    simp only [Value.conformsAll, Bool.and_eq_true] at hc
    simp only [parts, Part.headSizes, Ty.headSizes, headSizes_parts hc.2]
    cases hd : t.isDynamic with
    | true => simp [Ty.headSize_of_isDynamic hd]
    | false => simp [length_value_of_static hc.1 hd]

end

theorem length_sequence {schema : List Ty} {vs : List Value}
    (h : Value.conformsAll vs schema = true) : (sequence schema vs).length =
      Ty.headSizes schema + (Part.tails (parts schema vs)).length := by
  rw [sequence, List.length_append, Part.length_heads, headSizes_parts h]

theorem sequence_of_static {schema : List Ty} (vs : List Value)
    (hs : Ty.anyDynamic schema = false) :
    sequence schema vs = Part.heads (Ty.headSizes schema) (parts schema vs) := by
  rw [sequence, tails_parts_of_static vs hs, List.append_nil]

theorem length_sequence_of_static {schema : List Ty} {vs : List Value}
    (hc : Value.conformsAll vs schema = true) (hs : Ty.anyDynamic schema = false) :
    (sequence schema vs).length = Ty.headSizes schema := by
  rw [sequence_of_static vs hs, Part.length_heads, headSizes_parts hc]

theorem sequence_eq_nil_iff {schema : List Ty} {vs : List Value}
    (h : Value.conformsAll vs schema = true) :
    sequence schema vs = [] ↔ Ty.allHollow schema = true := by
  rw [← List.length_eq_zero_iff, length_sequence h, ← Ty.headSizes_eq_zero_iff]
  refine ⟨fun hz => by omega, fun hz => ?_⟩
  have hs : Ty.anyDynamic schema = false := by
    cases hd : Ty.anyDynamic schema with
    | true =>
      have := Ty.headSizes_of_anyDynamic hd
      omega
    | false => rfl
  rw [tails_parts_of_static vs hs, hz]
  rfl

end Layout

theorem Method.encodeCall_of_static {m : Method} {args : List Value}
    (hc : Value.conformsAll args m.inputs = true) (hs : Ty.anyDynamic m.inputs = false) :
    ∃ data, m.encodeCall args = .ok data ∧ data.length = 4 + Ty.headSizes m.inputs := by
  refine ⟨_, encodeCall_eq_ok_iff.mpr ⟨hc, rfl⟩, ?_⟩
  rw [List.length_append, m.selector.length_bytes, Layout.length_sequence_of_static hc hs]

end Abi

end StakedChain
