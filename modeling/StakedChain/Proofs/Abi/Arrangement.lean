import StakedChain.Proofs.Abi.Refusal
import StakedChain.Proofs.Abi.RoundTrip

namespace StakedChain

theorem Bytes.value_zeros (n : Nat) (bs : Bytes) :
    value (List.replicate n 0 ++ bs) = value bs := by
  induction n with
  | zero => rfl
  | succ n ih => simpa [List.replicate_succ, value] using ih

theorem Octets.value_ofNat_of_lt {n : Nat} (h : n < Bytes.bufferLimit) :
    (Octets.ofNat 32 n).value = n :=
  (Octets.value_ofNat n).trans (Nat.mod_eq_of_lt (Nat.lt_trans h (by decide)))

namespace Abi

def Atom.number : (a : Atom) → a.Carrier → Nat
  | .address, x => x.value
  | .uint, x => x.toNat
  | .bool, x => x.toNat

theorem Atom.value_toWord (a : Atom) (x : a.Carrier) : (a.toWord x).value = a.number x := by
  cases a with
  | address => exact Bytes.value_zeros 12 x.bytes
  | uint => exact (Octets.value_ofNat _).trans (Nat.mod_eq_of_lt x.isLt)
  | bool => cases x <;> decide

-- Numbers in words of 32 octets each, most significant octet first, one word after the other.
def Numerals (ns : List Nat) (e : Bytes) : Prop :=
  ∃ ws : List (Octets 32), ws.map Octets.value = ns ∧ ws.flatMap Octets.bytes = e

theorem Numerals.eq {ns : List Nat} {e e' : Bytes} (h : Numerals ns e) (h' : Numerals ns e') :
    e = e' := by
  obtain ⟨ws, rfl, rfl⟩ := h
  obtain ⟨ws', hws, rfl⟩ := h'
  rw [(List.map_inj_right fun _ _ => Octets.value_inj).mp hws]

theorem Numerals.fits {n : Nat} {ns : List Nat} {e : Bytes} (h : Numerals (n :: ns) e) :
    (Octets.ofNat 32 n).value = n := by
  obtain ⟨ws, hws, -⟩ := h
  obtain ⟨w, -, -, rfl, -⟩ := List.map_eq_cons_iff.mp hws
  rw [Octets.ofNat_value]

theorem numerals_atom (a : Atom) (x : a.Carrier) :
    Numerals [a.number x] (a.toWord x).bytes :=
  ⟨[a.toWord x], by simp [a.value_toWord], by simp⟩

theorem numerals_array (a : Atom) (xs : List a.Carrier)
    (fits : (Octets.ofNat 32 xs.length).value = xs.length) :
    Numerals (xs.length :: xs.map a.number)
      (Bytes.ofNat 32 xs.length ++ xs.flatMap fun x => (a.toWord x).bytes) := by
  refine ⟨Octets.ofNat 32 xs.length :: xs.map a.toWord, ?_, ?_⟩
  · simp [fits, a.value_toWord]
  · simp [Octets.ofNat, List.flatMap_map]

-- How the members of a sequence stand in its octets: a slot each in the head, one after the other,
-- and behind the head those that are dynamic, without gaps. A slot holds the member itself or the
-- place, from the start of the sequence, where the member is.
structure Arranged (schema : List Ty) (ps : List Part) (e : Bytes) : Prop where
  head : Ty.headSizes schema ≤ e.length
  inline : ∀ i t p, schema[i]? = some t → ps[i]? = some p → p.dynamic = false →
    p.body.length = t.headSize ∧ Lies e (Ty.headSizes (schema.take i)) p.body
  referred : ∀ i t p, schema[i]? = some t → ps[i]? = some p → p.dynamic = true →
    t.headSize = 32 ∧ ∃ w : Octets 32, Lies e (Ty.headSizes (schema.take i)) w.bytes ∧
      w.value = Ty.headSizes schema + (Part.tails (ps.take i)).length ∧ Lies e w.value p.body
  tail : e.drop (Ty.headSizes schema) = Part.tails ps
  whole : 32 ∣ e.length

mutual

def Encodes : Ty → Value → Bytes → Prop
  | .atom a, .atom b x, e => a = b ∧ Numerals [b.number x] e
  | .array a, .array b xs, e => a = b ∧ Numerals (xs.length :: xs.map b.number) e
  | .tuple ts, .tuple vs, e => ∃ ps, EncodesAll ts vs ps ∧ Arranged ts ps e
  | _, _, _ => False

def EncodesAll : List Ty → List Value → List Part → Prop
  | [], [], [] => True
  | t :: ts, v :: vs, p :: ps =>
    p.dynamic = t.isDynamic ∧ Encodes t v p.body ∧ EncodesAll ts vs ps
  | _, _, _ => False

end

theorem forall_getElem?_cons {α : Type} {P : Nat → α → Prop} {x : α} {xs : List α} :
    (∀ i y, (x :: xs)[i]? = some y → P i y) ↔ P 0 x ∧ ∀ i y, xs[i]? = some y → P (i + 1) y := by
  constructor
  · exact fun h => ⟨h 0 x rfl, fun i y hy => h (i + 1) y hy⟩
  · rintro ⟨first, rest⟩ i y hy
    cases i with
    | zero => exact Option.some.inj hy ▸ first
    | succ i => exact rest i y hy

namespace Part

variable {data : Bytes} {ps : List Part} {p : Part}

-- What a member shows in the head when its own octets, if they go behind it, are at `place`.
def slot (p : Part) (place : Nat) : Bytes :=
  if p.dynamic then Bytes.ofNat 32 place else p.body

theorem tails_append (ps qs : List Part) : tails (ps ++ qs) = tails ps ++ tails qs := by
  induction ps with
  | nil => rfl
  | cons p ps ih => cases hd : p.dynamic <;> simp [tails, hd, ih]

theorem tails_eq (ps : List Part) (i : Nat) :
    tails ps = tails (ps.take i) ++ tails (ps.drop i) := by
  rw [← tails_append, List.take_append_drop]

theorem lies_heads_iff {place free : Nat} : Lies data place (heads free ps) ↔ ∀ i p,
    ps[i]? = some p →
      Lies data (place + headSizes (ps.take i)) (p.slot (free + (tails (ps.take i)).length)) := by
  induction ps generalizing place free with
  | nil => simp [heads, Lies]
  | cons q ps ih =>
    have hcons : heads free (q :: ps) = q.slot free ++ heads (free + (tails [q]).length) ps := by
      cases hd : q.dynamic <;> simp [heads, slot, tails, hd]
    have hslot : (q.slot free).length = headSizes [q] := by
      cases hd : q.dynamic <;> simp [slot, headSizes, hd]
    have hsizes : ∀ i, headSizes (q :: ps.take i) = headSizes [q] + headSizes (ps.take i) :=
      fun i => rfl
    have htails : ∀ i, tails (q :: ps.take i) = tails [q] ++ tails (ps.take i) :=
      fun i => tails_append [q] _
    rw [hcons, lies_append, hslot, ih, forall_getElem?_cons]
    simp only [List.take_zero, List.take_succ_cons, hsizes, htails, List.length_append,
      Nat.add_assoc]
    rfl

theorem lies_of_tails {place i : Nat} (h : Lies data place (tails ps)) (hp : ps[i]? = some p)
    (hd : p.dynamic = true) : Lies data (place + (tails (ps.take i)).length) p.body := by
  obtain ⟨hi, rfl⟩ := List.getElem?_eq_some_iff.mp hp
  rw [tails_eq ps i, lies_append, List.drop_eq_getElem_cons hi, tails, if_pos hd,
    lies_append] at h
  exact h.2.1

theorem length_body_le (h : p ∈ ps) : p.body.length ≤ headSizes ps + (tails ps).length := by
  induction ps with
  | nil => cases h
  | cons q ps ih =>
    rw [headSizes, tails]
    rcases List.mem_cons.mp h with rfl | h
    · cases hd : p.dynamic <;> simp <;> omega
    · have := ih h
      cases hd : q.dynamic <;> simp <;> omega

theorem dvd_headSizes (h : ∀ p ∈ ps, 32 ∣ p.body.length) : 32 ∣ headSizes ps := by
  induction ps with
  | nil => exact Nat.dvd_zero 32
  | cons p ps ih =>
    rw [List.forall_mem_cons] at h
    rw [headSizes]
    refine Nat.dvd_add ?_ (ih h.2)
    split
    · exact Nat.dvd_refl 32
    · exact h.1

theorem dvd_tails (h : ∀ p ∈ ps, 32 ∣ p.body.length) : 32 ∣ (tails ps).length := by
  induction ps with
  | nil => exact Nat.dvd_zero 32
  | cons p ps ih =>
    rw [List.forall_mem_cons] at h
    rw [tails]
    split
    · rw [List.length_append]
      exact Nat.dvd_add h.1 (ih h.2)
    · exact ih h.2

end Part

namespace Layout

theorem parts_getElem?_eq_some_iff : ∀ {ts : List Ty} {vs : List Value} {i : Nat} {p : Part},
    (parts ts vs)[i]? = some p ↔
      ∃ t v, ts[i]? = some t ∧ vs[i]? = some v ∧ ⟨t.isDynamic, value t v⟩ = p
  | [], _, _, _ | _ :: _, [], _, _ => by simp [parts]
  | _ :: _, _ :: _, 0, _ => by simp [parts]
  | _ :: ts, _ :: vs, i + 1, p => by
    simpa only [parts, List.getElem?_cons_succ] using @parts_getElem?_eq_some_iff ts vs i p

theorem parts_take : ∀ (ts : List Ty) (vs : List Value) (i : Nat),
    (parts ts vs).take i = parts (ts.take i) (vs.take i)
  | [], _, _ | _ :: _, [], _ => by simp [parts]
  | _ :: _, _ :: _, 0 => by simp [parts]
  | t :: ts, v :: vs, i + 1 => by
    simp only [parts, List.take_succ_cons, parts_take ts vs i]

theorem conformsAll_take : ∀ {vs : List Value} {ts : List Ty} (i : Nat),
    Value.conformsAll vs ts = true → Value.conformsAll (vs.take i) (ts.take i) = true
  | [], [], _, _ => by simp [Value.conformsAll]
  | [], _ :: _, _, h | _ :: _, [], _, h => by simp [Value.conformsAll] at h
  | _ :: _, _ :: _, 0, _ => by simp [Value.conformsAll]
  | v :: vs, t :: ts, i + 1, h => by
    simp only [Value.conformsAll, Bool.and_eq_true] at h
    simp only [List.take_succ_cons, Value.conformsAll, h.1, conformsAll_take i h.2, Bool.and_self]

theorem headSizes_take {ts : List Ty} {vs : List Value} (hc : Value.conformsAll vs ts = true)
    (i : Nat) : Part.headSizes ((parts ts vs).take i) = Ty.headSizes (ts.take i) := by
  rw [parts_take, headSizes_parts (conformsAll_take i hc)]

theorem dvd_length_sequence {ts : List Ty} {vs : List Value}
    (bodies : ∀ p ∈ parts ts vs, 32 ∣ p.body.length) : 32 ∣ (sequence ts vs).length := by
  rw [sequence, List.length_append, Part.length_heads]
  exact Nat.dvd_add (Part.dvd_headSizes bodies) (Part.dvd_tails bodies)

mutual

theorem dvd_length_value : ∀ (t : Ty) (v : Value), 32 ∣ (value t v).length
  | .atom _, .atom b x => by simp [value, (b.toWord x).length_bytes]
  | .array _, .array b xs => by
    rw [value, List.length_append, Bytes.length_ofNat, b.length_flatMap_toWord]
    exact Nat.dvd_add (Nat.dvd_refl 32) (Nat.dvd_mul_right 32 xs.length)
  | .tuple ts, .tuple vs => by
    rw [value_tuple]
    exact dvd_length_sequence (dvd_length_parts ts vs)
  | .atom _, .array _ _ | .atom _, .tuple _ | .array _, .atom _ _ | .array _, .tuple _
  | .tuple _, .atom _ _ | .tuple _, .array _ _ => by simp [value]
termination_by structural t => t

theorem dvd_length_parts : ∀ (ts : List Ty) (vs : List Value),
    ∀ p ∈ parts ts vs, 32 ∣ p.body.length
  | [], _ | _ :: _, [] => by simp [parts]
  | t :: ts, v :: vs => by
    rw [parts, List.forall_mem_cons]
    exact ⟨dvd_length_value t v, dvd_length_parts ts vs⟩
termination_by structural ts => ts

end

section

variable {schema : List Ty} {vs : List Value} {p : Part} {i : Nat}

theorem length_body_le (hp : p ∈ parts schema vs) :
    p.body.length ≤ (sequence schema vs).length := by
  rw [sequence, List.length_append, Part.length_heads]
  exact Part.length_body_le hp

variable (hc : Value.conformsAll vs schema = true)
include hc

theorem drop_sequence :
    (sequence schema vs).drop (Ty.headSizes schema) = Part.tails (parts schema vs) :=
  List.drop_left' (by rw [Part.length_heads, headSizes_parts hc])

theorem lies_slot (hp : (parts schema vs)[i]? = some p) :
    Lies (sequence schema vs) (Ty.headSizes (schema.take i))
      (p.slot (Ty.headSizes schema + (Part.tails ((parts schema vs).take i)).length)) := by
  have heads : Lies (sequence schema vs) 0
      (Part.heads (Ty.headSizes schema) (parts schema vs)) := List.prefix_append _ _
  have h := Part.lies_heads_iff.mp heads i p hp
  rwa [headSizes_take hc, Nat.zero_add] at h

theorem lies_body (hp : (parts schema vs)[i]? = some p) (hd : p.dynamic = true) :
    Lies (sequence schema vs)
      (Ty.headSizes schema + (Part.tails ((parts schema vs).take i)).length) p.body := by
  have behind : Lies (sequence schema vs) (Ty.headSizes schema) (Part.tails (parts schema vs)) :=
    ⟨[], by rw [List.append_nil, drop_sequence hc]⟩
  exact Part.lies_of_tails behind hp hd

theorem arranged_sequence (short : (sequence schema vs).length < Bytes.bufferLimit) :
    Arranged schema (parts schema vs) (sequence schema vs) := by
  have hl := length_sequence hc
  refine ⟨by omega, ?inline, ?referred, drop_sequence hc,
    dvd_length_sequence (dvd_length_parts schema vs)⟩
  case inline =>
    intro i t p ht hp hd
    have hslot := lies_slot hc hp
    rw [Part.slot, hd, if_neg Bool.false_ne_true] at hslot
    obtain ⟨u, v, hu, hv, rfl⟩ := parts_getElem?_eq_some_iff.mp hp
    obtain rfl : t = u := Option.some.inj (ht.symm.trans hu)
    exact ⟨length_value_of_static ((conformsAll_iff.mp hc).2 i t v ht hv) hd, hslot⟩
  case referred =>
    intro i t p ht hp hd
    have hslot := lies_slot hc hp
    rw [Part.slot, hd, if_pos rfl] at hslot
    have hbefore : (Part.tails ((parts schema vs).take i)).length ≤
        (Part.tails (parts schema vs)).length := by
      rw [Part.tails_eq (parts schema vs) i, List.length_append]
      exact Nat.le_add_right _ _
    have hplace := Octets.value_ofNat_of_lt (n := Ty.headSizes schema +
      (Part.tails ((parts schema vs).take i)).length) (by omega)
    have hbody := lies_body hc hp hd
    obtain ⟨u, v, hu, -, rfl⟩ := parts_getElem?_eq_some_iff.mp hp
    obtain rfl : t = u := Option.some.inj (ht.symm.trans hu)
    exact ⟨Ty.headSize_of_isDynamic hd, _, hslot, hplace, by rwa [hplace]⟩

theorem eq_sequence_of_arranged {e : Bytes} (h : Arranged schema (parts schema vs) e) :
    e = sequence schema vs := by
  have heads : Lies e 0 (Part.heads (Ty.headSizes schema) (parts schema vs)) := by
    rw [Part.lies_heads_iff]
    intro i p hp
    obtain ⟨t, v, ht, -, rfl⟩ := parts_getElem?_eq_some_iff.mp hp
    rw [headSizes_take hc, Nat.zero_add, Part.slot]
    cases hd : t.isDynamic with
    | true =>
      obtain ⟨-, w, hw, hplace, -⟩ := h.referred i t _ ht hp hd
      have hbytes : Bytes.ofNat 32 w.value = w.bytes := congrArg Octets.bytes w.ofNat_value
      rwa [← hplace, if_pos rfl, hbytes]
    | false =>
      exact (h.inline i t _ ht hp hd).2
  have hfront : e.take (Ty.headSizes schema) =
      Part.heads (Ty.headSizes schema) (parts schema vs) := by
    have := List.prefix_iff_eq_take.mp heads
    rw [Part.length_heads, headSizes_parts hc] at this
    exact this.symm
  rw [← List.take_append_drop (Ty.headSizes schema) e, hfront, h.tail, sequence]

end

mutual

theorem encodes_value : ∀ {t : Ty} {v : Value}, v.conforms t = true →
    (value t v).length < Bytes.bufferLimit → Encodes t v (value t v)
  | .atom a, .atom b x, hc, _ => by
    obtain rfl : b = a := by simpa [Value.conforms] using hc
    rw [Encodes, value]
    exact ⟨rfl, numerals_atom b x⟩
  | .array a, .array b xs, hc, short => by
    obtain rfl : b = a := by simpa [Value.conforms] using hc
    rw [value, List.length_append, Bytes.length_ofNat, b.length_flatMap_toWord] at short
    rw [Encodes, value]
    exact ⟨rfl, numerals_array b xs (Octets.value_ofNat_of_lt (by omega))⟩
  | .tuple ts, .tuple vs, hc, short => by
    simp only [Value.conforms] at hc
    rw [value_tuple] at short
    rw [Encodes, value_tuple]
    exact ⟨parts ts vs, encodesAll_parts hc fun p hp =>
      Nat.lt_of_le_of_lt (length_body_le hp) short, arranged_sequence hc short⟩
  | .atom _, .array _ _, hc, _ | .atom _, .tuple _, hc, _
  | .array _, .atom _ _, hc, _ | .array _, .tuple _, hc, _
  | .tuple _, .atom _ _, hc, _ | .tuple _, .array _ _, hc, _ => by simp [Value.conforms] at hc
termination_by structural t => t

theorem encodesAll_parts : ∀ {ts : List Ty} {vs : List Value}, Value.conformsAll vs ts = true →
    (∀ p ∈ parts ts vs, p.body.length < Bytes.bufferLimit) → EncodesAll ts vs (parts ts vs)
  | [], [], _, _ => by simp [parts, EncodesAll]
  | [], _ :: _, hc, _ | _ :: _, [], hc, _ => by simp [Value.conformsAll] at hc
  | t :: ts, v :: vs, hc, short => by
    simp only [Value.conformsAll, Bool.and_eq_true] at hc
    rw [parts, List.forall_mem_cons] at short
    rw [parts, EncodesAll]
    exact ⟨rfl, encodes_value hc.1 short.1, encodesAll_parts hc.2 short.2⟩
termination_by structural ts => ts

end

mutual

theorem eq_value_of_encodes : ∀ {t : Ty} {v : Value} {e : Bytes}, Encodes t v e →
    v.conforms t = true ∧ e = value t v
  | .atom a, .atom b x, e, h => by
    rw [Encodes] at h
    obtain ⟨rfl, h⟩ := h
    rw [value]
    exact ⟨by simp [Value.conforms], h.eq (numerals_atom a x)⟩
  | .array a, .array b xs, e, h => by
    rw [Encodes] at h
    obtain ⟨rfl, h⟩ := h
    rw [value]
    exact ⟨by simp [Value.conforms], h.eq (numerals_array a xs h.fits)⟩
  | .tuple ts, .tuple vs, e, h => by
    rw [Encodes] at h
    obtain ⟨ps, hps, harranged⟩ := h
    obtain ⟨hc, rfl⟩ := eq_parts_of_encodesAll hps
    rw [value_tuple, Value.conforms]
    exact ⟨hc, eq_sequence_of_arranged hc harranged⟩
  | .atom _, .array _ _, _, h | .atom _, .tuple _, _, h
  | .array _, .atom _ _, _, h | .array _, .tuple _, _, h
  | .tuple _, .atom _ _, _, h | .tuple _, .array _ _, _, h => by simp [Encodes] at h
termination_by structural t => t

theorem eq_parts_of_encodesAll : ∀ {ts : List Ty} {vs : List Value} {ps : List Part},
    EncodesAll ts vs ps → Value.conformsAll vs ts = true ∧ ps = parts ts vs
  | [], [], [], _ => by simp [Value.conformsAll, parts]
  | t :: ts, v :: vs, p :: ps, h => by
    rw [EncodesAll] at h
    obtain ⟨hd, hbody, hrest⟩ := h
    obtain ⟨hc, hvalue⟩ := eq_value_of_encodes hbody
    obtain ⟨hcs, rfl⟩ := eq_parts_of_encodesAll hrest
    refine ⟨by simp [Value.conformsAll, hc, hcs], ?_⟩
    rw [parts, ← hd, ← hvalue]
  | [], _ :: _, _, h | [], [], _ :: _, h | _ :: _, [], _, h | _ :: _, _ :: _, [], h => by
    simp [EncodesAll] at h
termination_by structural ts => ts

end

end Layout

theorem encode_eq_ok_iff_arranged (schema : List Ty) (vs : List Value) (e : Bytes)
    (short : e.length < Bytes.bufferLimit) :
    encode schema vs = .ok e ↔ ∃ ps, EncodesAll schema vs ps ∧ Arranged schema ps e := by
  rw [encode_eq_ok_iff]
  constructor
  · rintro ⟨hc, rfl⟩
    exact ⟨Layout.parts schema vs, Layout.encodesAll_parts hc fun p hp =>
      Nat.lt_of_le_of_lt (Layout.length_body_le hp) short, Layout.arranged_sequence hc short⟩
  · rintro ⟨ps, hps, harranged⟩
    obtain ⟨hc, rfl⟩ := Layout.eq_parts_of_encodesAll hps
    exact ⟨hc, (Layout.eq_sequence_of_arranged hc harranged).symm⟩

theorem nested_array_arranged : ∃ e : Bytes,
    encode [.atom .uint, .tuple [.array .uint, .atom .bool], .array .address]
      [.uint 5, .tuple [.array .uint [7, 8], .bool true], .array .address []] = .ok e ∧
    e.length = 288 ∧ e.length < Bytes.bufferLimit ∧
    (∃ ps, EncodesAll [.atom .uint, .tuple [.array .uint, .atom .bool], .array .address]
        [.uint 5, .tuple [.array .uint [7, 8], .bool true], .array .address []] ps ∧
      Arranged [.atom .uint, .tuple [.array .uint, .atom .bool], .array .address] ps e) := by
  refine ⟨_, rfl, by decide +kernel, by decide +kernel, ?_⟩
  exact (encode_eq_ok_iff_arranged _ _ _ (by decide +kernel)).mp rfl

end Abi

end StakedChain
