import StakedChain.Proofs.Abi.Machine
import StakedChain.Proofs.Abi.Volume

namespace StakedChain

attribute [local instance (2000)] instPowNat

theorem Bytes.value_append (as bs : Bytes) :
    value (as ++ bs) = value as * 256 ^ bs.length + value bs := by
  induction as with
  | nil => simp [value]
  | cons a as ih =>
    rw [List.cons_append, value, value, ih, List.length_append, Nat.pow_add, Nat.add_mul,
      Nat.mul_assoc, Nat.add_assoc]

theorem Bytes.value_take_drop (k : Nat) (bs : Bytes) :
    value bs = value (bs.take k) * 256 ^ (bs.drop k).length + value (bs.drop k) := by
  rw [← value_append, List.take_append_drop]

theorem Word.exists_add {w : Nat} (a b : Word w) (h : a.toNat + b.toNat < 2 ^ w) :
    ∃ c, add? a b = some c ∧ c.toNat = a.toNat + b.toNat := by
  have hc : ofNat? w (a.toNat + b.toNat) = some (BitVec.ofNat w (a.toNat + b.toNat)) := if_pos h
  exact ⟨_, hc, ofNat?_eq_some_iff.mp hc⟩

namespace Abi.Machine

theorem ok_bind {ε α β : Type} (x : α) (f : α → Except ε β) : (Except.ok x >>= f) = f x := rfl

theorem soiled_eq_false_iff {bs : Bytes} : soiled bs = false ↔ ∀ b ∈ bs, b = 0 := by
  simp [soiled]

theorem soiled_eq_false_iff_value {bs : Bytes} : soiled bs = false ↔ Bytes.value bs = 0 := by
  rw [soiled_eq_false_iff]
  induction bs with
  | nil => simp [Bytes.value]
  | cons b bs ih =>
    have hpos : 256 ^ bs.length ≠ 0 := Nat.pos_iff_ne_zero.mp (Nat.pow_pos (by decide))
    have hb : b.toNat = 0 ↔ b = 0 := by rw [← UInt8.toNat_inj]; rfl
    rw [List.forall_mem_cons, ih, Bytes.value, Nat.add_eq_zero_iff, Nat.mul_eq_zero, hb,
      or_iff_left hpos]

theorem value_ne_zero_of_soiled {bs : Bytes} (h : soiled bs = true) : Bytes.value bs ≠ 0 :=
  fun h0 => Bool.false_ne_true ((soiled_eq_false_iff_value.mpr h0).symm.trans h)

theorem fetch_eq (data : Bytes) (place : Word64) :
    fetch data place = (Reading.word data place.toNat).map Octets.bytes := by
  have h32 : (32 : Word64).toNat = 32 := rfl
  unfold fetch Reading.word
  by_cases hb : place.toNat + 32 < Reading.limit
  · obtain ⟨last, hlast, hval⟩ := Word.exists_add place 32 hb
    have hle : place ≤ last := BitVec.le_def.mpr (by omega)
    rw [if_pos hb, hlast, Option.bind_some, part?, hval, h32, Nat.add_sub_cancel_left]
    by_cases hfit : place.toNat + 32 ≤ data.length
    · have hl : ((data.drop place.toNat).take 32).length = 32 := by
        rw [List.length_take, List.length_drop]
        omega
      rw [if_pos ⟨hle, hfit⟩, Octets.ofBytes?, dif_pos hl]
      rfl
    · have hl : ((data.drop place.toNat).take 32).length ≠ 32 := by
        rw [List.length_take, List.length_drop]
        omega
      rw [if_neg fun h => hfit h.2, Octets.ofBytes?, dif_neg hl]
      rfl
  · have hnone : Word.add? place 32 = none :=
      Word.ofNat?_eq_none_iff.mpr (Nat.le_of_not_lt hb)
    rw [if_neg hb, hnone]
    rfl

section

variable (w : Octets 32) {k : Nat}

theorem cut_front (h : k ≤ 32) : cut w.bytes 0 k = .ok (w.bytes.take k) := by
  rw [cut, if_pos ⟨Nat.zero_le k, by rw [w.length_bytes]; exact h⟩]
  rfl

theorem cut_back (h : k ≤ 32) : cut w.bytes k w.bytes.length = .ok (w.bytes.drop k) := by
  rw [cut, if_pos ⟨by rw [w.length_bytes]; exact h, Nat.le_refl _⟩, ← List.length_drop,
    List.take_length]

theorem exactly_back (h : k ≤ 32) :
    exactly k (w.bytes.drop (32 - k)) = .ok (w.suffix k h) := by
  have hl : (w.bytes.drop (32 - k)).length = k := by
    rw [List.length_drop, w.length_bytes]
    omega
  rw [exactly, Octets.ofBytes?, dif_pos hl]
  rfl

theorem value_suffix (h : k ≤ 32) :
    w.value = Bytes.value (w.bytes.take (32 - k)) * 256 ^ k + (w.suffix k h).value := by
  have hl : (w.bytes.drop (32 - k)).length = k := by
    rw [List.length_drop, w.length_bytes]
    omega
  rw [Octets.value, Bytes.value_take_drop (32 - k), hl]
  rfl

end

theorem convert_eq (a : Atom) (place : Word64) (w : Octets 32) :
    convert a place w.bytes = .ok (match a.ofWord? w with
      | some x => .ok x
      | none => .error (.malformed a place.toNat)) := by
  cases a with
  | address =>
    have hzero : soiled (w.bytes.take 12) = false ↔ w.bytes.take 12 = List.replicate 12 0 := by
      rw [soiled_eq_false_iff, List.eq_replicate_iff, List.length_take, w.length_bytes]
      exact (and_iff_right rfl).symm
    simp only [convert, Atom.ofWord?, cut_front w (by decide : 12 ≤ 32), ok_bind, ← hzero]
    cases hs : soiled (w.bytes.take 12) with
    | true => rfl
    | false =>
      simp only [cut_back w (by decide : 12 ≤ 32), ok_bind, exactly_back w (by decide : 20 ≤ 32)]
      rfl
  | uint =>
    rw [convert, if_pos (Nat.le_of_eq w.length_bytes)]
    rfl
  | bool =>
    obtain ⟨b, hb⟩ := List.length_eq_one_iff.mp (w.suffix 1 (by decide)).length_bytes
    have hlast : w.bytes[31]? = some b := by
      have : (w.bytes.drop 31)[0]? = some b := by
        rw [show w.bytes.drop 31 = [b] from hb]
        rfl
      rwa [List.getElem?_drop] at this
    have hvalue : w.value = Bytes.value (w.bytes.take 31) * 256 + b.toNat := by
      rw [value_suffix w (by decide : 1 ≤ 32), Octets.value, hb]
      simp [Bytes.value]
    have hb0 : b.toNat = 0 ↔ b = 0 := by rw [← UInt8.toNat_inj]; rfl
    have hb1 : b.toNat = 1 ↔ b = 1 := by rw [← UInt8.toNat_inj]; rfl
    simp only [convert, Atom.ofWord?, cut_front w (by decide : 31 ≤ 32), hlast, ok_bind]
    cases hs : soiled (w.bytes.take 31) with
    | true =>
      have hne := value_ne_zero_of_soiled hs
      have h0 : w.value ≠ 0 := by omega
      have h1 : w.value ≠ 1 := by omega
      rw [if_neg h0, if_neg h1]
      rfl
    | false =>
      rw [soiled_eq_false_iff_value.mp hs, Nat.zero_mul, Nat.zero_add] at hvalue
      simp only [hvalue, hb0, hb1]
      by_cases h0 : b = 0
      · rw [if_pos h0, if_pos h0]
        rfl
      · rw [if_neg h0, if_neg h0]
        by_cases h1 : b = 1
        · rw [if_pos h1, if_pos h1]
          rfl
        · rw [if_neg h1, if_neg h1]
          rfl

theorem atom_eq (a : Atom) (data : Bytes) (place : Word64) :
    atom a data place = .ok (Reading.atom a data place.toNat) := by
  rw [atom, fetch_eq, Reading.atom]
  cases Reading.word data place.toNat with
  | error e => rfl
  | ok w => exact convert_eq a place w

theorem number_eq (data : Bytes) (place : Word64) (invalid : Nat → DecodeError) :
    number data place invalid =
      .ok ((Reading.number data place.toNat invalid).map (BitVec.ofNat 64)) := by
  rw [number, fetch_eq, Reading.number]
  cases Reading.word data place.toNat with
  | error e => rfl
  | ok w =>
    have hvalue : w.value = Bytes.value (w.bytes.take 24) * Reading.limit +
        (w.suffix 8 (by decide)).value := value_suffix w (by decide : 8 ≤ 32)
    have hlt : (w.suffix 8 (by decide)).value < Reading.limit := Octets.value_lt _
    simp only [Except.map, cut_front w (by decide : 24 ≤ 32), ok_bind]
    cases hs : soiled (w.bytes.take 24) with
    | true =>
      have hne := value_ne_zero_of_soiled hs
      have hge : ¬w.value < Reading.limit := by
        have := Nat.le_mul_of_pos_left Reading.limit (Nat.pos_of_ne_zero hne)
        omega
      rw [if_neg hge]
      rfl
    | false =>
      rw [soiled_eq_false_iff_value.mp hs, Nat.zero_mul, Nat.zero_add] at hvalue
      rw [hvalue, if_pos hlt]
      simp only [cut_back w (by decide : 24 ≤ 32), ok_bind, exactly_back w (by decide : 8 ≤ 32)]
      rfl

theorem number_of_ok {data : Bytes} {place n : Nat} {invalid : Nat → DecodeError}
    (h : Reading.number data place invalid = .ok n) : (BitVec.ofNat 64 n).toNat = n := by
  obtain ⟨w, -, hlt, rfl⟩ := Reading.number_eq_ok_iff.mp h
  exact Nat.mod_eq_of_lt hlt

section

variable {data : Bytes} (short : data.length < Bytes.bufferLimit)
include short

theorem items_eq (a : Atom) {start : Word64} {n : Nat} {i : Word64}
    (room : start.toNat + (i.toNat + n) * 32 ≤ data.length) :
    items a data start n i =
      .ok (Reading.items a data n (start.toNat + i.toNat * 32)) := by
  have hlimit : Bytes.bufferLimit < 2 ^ 64 := by decide
  have h1 : (1 : Word64).toNat = 1 := rfl
  induction n generalizing i with
  | zero => rfl
  | succ n ih =>
    obtain ⟨step, hstep, hstep'⟩ : ∃ step, Word.mul? i 32 = some step ∧
        step.toNat = i.toNat * 32 := by
      have hc : Word.ofNat? 64 (i.toNat * 32) = some (BitVec.ofNat 64 (i.toNat * 32)) :=
        if_pos (by omega)
      exact ⟨_, hc, Word.ofNat?_eq_some_iff.mp hc⟩
    obtain ⟨place, hplace, hplace'⟩ := Word.exists_add start step (by omega)
    obtain ⟨next, hnext, hnext'⟩ := Word.exists_add i 1 (by omega)
    rw [h1] at hnext'
    have hrest := ih (i := next) (by omega)
    rw [hnext', Nat.add_mul, ← Nat.add_assoc] at hrest
    simp only [items, Reading.items, hstep, hplace, hnext, orOverflow, ok_bind, atom_eq, hplace',
      hstep']
    cases Reading.atom a data (start.toNat + i.toNat * 32) with
    | error e => rfl
    | ok x =>
      simp only [hrest, ok_bind]
      rfl

theorem array_eq (a : Atom) (place : Word64) :
    array a data place = .ok (Reading.array a data place.toNat) := by
  have hlimit : Bytes.bufferLimit < 2 ^ 64 := by decide
  have h32 : (32 : Word64).toNat = 32 := rfl
  simp only [array, number_eq, ok_bind, Reading.array]
  cases hn : Reading.number data place.toNat .invalidLength with
  | error e => rfl
  | ok n =>
    have hend := Reading.end_le_of_number hn
    have hn64 := number_of_ok hn
    have hlen : (BitVec.ofNat 64 data.length).toNat = data.length :=
      Nat.mod_eq_of_lt (by omega)
    obtain ⟨start, hstart, hstart'⟩ := Word.exists_add place 32 (by omega)
    rw [h32] at hstart'
    obtain ⟨room, hroom, hroom'⟩ : ∃ room,
        Word.sub? (BitVec.ofNat 64 data.length) start = some room ∧
          room.toNat = data.length - (place.toNat + 32) := by
      refine ⟨_, if_pos (BitVec.le_def.mpr (by omega)), ?_⟩
      rw [BitVec.toNat_sub_of_le (BitVec.le_def.mpr (by omega)), hlen, hstart']
    have hfull : room / 32 < BitVec.ofNat 64 n ↔
        ¬n ≤ (data.length - (place.toNat + 32)) / 32 := by
      rw [BitVec.lt_def, BitVec.toNat_udiv, hn64, hroom', h32, Nat.not_le]
    simp only [Except.map, hstart, hroom, orOverflow, ok_bind, hfull]
    by_cases hle : n ≤ (data.length - (place.toNat + 32)) / 32
    · have h0 : (0 : Word64).toNat = 0 := rfl
      have hitems : items a data start n 0 = _ := items_eq short a (by omega)
      rw [hstart', h0, Nat.zero_mul, Nat.add_zero] at hitems
      simp only [hle, not_true, if_false, if_true, hn64]
      exact hitems
    · simp only [hle, not_false_iff, if_true, if_false]
      rfl

end

theorem destination_eq (data : Bytes) (start place : Word64) :
    destination data start place =
      .ok ((Reading.destination data start.toNat place.toNat).map (BitVec.ofNat 64)) := by
  simp only [destination, number_eq, ok_bind, Reading.destination]
  cases hn : Reading.number data place.toNat .invalidOffset with
  | error e => rfl
  | ok offset =>
    have hadd : Word.add? start (BitVec.ofNat 64 offset) =
        Word.ofNat? 64 (start.toNat + offset) := by
      rw [Word.add?, number_of_ok hn]
    simp only [Except.map, hadd]
    by_cases hlt : start.toNat + offset < Reading.limit
    · have hword : start.toNat + offset < 2 ^ 64 := hlt
      rw [if_pos hlt, Word.ofNat?, if_pos hword]
      rfl
    · have hword : ¬start.toNat + offset < 2 ^ 64 := hlt
      rw [if_neg hlt, Word.ofNat?, if_neg hword]
      rfl

theorem locate_eq (data : Bytes) (t : Ty) (start place : Word64) :
    locate data t start place = .ok ((if t.isDynamic then
      Reading.destination data start.toNat place.toNat else .ok place.toNat).map
        (BitVec.ofNat 64)) := by
  unfold locate
  cases t.isDynamic with
  | true => exact destination_eq data start place
  | false => simp [Except.map]

mutual

theorem headSize_eq : ∀ {t : Ty}, t.headSize < 0x10000000000000000 →
    headSize t = .ok (BitVec.ofNat 64 t.headSize)
  | .atom _, _ => by simp [headSize, Ty.headSize]
  | .array _, _ => by simp [headSize, Ty.headSize]
  | .tuple members, h => by
    simp only [headSize, Ty.headSize] at h ⊢
    split
    · rfl
    · rename_i hd
      rw [if_neg hd] at h
      have hsum : headSizes 0 members = _ := headSizes_eq (by simpa using h)
      simpa using hsum

theorem headSizes_eq : ∀ {ts : List Ty} {sum : Word64},
    sum.toNat + Ty.headSizes ts < 0x10000000000000000 →
      headSizes sum ts = .ok (BitVec.ofNat 64 (sum.toNat + Ty.headSizes ts))
  | [], sum, _ => by simp [headSizes, Ty.headSizes]
  | t :: ts, sum, h => by
    rw [Ty.headSizes] at h
    have hsize : (BitVec.ofNat 64 t.headSize).toNat = t.headSize :=
      Nat.mod_eq_of_lt (by omega)
    obtain ⟨next, hnext, hnext'⟩ :=
      Word.exists_add sum (BitVec.ofNat 64 t.headSize) (by omega)
    rw [hsize] at hnext'
    simp only [headSizes, headSize_eq (t := t) (by omega), ok_bind, hnext, orOverflow]
    rw [headSizes_eq (by omega), hnext', Ty.headSizes, Nat.add_assoc]

end

mutual

theorem value_eq {data : Bytes} (short : data.length < Bytes.bufferLimit) :
    ∀ (t : Ty) (place : Word64),
      value data t place = .ok (Reading.value data t place.toNat)
  | .atom a, place => by
    simp only [value, Reading.value, atom_eq, ok_bind]
    rfl
  | .array a, place => by
    simp only [value, Reading.value, array_eq short, ok_bind]
    rfl
  | .tuple members, place => by
    simp only [value, Reading.value, sequence_eq short members, ok_bind]
    rfl

theorem sequence_eq {data : Bytes} (short : data.length < Bytes.bufferLimit) :
    ∀ (ts : List Ty) (start place : Word64),
      sequence data ts start place = .ok (Reading.sequence data ts start.toNat place.toNat)
  | [], _, _ => by simp only [sequence, Reading.sequence]
  | t :: ts, start, place => by
    have hlimit : Bytes.bufferLimit < 2 ^ 64 := by decide
    simp only [sequence, Reading.sequence, locate_eq, ok_bind]
    cases hloc : (if t.isDynamic then Reading.destination data start.toNat place.toNat
      else .ok place.toNat) with
    | error e => rfl
    | ok here =>
      have located := Reading.located_iff.mp hloc
      have hhere : (BitVec.ofNat 64 here).toNat = here :=
        Nat.mod_eq_of_lt (located.lt_limit place.isLt)
      simp only [Except.map, value_eq short t, ok_bind, hhere]
      cases hv : Reading.value data t here with
      | error e => rfl
      | ok v =>
        have hslot := Reading.covered_slot located hv
        have hfit : place.toNat + t.headSize < 2 ^ 64 := by
          have := place.isLt
          unfold Reading.Covered at hslot
          omega
        have hsize : (BitVec.ofNat 64 t.headSize).toNat = t.headSize :=
          Nat.mod_eq_of_lt (by omega)
        obtain ⟨next, hnext, hnext'⟩ :=
          Word.exists_add place (BitVec.ofNat 64 t.headSize) (by omega)
        rw [hsize] at hnext'
        simp only [headSize_eq (t := t) (by omega), hnext, orOverflow, ok_bind,
          sequence_eq short ts, hnext']
        rfl

end

theorem decode_eq {data : Bytes} (short : data.length < Bytes.bufferLimit) (schema : List Ty) :
    decode schema data = .ok (Abi.decode schema data) := by
  unfold decode Abi.decode
  split
  · rfl
  · exact sequence_eq short schema 0 0

theorem decode_never_traps_nor_swells (schema : List Ty) (data : Bytes)
    (short : data.length < Bytes.bufferLimit) :
    decode schema data = .ok (Abi.decode schema data) ∧
    ∀ vs : List Value, Abi.decode schema data = .ok vs →
      vs.length = schema.length ∧ Value.conformsAll vs schema = true ∧
        Value.WithinAll (data.length / 32) vs ∧
        Value.itemsAll vs ≤ Ty.arraysAll schema * (data.length / 32) := by
  refine ⟨decode_eq short schema, ?_⟩
  intro vs h
  have conforms := conformsAll_of_decode h
  have within := withinAll_of_decode h
  exact ⟨Value.length_eq_of_conformsAll conforms, conforms, within,
    Value.itemsAll_le conforms within⟩

-- An offset to the last place of all, where an empty tuple is read without a look at the data.
def cornered : Bytes :=
  Bytes.ofNat 32 0xffffffffffffffff

theorem decode_cornered : Abi.decode [.tuple [.tuple [], .array .uint]] cornered =
    .error (.endOfBuffer 0xffffffffffffffff) := by
  have outer : Reading.destination cornered 0 0 = .ok (0 + 0xffffffffffffffff) :=
    Reading.destination_of_lies List.prefix_rfl (by decide) (by decide)
  have inner : Reading.destination cornered 0xffffffffffffffff 0xffffffffffffffff =
      .error (.endOfBuffer 0xffffffffffffffff) := by
    have hword : Reading.word cornered 0xffffffffffffffff =
        .error (.endOfBuffer 0xffffffffffffffff) := if_neg (by decide)
    rw [Reading.destination, Reading.number, hword]
  rw [Abi.decode, if_neg (by decide +kernel)]
  simp [Reading.sequence, Reading.value, Ty.isDynamic, Ty.anyDynamic, Ty.headSize, Ty.headSizes,
    outer, inner, Except.map]

def flagged : Bytes :=
  Layout.sequence [.tuple [.array .bool]] [.tuple [.array .bool [true, false]]]

theorem decode_flagged : Abi.decode [.tuple [.array .bool]] flagged =
    .ok [.tuple [.array .bool [true, false]]] := by
  have h : Abi.decode [.tuple [.array .bool]] (flagged ++ []) = _ :=
    decode_layout rfl (by decide +kernel) []
  rwa [List.append_nil, ← flagged, if_neg (by decide +kernel)] at h

theorem last_place_is_no_trap :
    cornered.length < Bytes.bufferLimit ∧
    decode [.tuple [.tuple [], .array .uint]] cornered =
      .ok (.error (.endOfBuffer 0xffffffffffffffff)) ∧
    flagged.length < Bytes.bufferLimit ∧
    Value.WithinAll (flagged.length / 32) [.tuple [.array .bool [true, false]]] ∧
    Value.itemsAll [.tuple [.array .bool [true, false]]] ≤
      Ty.arraysAll [.tuple [.array .bool]] * (flagged.length / 32) := by
  have short : cornered.length < Bytes.bufferLimit := by decide +kernel
  have short' : flagged.length < Bytes.bufferLimit := by decide +kernel
  obtain ⟨-, -, within, few⟩ :=
    (decode_never_traps_nor_swells _ _ short').2 _ decode_flagged
  refine ⟨short, ?_, short', within, few⟩
  rw [(decode_never_traps_nor_swells _ _ short).1, decode_cornered]

end Abi.Machine

end StakedChain
