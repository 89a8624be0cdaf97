import StakedChain.Proofs.Abi.Truncation

namespace StakedChain.Abi

def wordAt (data : Bytes) (place : Nat) : Word256 :=
  BitVec.ofNat 256 (Bytes.value ((data.drop place).take 32))

def row (data : Bytes) (place n : Nat) : List Word256 :=
  (List.range n).map fun i => wordAt data (place + 32 * i)

variable {data : Bytes} {start place n : Nat}

theorem Ty.anyDynamic_replicate (n : Nat) {t : Ty} (h : t.isDynamic = false) :
    anyDynamic (List.replicate n t) = false := by
  induction n with
  | zero => rfl
  | succ n ih => rw [List.replicate_succ, anyDynamic, h, ih, Bool.or_self]

theorem toNat_wordAt (data : Bytes) (place : Nat) :
    (wordAt data place).toNat = Bytes.value ((data.drop place).take 32) := by
  refine Nat.mod_eq_of_lt (Nat.lt_of_lt_of_le (Bytes.value_lt _) ?_)
  exact Nat.pow_le_pow_right (by decide) (List.length_take_le 32 _)

theorem row_succ (data : Bytes) (place n : Nat) :
    row data place (n + 1) = wordAt data place :: row data (place + 32) n := by
  rw [row, List.range_succ_eq_map, List.map_cons, List.map_map, row]
  congr 1
  refine List.map_congr_left fun i _ => ?_
  rw [Function.comp_apply, Nat.mul_succ, Nat.add_comm (32 * i), ← Nat.add_assoc]

namespace Reading

theorem uint_of_fits (hb : place + 32 < limit) (hfit : place + 32 ≤ data.length) :
    atom .uint data place = .ok (wordAt data place) := by
  have hl : ((data.drop place).take 32).length = 32 := by
    rw [List.length_take, List.length_drop]
    omega
  rw [atom, word, if_pos hb, Octets.ofBytes?, dif_pos hl]
  rfl

theorem word_of_short (hshort : data.length < place + 32) :
    word data place = .error (.endOfBuffer place) := by
  have hl : ((data.drop place).take 32).length ≠ 32 := by
    rw [List.length_take, List.length_drop]
    omega
  rw [word, Octets.ofBytes?, dif_neg hl, ite_self]

theorem atom_of_short {a : Atom} (hshort : data.length < place + 32) :
    atom a data place = .error (.endOfBuffer place) := by
  rw [atom, word_of_short hshort]

theorem sequence_row_of_fits (hb : place + 32 * n < limit)
    (hfit : place + 32 * n ≤ data.length) :
    sequence data (List.replicate n (.atom .uint)) start place =
      .ok ((row data place n).map .uint) := by
  induction n generalizing place with
  | zero => rfl
  | succ n ih =>
    have hfirst : atom .uint data place = .ok (wordAt data place) :=
      uint_of_fits (by omega) (by omega)
    have hrest : sequence data (List.replicate n (.atom .uint)) start (place + 32) =
        .ok ((row data (place + 32) n).map .uint) := ih (by omega) (by omega)
    rw [List.replicate_succ, row_succ]
    simp only [sequence, Ty.isDynamic, Bool.false_eq_true, if_false, value, hfirst, Except.map,
      Ty.headSize, hrest, List.map_cons]

theorem sequence_row_of_short (hb : place + 32 * n < limit)
    (hshort : data.length < place + 32 * n) (hn : n ≠ 0) :
    sequence data (List.replicate n (.atom .uint)) start place =
      .error (.endOfBuffer (place + 32 * ((data.length - place) / 32))) := by
  induction n generalizing place with
  | zero => exact absurd rfl hn
  | succ n ih =>
    rw [List.replicate_succ]
    by_cases hfit : place + 32 ≤ data.length
    · have hfirst : atom .uint data place = .ok (wordAt data place) :=
        uint_of_fits (by omega) hfit
      have hrest : sequence data (List.replicate n (.atom .uint)) start (place + 32) =
          .error (.endOfBuffer (place + 32 + 32 * ((data.length - (place + 32)) / 32))) :=
        ih (by omega) (by omega) (by omega)
      have hplace : place + 32 + 32 * ((data.length - (place + 32)) / 32) =
          place + 32 * ((data.length - place) / 32) := by omega
      simp only [sequence, Ty.isDynamic, Bool.false_eq_true, if_false, value, hfirst, Except.map,
        Ty.headSize, hrest, hplace]
    · have hfirst : atom .uint data place = .error (.endOfBuffer place) :=
        atom_of_short (Nat.lt_of_not_le hfit)
      have hplace : place + 32 * ((data.length - place) / 32) = place := by omega
      simp only [sequence, Ty.isDynamic, Bool.false_eq_true, if_false, value, hfirst, Except.map,
        hplace]

end Reading

section

variable (hn : n ≠ 0) (hb : 32 * n < Reading.limit)
include hn hb

theorem sequence_row (data : Bytes) :
    Reading.sequence data (List.replicate n (.atom .uint)) 0 0 =
      if 32 * n ≤ data.length then .ok ((row data 0 n).map .uint)
      else .error (.endOfBuffer (32 * (data.length / 32))) := by
  split
  case isTrue hfit => exact Reading.sequence_row_of_fits (by omega) (by omega)
  case isFalse hshort =>
    rw [Reading.sequence_row_of_short (by omega) (by omega) hn, Nat.zero_add, Nat.sub_zero]

theorem decode_row (data : Bytes) : decode (List.replicate n (.atom .uint)) data =
    if data = [] then .error .empty
    else if 32 * n ≤ data.length then .ok ((row data 0 n).map .uint)
    else .error (.endOfBuffer (32 * (data.length / 32))) := by
  have hne : List.replicate n (Ty.atom .uint) ≠ [] := by
    rwa [Ne, List.replicate_eq_nil_iff]
  rw [decode, sequence_row hn hb]
  simp only [hne, not_false_iff, ne_eq, and_true]

theorem decode_tuple_row (data : Bytes) :
    decode [.tuple (List.replicate n (.atom .uint))] data =
      if data = [] then .error .empty
      else if 32 * n ≤ data.length then .ok [.tuple ((row data 0 n).map .uint)]
      else .error (.endOfBuffer (32 * (data.length / 32))) := by
  have hstatic : (Ty.tuple (List.replicate n (.atom .uint))).isDynamic = false := by
    rw [Ty.isDynamic]
    exact Ty.anyDynamic_replicate n rfl
  rw [decode]
  simp only [Reading.sequence, hstatic, Bool.false_eq_true, if_false, Reading.value,
    sequence_row hn hb, ne_eq, reduceCtorEq, not_false_iff, and_true]
  by_cases hfit : 32 * n ≤ data.length
  · simp only [hfit, if_true, Except.map]
  · simp only [hfit, if_false, Except.map]

end

end StakedChain.Abi
