import StakedChain.Proofs.Block.RlpReader

namespace StakedChain

namespace Bytes

attribute [local instance (2000)] instPowNat

theorem width_value {bs : Bytes} (h : bs.head? ≠ some 0) : width (value bs) = bs.length := by
  apply Nat.le_antisymm (width_le (value_lt bs))
  cases bs with
  | nil => exact Nat.zero_le _
  | cons b bs =>
    have hb : 0 < b.toNat := by
      refine Nat.pos_of_ne_zero fun hz => h ?_
      rw [List.head?_cons, (UInt8.toNat_inj.mp hz : b = 0)]
    have hlow : 256 ^ bs.length ≤ value (b :: bs) := by
      rw [value]
      exact Nat.le_trans (Nat.le_mul_of_pos_left _ hb) (Nat.le_add_right _ _)
    refine Nat.lt_of_not_le fun hle => ?_
    have hhigh := lt_pow_width (value (b :: bs))
    have := Nat.pow_le_pow_right (by decide : 0 < 256) hle
    omega

theorem minimal_value {bs : Bytes} (h : bs.head? ≠ some 0) : minimal (value bs) = bs := by
  rw [minimal, width_value h, ofNat_value]

end Bytes

namespace Block.Rlp

theorem of_size? {count size : Nat} {bs rest : Bytes} (h : size? count bs = some (size, rest)) :
    55 < size ∧ Bytes.width size = count ∧ Bytes.minimal size ++ rest = bs := by
  unfold size? at h
  split at h
  · rename_i hsize
    obtain ⟨hcount, hhead, hlong⟩ := hsize
    cases h
    refine ⟨hlong, ?_, ?_⟩
    · rw [Bytes.width_value hhead, List.length_take, Nat.min_eq_left hcount]
    · rw [Bytes.minimal_value hhead, List.take_append_drop]
  · cases h

theorem header_of_short {mark size : Nat} {b : UInt8} (hb : b.toNat = mark + size)
    (h : size ≤ 55) : header mark size = [b] := by
  rw [header, if_pos h, ← hb, UInt8.ofNat_toNat]

theorem header_of_long {mark count size : Nat} {b : UInt8} {rest bs : Bytes}
    (hb : b.toNat = mark + 55 + count) (h : size? count bs = some (size, rest)) :
    header mark size ++ rest = b :: bs := by
  obtain ⟨hlong, rfl, rfl⟩ := of_size? h
  rw [header, if_neg (Nat.not_le.mpr hlong), ← hb, UInt8.ofNat_toNat, List.cons_append]

theorem list_of_mark? {bs rest : Bytes} {size : Nat} (h : mark? bs = some (true, size, rest)) :
    header 192 size ++ rest = bs := by
  cases bs with
  | nil => cases h
  | cons b bs =>
    simp only [mark?] at h
    repeat' split at h
    · cases h
    · cases h
    · cases h
    · simp at h
    · simp only [Option.some.injEq, Prod.mk.injEq, true_and] at h
      obtain ⟨rfl, rfl⟩ := h
      rw [header_of_short (b := b) (by omega) (by omega), List.singleton_append]
    · simp only [Option.map_eq_some_iff, Prod.mk.injEq, true_and, Prod.exists] at h
      obtain ⟨_, _, h, rfl, rfl⟩ := h
      exact header_of_long (by omega) h

theorem octets_of_mark? {bs rest : Bytes} {size : Nat} (h : mark? bs = some (false, size, rest))
    (fits : size ≤ rest.length) : octets (rest.take size) ++ rest.drop size = bs := by
  have hlength : (rest.take size).length = size := by
    rw [List.length_take, Nat.min_eq_left fits]
  cases bs with
  | nil => cases h
  | cons b bs =>
    simp only [mark?] at h
    repeat' split at h
    · rename_i hb
      cases h
      have hlt : b < 128 := hb
      simp [octets, hlt]
    · cases h
    · rename_i hone
      simp only [Option.some.injEq, Prod.mk.injEq, true_and] at h
      obtain ⟨rfl, rfl⟩ := h
      rw [octets_eq_header, hlength, header_of_short (b := b) (by omega) (by omega),
        List.append_assoc, List.take_append_drop, List.singleton_append]
      intro c hc hlt
      have hsize : b.toNat - 128 = 1 := by
        rw [← hlength, hc, List.length_singleton]
      have hhead : bs.head? = some c := by
        rw [hsize] at hc
        have := congrArg List.head? hc
        rwa [List.head?_take, if_neg Nat.one_ne_zero] at this
      exact hone ⟨by omega, by rw [hhead]; simpa using hlt⟩
    · simp only [Option.map_eq_some_iff, Prod.mk.injEq, true_and, Prod.exists] at h
      obtain ⟨_, _, h, rfl, rfl⟩ := h
      rw [octets_eq_header, hlength, List.append_assoc, List.take_append_drop]
      · exact header_of_long (by omega) h
      · intro c hc
        have hone := congrArg List.length hc
        rw [hlength, List.length_singleton] at hone
        have := (of_size? h).1
        omega
    · cases h
    · simp at h

mutual

theorem encode_of_item? : ∀ {fuel : Nat} {bs rest : Bytes} {item : Item},
    item? fuel bs = some (item, rest) → encode item ++ rest = bs
  | 0, _, _, _, h => by cases h
  | fuel + 1, bs, rest, item, h => by
    simp only [item?] at h
    split at h
    · cases h
    · rename_i nested size payload hmark
      split at h
      · cases h
      · rename_i hfits
        cases nested with
        | false =>
          cases h
          exact octets_of_mark? hmark (Nat.le_of_not_lt hfits)
        | true =>
          simp only [if_true, Option.map_eq_some_iff, Prod.mk.injEq] at h
          obtain ⟨items, hitems, rfl, rfl⟩ := h
          have hpayload := encodeAll_of_items? hitems
          rw [encode, hpayload, List.length_take, Nat.min_eq_left (Nat.le_of_not_lt hfits),
            List.append_assoc, List.take_append_drop, list_of_mark? hmark]

theorem encodeAll_of_items? : ∀ {fuel : Nat} {bs : Bytes} {items : List Item},
    items? fuel bs = some items → encodeAll items = bs
  | 0, _, _, h => by cases h
  | _ + 1, [], _, h => by
    cases h
    rfl
  | fuel + 1, b :: bs, items, h => by
    simp only [items?] at h
    split at h
    · cases h
    · rename_i item rest hitem
      obtain ⟨others, hrest, rfl⟩ := Option.map_eq_some_iff.mp h
      rw [encodeAll, encodeAll_of_items? hrest, encode_of_item? hitem]

end

theorem read_eq_some_iff {bs : Bytes} {item : Item} (h : bs.length < sizeLimit) :
    read bs = some item ↔ encode item = bs := by
  constructor
  · intro hread
    unfold read at hread
    split at hread
    · rename_i hitem
      cases hread
      rw [← encode_of_item? hitem, List.append_nil]
    · cases hread
  · rintro rfl
    exact read_encode h

end Block.Rlp

end StakedChain
