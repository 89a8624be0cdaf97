import StakedChain.Block.Rlp

namespace StakedChain

namespace Bytes

attribute [local instance (2000)] instPowNat

theorem pow_256 (k : Nat) : 256 ^ k = 2 ^ (8 * k) :=
  (Nat.pow_mul 2 8 k).symm

theorem lt_pow_width (n : Nat) : n < 256 ^ width n := by
  unfold width
  split
  · rename_i h
    subst h
    decide
  · rw [pow_256]
    calc n < 2 ^ (n.log2 + 1) := Nat.lt_log2_self
      _ ≤ 2 ^ (8 * (n.log2 / 8 + 1)) := Nat.pow_le_pow_right (by decide) (by omega)

theorem width_le {n k : Nat} (h : n < 256 ^ k) : width n ≤ k := by
  unfold width
  split
  · exact Nat.zero_le k
  · rename_i hn
    rw [pow_256] at h
    have := (Nat.log2_lt hn).mpr h
    omega

theorem width_pos {n : Nat} (h : n ≠ 0) : 0 < width n := by
  simp [width, h]

theorem length_minimal (n : Nat) : (minimal n).length = width n :=
  length_ofNat _ _

theorem value_minimal (n : Nat) : value (minimal n) = n := by
  rw [minimal, value_ofNat]
  exact Nat.mod_eq_of_lt (lt_pow_width n)

theorem head?_minimal (n : Nat) : (minimal n).head? ≠ some 0 := by
  by_cases h : n = 0
  · subst h
    decide
  · have hw : width n = n.log2 / 8 + 1 := if_neg h
    have hlow : 256 ^ (n.log2 / 8) ≤ n := by
      rw [pow_256]
      exact (Nat.le_log2 h).mp (by omega)
    have hhigh := lt_pow_width n
    rw [hw, Nat.pow_succ] at hhigh
    have hd : n / 256 ^ (n.log2 / 8) < 256 := Nat.div_lt_of_lt_mul hhigh
    have hp : 0 < n / 256 ^ (n.log2 / 8) :=
      Nat.div_pos hlow (Nat.pow_pos (by decide))
    simp only [minimal, hw, ofNat, List.head?_cons, ne_eq, Option.some.injEq]
    intro hz
    have := congrArg UInt8.toNat hz
    simp only [UInt8.toNat_ofNat'] at this
    change _ = 0 at this
    omega

end Bytes

namespace Block.Rlp

def size? (count : Nat) (bs : Bytes) : Option (Nat × Bytes) :=
  if count ≤ bs.length ∧ (bs.take count).head? ≠ some 0 ∧ 55 < Bytes.value (bs.take count) then
    some (Bytes.value (bs.take count), bs.drop count)
  else none

-- Whether an item is a list, the size of its payload, and the octets from there on.
def mark? : Bytes → Option (Bool × Nat × Bytes)
  | [] => none
  | b :: rest =>
    if b.toNat < 128 then some (false, 1, b :: rest)
    else if b.toNat < 184 then
      if b.toNat = 129 ∧ rest.head?.any (· < 128) then none
      else some (false, b.toNat - 128, rest)
    else if b.toNat < 192 then (size? (b.toNat - 183) rest).map (false, ·)
    else if b.toNat < 248 then some (true, b.toNat - 192, rest)
    else (size? (b.toNat - 247) rest).map (true, ·)

mutual

def item? : Nat → Bytes → Option (Item × Bytes)
  | 0, _ => none
  | fuel + 1, bs =>
    match mark? bs with
    | none => none
    | some (nested, size, rest) =>
      if rest.length < size then none
      else if nested then
        (items? fuel (rest.take size)).map fun items => (.list items, rest.drop size)
      else some (.octets (rest.take size), rest.drop size)

def items? : Nat → Bytes → Option (List Item)
  | 0, _ => none
  | _ + 1, [] => some []
  | fuel + 1, b :: bs =>
    match item? fuel (b :: bs) with
    | none => none
    | some (item, rest) => (items? fuel rest).map (item :: ·)

end

-- Every step but the entry into a list takes an octet, so twice the length is enough.
def read (bs : Bytes) : Option Item :=
  match item? (2 * bs.length) bs with
  | some (item, []) => some item
  | _ => none

def sizeLimit : Nat := 0x10000000000000000

theorem size?_minimal {size : Nat} (h : 55 < size) (rest : Bytes) :
    size? (Bytes.width size) (Bytes.minimal size ++ rest) = some (size, rest) := by
  have hl := Bytes.length_minimal size
  have ht : (Bytes.minimal size ++ rest).take (Bytes.width size) = Bytes.minimal size :=
    List.take_left' hl
  have hd : (Bytes.minimal size ++ rest).drop (Bytes.width size) = rest := List.drop_left' hl
  have hle : Bytes.width size ≤ (Bytes.minimal size ++ rest).length := by
    rw [List.length_append, hl]
    omega
  rw [size?, ht, hd, Bytes.value_minimal, if_pos ⟨hle, Bytes.head?_minimal size, h⟩]

theorem mark?_octets {size : Nat} {rest : Bytes} (hs : size < sizeLimit)
    (h1 : size = 1 → rest.head?.any (· < 128) = false) :
    mark? (header 128 size ++ rest) = some (false, size, rest) := by
  unfold header
  split
  · rename_i hle
    have hb : (UInt8.ofNat (128 + size)).toNat = 128 + size := by
      simp only [UInt8.toNat_ofNat']
      omega
    have hone : ¬(128 + size = 129 ∧ rest.head?.any (· < 128) = true) := by
      rintro ⟨he, hany⟩
      rw [h1 (by omega)] at hany
      cases hany
    simp only [List.singleton_append, mark?, hb, if_neg (by omega : ¬128 + size < 128),
      if_pos (by omega : 128 + size < 184), if_neg hone, Nat.add_sub_cancel_left]
  · rename_i hgt
    have hw : Bytes.width size ≤ 8 := Bytes.width_le hs
    have hpos := Bytes.width_pos (n := size) (by omega)
    have hb : (UInt8.ofNat (128 + 55 + Bytes.width size)).toNat = 183 + Bytes.width size := by
      simp only [UInt8.toNat_ofNat']
      omega
    simp only [List.cons_append, mark?, hb, if_neg (by omega : ¬183 + Bytes.width size < 128),
      if_neg (by omega : ¬183 + Bytes.width size < 184),
      if_pos (by omega : 183 + Bytes.width size < 192), Nat.add_sub_cancel_left,
      size?_minimal (by omega : 55 < size), Option.map_some]

theorem mark?_list {size : Nat} {rest : Bytes} (hs : size < sizeLimit) :
    mark? (header 192 size ++ rest) = some (true, size, rest) := by
  unfold header
  split
  · rename_i hle
    have hb : (UInt8.ofNat (192 + size)).toNat = 192 + size := by
      simp only [UInt8.toNat_ofNat']
      omega
    simp only [List.singleton_append, mark?, hb, if_neg (by omega : ¬192 + size < 128),
      if_neg (by omega : ¬192 + size < 184), if_neg (by omega : ¬192 + size < 192),
      if_pos (by omega : 192 + size < 248), Nat.add_sub_cancel_left]
  · rename_i hgt
    have hw : Bytes.width size ≤ 8 := Bytes.width_le hs
    have hpos := Bytes.width_pos (n := size) (by omega)
    have hb : (UInt8.ofNat (192 + 55 + Bytes.width size)).toNat = 247 + Bytes.width size := by
      simp only [UInt8.toNat_ofNat']
      omega
    simp only [List.cons_append, mark?, hb, if_neg (by omega : ¬247 + Bytes.width size < 128),
      if_neg (by omega : ¬247 + Bytes.width size < 184),
      if_neg (by omega : ¬247 + Bytes.width size < 192),
      if_neg (by omega : ¬247 + Bytes.width size < 248), Nat.add_sub_cancel_left,
      size?_minimal (by omega : 55 < size), Option.map_some]

theorem length_header_le {size : Nat} (mark : Nat) (h : size < sizeLimit) :
    (header mark size).length ≤ 9 := by
  unfold header
  split
  · exact Nat.le_add_left 1 8
  · have hw : Bytes.width size ≤ 8 := Bytes.width_le h
    rw [List.length_cons, Bytes.length_minimal]
    omega

theorem length_octets_le (bs : Bytes) (h : bs.length < sizeLimit) :
    (octets bs).length ≤ bs.length + 9 := by
  unfold octets
  split
  · rename_i b
    have := length_header_le 128 h
    simp only [List.length_singleton] at this
    split <;> simp only [List.length_append, List.length_singleton] <;> omega
  · have := length_header_le 128 h
    rw [List.length_append]
    omega

theorem header_ne_nil (mark size : Nat) : header mark size ≠ [] := by
  unfold header
  split <;> exact List.cons_ne_nil _ _

theorem encode_ne_nil (item : Item) : encode item ≠ [] := by
  cases item with
  | octets bs =>
    unfold encode octets
    split
    · split <;> simp
    · simp [header_ne_nil]
  | list items => simp [encode, header_ne_nil]

theorem length_le_octets (bs : Bytes) : bs.length ≤ (octets bs).length := by
  unfold octets
  split
  · split <;> simp
  · simp

theorem octets_eq_header {bs : Bytes} (h : ∀ b, bs = [b] → ¬b < 128) :
    octets bs = header 128 bs.length ++ bs := by
  unfold octets
  split
  · rename_i b
    exact if_neg (h b rfl)
  · rfl

theorem item?_octets {bs : Bytes} (hs : bs.length < sizeLimit) (fuel : Nat) (rest : Bytes) :
    item? (fuel + 1) (octets bs ++ rest) = some (.octets bs, rest) := by
  by_cases hb : ∃ b, bs = [b] ∧ b < 128
  · obtain ⟨b, rfl, hlt⟩ := hb
    have hn : b.toNat < 128 := hlt
    simp [octets, hlt, item?, mark?, hn]
  · have hone : bs.length = 1 → (bs ++ rest).head?.any (· < 128) = false := by
      intro hl
      obtain ⟨b, rfl⟩ := List.length_eq_one_iff.mp hl
      simpa using fun hlt => hb ⟨b, rfl, hlt⟩
    have hfit : ¬(bs ++ rest).length < bs.length := by
      rw [List.length_append]
      omega
    rw [octets_eq_header fun b hbs hlt => hb ⟨b, hbs, hlt⟩, List.append_assoc]
    simp only [item?, mark?_octets hs hone, if_neg hfit, Bool.false_eq_true, if_false,
      List.take_left, List.drop_left]

mutual

theorem item?_encode : ∀ (item : Item) (fuel : Nat) (rest : Bytes),
    (encode item).length < sizeLimit → 2 * (encode item).length ≤ fuel →
      item? fuel (encode item ++ rest) = some (item, rest)
  | .octets bs, fuel, rest, hs, hf => by
    have hpos := List.length_pos_iff.mpr (encode_ne_nil (.octets bs))
    obtain ⟨fuel, rfl⟩ := Nat.exists_eq_add_one_of_ne_zero (by omega : fuel ≠ 0)
    simp only [encode] at hs ⊢
    exact item?_octets (Nat.lt_of_le_of_lt (length_le_octets bs) hs) fuel rest
  | .list items, fuel, rest, hs, hf => by
    have hpos := List.length_pos_iff.mpr (header_ne_nil 192 (encodeAll items).length)
    simp only [encode, List.length_append] at hs hf
    obtain ⟨fuel, rfl⟩ := Nat.exists_eq_add_one_of_ne_zero (by omega : fuel ≠ 0)
    have hread := items?_encodeAll items fuel (by omega) (by omega)
    have hfit : ¬(encodeAll items ++ rest).length < (encodeAll items).length := by
      rw [List.length_append]
      omega
    rw [encode, List.append_assoc]
    simp only [item?, mark?_list (by omega : (encodeAll items).length < sizeLimit), if_neg hfit,
      if_true, List.take_left, List.drop_left, hread, Option.map_some]

theorem items?_encodeAll : ∀ (items : List Item) (fuel : Nat),
    (encodeAll items).length < sizeLimit → 2 * (encodeAll items).length < fuel →
      items? fuel (encodeAll items) = some items
  | [], fuel, _, hf => by
    obtain ⟨fuel, rfl⟩ := Nat.exists_eq_add_one_of_ne_zero (Nat.ne_zero_of_lt hf)
    simp [encodeAll, items?]
  | item :: rest, fuel, hs, hf => by
    obtain ⟨fuel, rfl⟩ := Nat.exists_eq_add_one_of_ne_zero (Nat.ne_zero_of_lt hf)
    have hpos := List.length_pos_iff.mpr (encode_ne_nil item)
    simp only [encodeAll, List.length_append] at hs hf
    have hitem := item?_encode item fuel (encodeAll rest) (by omega) (by omega)
    have hrest := items?_encodeAll rest fuel (by omega) (by omega)
    obtain ⟨b, bs, hcons⟩ := List.exists_cons_of_ne_nil
      (List.append_ne_nil_of_left_ne_nil (encode_ne_nil item) (encodeAll rest))
    rw [encodeAll, hcons]
    rw [hcons] at hitem
    simp only [items?, hitem, hrest, Option.map_some]

end

theorem read_encode {item : Item} (h : (encode item).length < sizeLimit) :
    read (encode item) = some item := by
  have hitem := item?_encode item _ [] h (Nat.le_refl _)
  rw [List.append_nil] at hitem
  simp only [read, hitem]

theorem encode_inj {a b : Item} (ha : (encode a).length < sizeLimit)
    (h : encode a = encode b) : a = b := by
  have hread := read_encode ha
  rw [h, read_encode (h ▸ ha)] at hread
  exact (Option.some.inj hread).symm

theorem ofNat_inj {m n : Nat} (h : Item.ofNat m = Item.ofNat n) : m = n := by
  injection h with h
  rw [← Bytes.value_minimal m, h, Bytes.value_minimal]

theorem length_encode_word {w : Nat} (hw : w ≤ 256) (x : BitVec w) :
    (encode (.ofNat x.toNat)).length ≤ 41 := by
  have hx : x.toNat < 256 ^ 32 :=
    Nat.lt_of_lt_of_le x.isLt (Nat.pow_le_pow_right (by decide) hw)
  have hwidth := Bytes.width_le hx
  rw [← Bytes.length_minimal] at hwidth
  have := length_octets_le (Bytes.minimal x.toNat) (by unfold sizeLimit; omega)
  simp only [Item.ofNat, encode]
  omega

end Block.Rlp

end StakedChain
