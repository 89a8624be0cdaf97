import StakedChain.Block.Transaction
import StakedChain.Proofs.Abi.Extent
import StakedChain.Proofs.Block.RlpReader

namespace StakedChain.Block

theorem Rlp.length_list_lt {items : List Item} (h : (encodeAll items).length + 9 < sizeLimit) :
    (encode (.list items)).length < sizeLimit := by
  have hh := length_header_le 192 (by omega : (encodeAll items).length < sizeLimit)
  rw [encode, List.length_append]
  omega

theorem Rlp.length_words_le {u v w : Nat} (hu : u ≤ 256) (hv : v ≤ 256) (hw : w ≤ 256)
    (x : BitVec u) (y : BitVec v) (z : BitVec w) :
    (encodeAll [.ofNat x.toNat, .ofNat y.toNat, .ofNat z.toNat]).length ≤ 123 := by
  have hx := length_encode_word hu x
  have hy := length_encode_word hv y
  have hz := length_encode_word hw z
  simp only [encodeAll, List.length_append, List.length_nil]
  omega

namespace Body

theorem length_items_le {body : Body} (h : body.data.length < Bytes.bufferLimit) :
    (Rlp.encodeAll body.items).length ≤ body.data.length + 250 := by
  have h1 := Rlp.length_encode_word (by decide) body.nonce
  have h2 := Rlp.length_encode_word (by decide) body.gasPrice
  have h3 := Rlp.length_encode_word (by decide) body.gas
  have h4 := Rlp.length_encode_word (by decide) body.value
  have hlimit : Bytes.bufferLimit < Rlp.sizeLimit := by decide
  have h5 := Rlp.length_octets_le body.data (by omega)
  have h6 := Rlp.length_octets_le body.target.bytes (by rw [body.target.length_bytes]; decide)
  rw [body.target.length_bytes] at h6
  simp only [items, Rlp.encodeAll, Rlp.encode, List.length_append, List.length_nil,
    Rlp.Item.ofNat] at h1 h2 h3 h4 ⊢
  omega

theorem length_sealed_lt {body : Body} (h : body.data.length < Bytes.bufferLimit)
    {tail : List Rlp.Item} (ht : (Rlp.encodeAll tail).length ≤ 123) :
    (Rlp.encode (.list (body.items ++ tail))).length < Rlp.sizeLimit := by
  have hi := length_items_le h
  have hlimit : Bytes.bufferLimit + 400 < Rlp.sizeLimit := by decide
  apply Rlp.length_list_lt
  rw [Rlp.encodeAll_append, List.length_append]
  omega

theorem length_signingBytes_lt {body : Body} (h : body.data.length < Bytes.bufferLimit)
    (chainId : Word64) : (body.signingBytes chainId).length < Rlp.sizeLimit :=
  length_sealed_lt h (Rlp.length_words_le (by decide) (by decide) (by decide) chainId
    (0 : Word256) (0 : Word256))

theorem eq_of_items {a b : Body} {xs ys : List Rlp.Item}
    (h : a.items ++ xs = b.items ++ ys) : a = b ∧ xs = ys := by
  simp only [items, List.cons_append, List.nil_append, List.cons.injEq] at h
  obtain ⟨h1, h2, h3, h4, h5, h6, hxs⟩ := h
  cases a
  cases b
  simp only [mk.injEq]
  injection h4 with h4
  injection h6 with h6
  exact ⟨⟨BitVec.eq_of_toNat_eq (Rlp.ofNat_inj h1), BitVec.eq_of_toNat_eq (Rlp.ofNat_inj h2),
    BitVec.eq_of_toNat_eq (Rlp.ofNat_inj h3), Octets.ext h4,
    BitVec.eq_of_toNat_eq (Rlp.ofNat_inj h5), h6⟩, hxs⟩

-- The bound on one side is enough: equal preimages are equally long.
theorem signingBytes_inj {a b : Body} {c d : Word64} (ha : a.data.length < Bytes.bufferLimit)
    (h : a.signingBytes c = b.signingBytes d) : a = b ∧ c = d := by
  have hitems := Rlp.encode_inj (length_signingBytes_lt ha c) h
  injection hitems with hitems
  obtain ⟨hbody, hrest⟩ := eq_of_items hitems
  simp only [List.cons.injEq] at hrest
  exact ⟨hbody, BitVec.eq_of_toNat_eq (Rlp.ofNat_inj hrest.1)⟩

def Collide (chainId : Word64) (a b : Body) : Prop :=
  a.signingBytes chainId ≠ b.signingBytes chainId ∧ a.signingHash chainId = b.signingHash chainId

theorem eq_of_signingHash {a b : Body} {chainId : Word64}
    (hb : b.data.length < Bytes.bufferLimit) (free : ¬ Collide chainId a b)
    (h : a.signingHash chainId = b.signingHash chainId) : a = b := by
  have hbytes : a.signingBytes chainId = b.signingBytes chainId := by
    refine Decidable.byContradiction fun hne => ?_
    exact free ⟨hne, h⟩
  exact (signingBytes_inj hb hbytes.symm).1.symm

end Body

end StakedChain.Block
