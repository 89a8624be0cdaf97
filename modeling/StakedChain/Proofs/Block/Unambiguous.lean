import StakedChain.Block.Header
import StakedChain.Proofs.Block.Preimage
import StakedChain.Proofs.Block.RlpCanonical
import StakedChain.Proofs.Block.Sender

namespace StakedChain.Block

namespace Transaction

theorem length_bytes_lt {tx : Transaction} (h : tx.body.data.length < Bytes.bufferLimit) :
    tx.bytes.length < Rlp.sizeLimit :=
  Body.length_sealed_lt h (Rlp.length_words_le (by decide) (by decide) (by decide) tx.v tx.r tx.s)

theorem bytes_inj {a b : Transaction} (ha : a.body.data.length < Bytes.bufferLimit)
    (h : a.bytes = b.bytes) : a = b := by
  have hitems := Rlp.encode_inj (length_bytes_lt ha) h
  injection hitems with hitems
  obtain ⟨hbody, hrest⟩ := Body.eq_of_items hitems
  simp only [List.cons.injEq] at hrest
  obtain ⟨hv, hr, hs, -⟩ := hrest
  cases a
  cases b
  simp only [mk.injEq]
  exact ⟨hbody, BitVec.eq_of_toNat_eq (Rlp.ofNat_inj hv), BitVec.eq_of_toNat_eq (Rlp.ofNat_inj hr),
    BitVec.eq_of_toNat_eq (Rlp.ofNat_inj hs)⟩

def unsigned (body : Body) (chainId : Word64) : Transaction :=
  ⟨body, chainId, 0, 0⟩

theorem bytes_unsigned (body : Body) (chainId : Word64) :
    (unsigned body chainId).bytes = body.signingBytes chainId := rfl

theorem bytes_eq_signingBytes_iff {tx : Transaction} {body : Body} {chainId : Word64}
    (h : tx.body.data.length < Bytes.bufferLimit) :
    tx.bytes = body.signingBytes chainId ↔
      tx.body = body ∧ tx.v = chainId ∧ tx.r = 0 ∧ tx.s = 0 := by
  constructor
  · intro heq
    rw [bytes_inj h (heq.trans (bytes_unsigned body chainId).symm)]
    exact ⟨rfl, rfl, rfl, rfl⟩
  · obtain ⟨_, _, _, _⟩ := tx
    rintro ⟨rfl, rfl, rfl, rfl⟩
    exact bytes_unsigned _ _

theorem sender_unsigned {tx : Transaction} (h : tx.r = 0) (chainId : Word64) :
    tx.sender chainId = .error .invalidSignature := by
  refine sender_of_not_canonical (fun _ canonical => ?_) chainId
  exact Nat.ne_of_gt canonical.1 (congrArg BitVec.toNat h)

end Transaction

namespace Header

theorem length_bytes_lt {header : Header} (h : header.extra.length < Bytes.bufferLimit) :
    header.bytes.length < Rlp.sizeLimit := by
  have hlimit : Bytes.bufferLimit + 400 < Rlp.sizeLimit := by decide
  have h1 := Rlp.length_octets_le header.parentHash.bytes
    (by rw [header.parentHash.length_bytes]; decide)
  have h2 := Rlp.length_octets_le header.coinbase.bytes
    (by rw [header.coinbase.length_bytes]; decide)
  have h3 := Rlp.length_words_le (by decide) (by decide) (by decide) header.number header.gasLimit
    header.timestamp
  have h4 := Rlp.length_octets_le header.extra (by omega)
  rw [header.parentHash.length_bytes] at h1
  rw [header.coinbase.length_bytes] at h2
  apply Rlp.length_list_lt
  simp only [items, Rlp.encodeAll, Rlp.encode, List.length_append, List.length_nil,
    Rlp.Item.ofNat] at h3 ⊢
  omega

theorem bytes_inj {a b : Header} (ha : a.extra.length < Bytes.bufferLimit)
    (h : a.bytes = b.bytes) : a = b := by
  have hitems := Rlp.encode_inj (length_bytes_lt ha) h
  injection hitems with hitems
  simp only [items, List.cons.injEq, Rlp.Item.octets.injEq, and_true] at hitems
  obtain ⟨hparent, hcoinbase, hnumber, hgas, htime, hextra⟩ := hitems
  cases a
  cases b
  simp only [mk.injEq]
  exact ⟨Octets.ext hparent, Octets.ext hcoinbase, BitVec.eq_of_toNat_eq (Rlp.ofNat_inj hnumber),
    BitVec.eq_of_toNat_eq (Rlp.ofNat_inj hgas), BitVec.eq_of_toNat_eq (Rlp.ofNat_inj htime), hextra⟩

end Header

theorem preimages_unambiguous :
    (∀ (a b : Body) (c d : Word64), a.data.length < Bytes.bufferLimit →
      a.signingBytes c = b.signingBytes d → a = b ∧ c = d) ∧
    (∀ a b : Transaction, a.body.data.length < Bytes.bufferLimit → a.bytes = b.bytes → a = b) ∧
    (∀ a b : Header, a.extra.length < Bytes.bufferLimit → a.bytes = b.bytes → a = b) ∧
    (∀ (body : Body) (chainId : Word64), body.data.length < Bytes.bufferLimit →
      Rlp.read (body.signingBytes chainId) =
        some (.list (body.items ++ [.ofNat chainId.toNat, .ofNat 0, .ofNat 0]))) ∧
    (∀ tx : Transaction, tx.body.data.length < Bytes.bufferLimit →
      Rlp.read tx.bytes =
        some (.list (tx.body.items ++ [.ofNat tx.v.toNat, .ofNat tx.r.toNat, .ofNat tx.s.toNat]))) ∧
    (∀ header : Header, header.extra.length < Bytes.bufferLimit →
      Rlp.read header.bytes = some (.list header.items)) ∧
    (∀ (bs : Bytes) (item : Rlp.Item), bs.length < Rlp.sizeLimit →
      (Rlp.read bs = some item ↔ Rlp.encode item = bs)) ∧
    ∀ (tx : Transaction) (body : Body) (chainId : Word64),
      tx.body.data.length < Bytes.bufferLimit →
      (tx.bytes = body.signingBytes chainId ↔
        tx.body = body ∧ tx.v = chainId ∧ tx.r = 0 ∧ tx.s = 0) ∧
      (tx.bytes = body.signingBytes chainId →
        ∀ other, tx.sender other = .error .invalidSignature) := by
  refine ⟨fun _ _ _ _ => Body.signingBytes_inj, fun _ _ => Transaction.bytes_inj,
    fun _ _ => Header.bytes_inj,
    fun _ chainId short => Rlp.read_encode (Body.length_signingBytes_lt short chainId),
    fun _ short => Rlp.read_encode (Transaction.length_bytes_lt short),
    fun _ short => Rlp.read_encode (Header.length_bytes_lt short),
    fun _ _ => Rlp.read_eq_some_iff, fun tx body chainId short => ?_⟩
  have hiff : tx.bytes = body.signingBytes chainId ↔
      tx.body = body ∧ tx.v = chainId ∧ tx.r = 0 ∧ tx.s = 0 :=
    Transaction.bytes_eq_signingBytes_iff short
  refine ⟨hiff, fun heq => ?_⟩
  obtain ⟨-, -, hr, -⟩ := hiff.mp heq
  exact Transaction.sender_unsigned hr

namespace Trial

-- The data is longer than what one octet can announce.
def notice : Body :=
  ⟨0, 0, 128, .zero 20, 1, List.replicate 60 7⟩

theorem notice_is_no_transaction : notice.data.length < Bytes.bufferLimit ∧
    Rlp.read (notice.signingBytes 7) =
      some (.list (notice.items ++ [.ofNat 7, .ofNat 0, .ofNat 0])) ∧
    (Transaction.unsigned notice 7).bytes = notice.signingBytes 7 ∧
    ∀ other, (Transaction.unsigned notice 7).sender other = .error .invalidSignature := by
  have short : notice.data.length < Bytes.bufferLimit := by decide
  obtain ⟨-, -, -, parsed, -, -, -, taken⟩ := preimages_unambiguous
  obtain ⟨same, unusable⟩ := taken (.unsigned notice 7) notice 7 short
  have heq := same.mpr ⟨rfl, rfl, rfl, rfl⟩
  exact ⟨short, parsed notice 7 short, heq, unusable heq⟩

end Trial

end StakedChain.Block
