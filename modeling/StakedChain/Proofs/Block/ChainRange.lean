import StakedChain.Proofs.Block.ChainBinding

namespace StakedChain

theorem Signature.recover_eq_invalid_iff {digest : Hash} {sig : Signature} :
    sig.recover digest = .error .invalidSignature ↔ ¬sig.Canonical := by
  unfold recover
  by_cases canonical : sig.Canonical
  · rw [if_pos canonical]
    cases sig.publicKey? (Curve.Scalar.ofHash digest) with
    | some key => simp only [reduceCtorEq, canonical, not_true]
    | none => simp only [Except.error.injEq, reduceCtorEq, canonical, not_true]
  · simp only [canonical, if_false, not_false_iff]

namespace Block

variable {chainId : Word64} {tx : Transaction}

theorem Body.attach_of_beyond (body : Body) (sig : Signature) (beyond : maxChainId < chainId) :
    body.attach sig chainId = .error .chainIdRange :=
  if_neg (Nat.not_le_of_lt beyond)

namespace Transaction

-- On the first chain out of range the even `v` is the last number there is; the odd one has
-- no room.
structure Strays (tx : Transaction) (chainId : Word64) : Prop where
  chainId : chainId = maxChainId + 1
  v : tx.v = 0xffffffffffffffff
  canonical : Signature.Canonical ⟨tx.r, tx.s, false⟩

theorem parity?_of_beyond (beyond : maxChainId < chainId) {odd : Bool} :
    tx.parity? chainId = some odd ↔
      chainId = maxChainId + 1 ∧ tx.v = 0xffffffffffffffff ∧ odd = false := by
  have hbeyond : 9223372036854775789 < chainId.toNat := beyond
  have hv := tx.v.isLt
  rw [parity?_eq_some_iff]
  constructor
  · intro hparity
    refine ⟨BitVec.eq_of_toNat_eq ?_, BitVec.eq_of_toNat_eq ?_, ?_⟩
    · change _ = 9223372036854775790
      omega
    · change _ = 18446744073709551615
      omega
    · cases odd with
      | false => rfl
      | true =>
        change _ = _ + 1 at hparity
        omega
  · rintro ⟨rfl, hlast, rfl⟩
    rw [hlast]
    rfl

theorem sender_of_beyond (beyond : maxChainId < chainId) (stray : tx.Strays chainId) :
    tx.sender chainId = Signature.recover (tx.body.signingHash chainId) ⟨tx.r, tx.s, false⟩ := by
  have hparity := (parity?_of_beyond beyond).mpr ⟨stray.chainId, stray.v, rfl⟩
  rw [sender, hparity]

theorem sender_eq_invalid_iff_of_beyond (beyond : maxChainId < chainId) :
    tx.sender chainId = .error .invalidSignature ↔ ¬tx.Strays chainId := by
  constructor
  · intro refused stray
    rw [sender_of_beyond beyond stray, Signature.recover_eq_invalid_iff] at refused
    exact refused stray.canonical
  · intro straight
    rcases hparity : tx.parity? chainId with _ | odd
    · exact sender_of_parity_none hparity
    · obtain ⟨hchain, hlast, rfl⟩ := (parity?_of_beyond beyond).mp hparity
      rw [sender, hparity]
      exact Signature.recover_eq_invalid_iff.mpr fun canonical =>
        straight ⟨hchain, hlast, canonical⟩

end Transaction

theorem chain_beyond_range_has_one_stray_v (chainId : Word64) (beyond : maxChainId < chainId) :
    (∀ (body : Body) (sig : Signature), body.attach sig chainId = .error .chainIdRange) ∧
    ∀ tx : Transaction,
      (tx.sender chainId = .error .invalidSignature ↔ ¬tx.Strays chainId) ∧
      (tx.Strays chainId → tx.sender chainId =
        Signature.recover (tx.body.signingHash chainId) ⟨tx.r, tx.s, false⟩) :=
  ⟨fun body sig => body.attach_of_beyond sig beyond, fun _ =>
    ⟨Transaction.sender_eq_invalid_iff_of_beyond beyond, Transaction.sender_of_beyond beyond⟩⟩

namespace Trial

def stray : Transaction where
  body := transfer
  v := 0xffffffffffffffff
  r := 90694346418370215495246275442488483773757892774371436241301817796605601691541
  s := 18866243468995001443742927608159276012972389466935942141886507368001114434922

theorem transfer_refused_beyond_range : maxChainId < maxChainId + 1 ∧
    transfer.attach endorsement (maxChainId + 1) = .error .chainIdRange ∧
    Transaction.sender { stray with v := 0xfffffffffffffffe } (maxChainId + 1) =
      .error .invalidSignature := by
  have beyond : maxChainId < maxChainId + 1 := by decide
  obtain ⟨unsigned, senders⟩ := chain_beyond_range_has_one_stray_v (maxChainId + 1) beyond
  have straight : ¬Transaction.Strays { stray with v := 0xfffffffffffffffe } (maxChainId + 1) :=
    fun h => absurd h.v (by decide)
  exact ⟨beyond, unsigned transfer endorsement, (senders _).1.mpr straight⟩

theorem stray_sender_found_beyond_range : maxChainId < maxChainId + 1 ∧
    (stray.sender (maxChainId + 1)).toOption =
      some (Octets.ofNat 20 0xa9572220348b1080264e81c0779f77c144790cd6) := by
  exact ⟨by decide, by decide +kernel⟩

end Trial

end Block

end StakedChain
