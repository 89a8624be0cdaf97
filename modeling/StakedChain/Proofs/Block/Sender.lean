import StakedChain.Block.Transaction

namespace StakedChain.Block

namespace Transaction

theorem evenV?_eq_some_iff {chainId even : Word64} :
    evenV? chainId = some even ↔ even.toNat = 2 * chainId.toNat + 35 := by
  simp only [evenV?, Option.bind_eq_bind, Option.bind_eq_some_iff, Word.mul?_eq_some_iff,
    Word.add?_eq_some_iff]
  constructor
  · rintro ⟨twice, h2, he⟩
    change _ = _ * 2 at h2
    change _ = _ + 35 at he
    omega
  · intro he
    have hlt := even.isLt
    refine ⟨BitVec.ofNat 64 (2 * chainId.toNat), ?_, ?_⟩
    · rw [BitVec.toNat_ofNat, Nat.mod_eq_of_lt (by omega)]
      exact Nat.mul_comm 2 _
    · rw [BitVec.toNat_ofNat, Nat.mod_eq_of_lt (by omega), he]
      rfl

theorem parity?_eq_some_iff {tx : Transaction} {chainId : Word64} {odd : Bool} :
    tx.parity? chainId = some odd ↔ tx.v.toNat = 2 * chainId.toNat + 35 + odd.toNat := by
  simp only [parity?, Option.bind_eq_bind, Option.bind_eq_some_iff, evenV?_eq_some_iff,
    Word.sub?_eq_some_iff]
  constructor
  · rintro ⟨even, he, rest, ⟨hle, hr⟩, h⟩
    split at h
    · rename_i h0
      cases h
      rw [h0] at hr
      change 0 = _ at hr
      change _ = _ + 0
      omega
    · split at h
      · rename_i h1
        cases h
        rw [h1] at hr
        change 1 = _ at hr
        change _ = _ + 1
        omega
      · cases h
  · intro hv
    have hlt := tx.v.isLt
    have hodd : odd.toNat ≤ 1 := Bool.toNat_le odd
    have he : (BitVec.ofNat 64 (2 * chainId.toNat + 35)).toNat = 2 * chainId.toNat + 35 := by
      rw [BitVec.toNat_ofNat, Nat.mod_eq_of_lt (by omega)]
    refine ⟨_, he, BitVec.ofNat 64 odd.toNat, ⟨by omega, ?_⟩, by cases odd <;> rfl⟩
    rw [BitVec.toNat_ofNat, Nat.mod_eq_of_lt (by omega), he]
    omega

theorem chainId_eq_of_parity {tx : Transaction} {c d : Word64} {odd odd' : Bool}
    (hc : tx.parity? c = some odd) (hd : tx.parity? d = some odd') : c = d := by
  rw [parity?_eq_some_iff] at hc hd
  have := Bool.toNat_le odd
  have := Bool.toNat_le odd'
  exact BitVec.eq_of_toNat_eq (by omega)

-- The parity plays no part: with `r` and `s` out of range no `v` helps.
theorem sender_of_not_canonical {tx : Transaction}
    (h : ∀ odd, ¬Signature.Canonical ⟨tx.r, tx.s, odd⟩) (chainId : Word64) :
    tx.sender chainId = .error .invalidSignature := by
  unfold sender
  split
  · rw [Signature.recover, if_neg (h _)]
  · rfl

theorem sender_of_parity_none {tx : Transaction} {chainId : Word64} (h : tx.parity? chainId = none) :
    tx.sender chainId = .error .invalidSignature := by
  rw [sender, h]

theorem of_sender_eq_ok {tx : Transaction} {chainId : Word64} {account : Address}
    (h : tx.sender chainId = .ok account) : ∃ odd, tx.parity? chainId = some odd ∧
      Signature.Canonical ⟨tx.r, tx.s, odd⟩ := by
  unfold sender at h
  split at h
  · rename_i odd hparity
    exact ⟨odd, hparity, Signature.canonical_of_recover h⟩
  · cases h

theorem chainId_eq_of_sender {tx : Transaction} {c d : Word64} {a b : Address}
    (hc : tx.sender c = .ok a) (hd : tx.sender d = .ok b) : c = d := by
  obtain ⟨_, hc, -⟩ := of_sender_eq_ok hc
  obtain ⟨_, hd, -⟩ := of_sender_eq_ok hd
  exact chainId_eq_of_parity hc hd

end Transaction

namespace Body

theorem attach_eq_ok_iff {body : Body} {sig : Signature} {chainId : Word64} {tx : Transaction} :
    body.attach sig chainId = .ok tx ↔
      chainId ≤ maxChainId ∧ tx.body = body ∧ tx.r = sig.r ∧ tx.s = sig.s ∧
        tx.v.toNat = 2 * chainId.toNat + 35 + sig.odd.toNat := by
  unfold attach
  by_cases hc : chainId ≤ maxChainId
  · have hc' : chainId.toNat ≤ 9223372036854775789 := hc
    have hv : (chainId * 2 + 35 + (if sig.odd then 1 else 0) : Word64).toNat =
        2 * chainId.toNat + 35 + sig.odd.toNat := by
      cases sig.odd <;> simp [BitVec.toNat_add, BitVec.toNat_mul] <;> omega
    rw [if_pos hc]
    constructor
    · intro h
      cases h
      exact ⟨hc, rfl, rfl, rfl, hv⟩
    · rintro ⟨-, rfl, hr, hs, hvx⟩
      obtain ⟨body, v, r, s⟩ := tx
      simp only at hr hs hvx
      rw [hr, hs, BitVec.eq_of_toNat_eq (hv.trans hvx.symm)]
  · simp [hc]

theorem sender_of_attach {body : Body} {sig : Signature} {chainId : Word64} {tx : Transaction}
    (h : body.attach sig chainId = .ok tx) :
    tx.sender chainId = sig.recover (body.signingHash chainId) := by
  obtain ⟨-, rfl, hr, hs, hv⟩ := attach_eq_ok_iff.mp h
  rw [Transaction.sender, Transaction.parity?_eq_some_iff.mpr hv]
  simp only [hr, hs]

end Body

end StakedChain.Block
