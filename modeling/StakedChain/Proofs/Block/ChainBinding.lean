import StakedChain.Proofs.Block.Sender

namespace StakedChain.Block

open Curve

theorem half_groupOrder : (groupOrder - 1) / 2 = groupOrder / 2 := by decide

namespace Transaction

def malleated (tx : Transaction) (chainId : Word64) : Transaction :=
  { tx with
    v := chainId * 2 + 35 + (chainId * 2 + 36 - tx.v)
    s := BitVec.ofNat 256 (groupOrder - tx.s.toNat) }

theorem parity?_malleated {tx : Transaction} {chainId : Word64} (range : chainId ≤ maxChainId)
    {odd : Bool} (h : tx.parity? chainId = some odd) :
    (tx.malleated chainId).parity? chainId = some (!odd) := by
  have hrange : chainId.toNat ≤ 9223372036854775789 := range
  have hle := Bool.toNat_le odd
  rw [parity?_eq_some_iff] at h ⊢
  have hlow : (chainId * 2 + 35).toNat = 2 * chainId.toNat + 35 := by
    simp [BitVec.toNat_add, BitVec.toNat_mul]
    omega
  have hhigh : (chainId * 2 + 36).toNat = 2 * chainId.toNat + 36 := by
    simp [BitVec.toNat_add, BitVec.toNat_mul]
    omega
  have hrest : (chainId * 2 + 36 - tx.v).toNat = 1 - odd.toNat := by
    have hv : tx.v ≤ chainId * 2 + 36 := BitVec.le_def.mpr (by omega)
    rw [BitVec.toNat_sub_of_le hv]
    omega
  have hnot : (!odd).toNat = 1 - odd.toNat := by cases odd <;> rfl
  rw [malleated, BitVec.toNat_add, hlow, hrest, hnot]
  exact Nat.mod_eq_of_lt (by omega)

theorem s_malleated {tx : Transaction} (chainId : Word64) :
    (tx.malleated chainId).s.toNat = groupOrder - tx.s.toNat := by
  simp only [malleated, BitVec.toNat_ofNat]
  exact Nat.mod_eq_of_lt (Nat.lt_of_le_of_lt (Nat.sub_le _ _) (by decide))

-- Of `s` and `groupOrder - s` one is above the half, as the order is odd.
theorem sender_malleated {tx : Transaction} {odd : Bool} (h : Signature.Canonical ⟨tx.r, tx.s, odd⟩)
    (chainId other : Word64) : (tx.malleated chainId).sender other = .error .invalidSignature := by
  refine sender_of_not_canonical (fun _ twin => ?_) other
  have hlow : tx.s.toNat ≤ groupOrder / 2 := h.2.2.2
  have hhigh : (tx.malleated chainId).s.toNat ≤ groupOrder / 2 := twin.2.2.2
  rw [s_malleated] at hhigh
  have hodd : groupOrder / 2 + groupOrder / 2 < groupOrder := by decide
  omega

end Transaction

theorem Body.sender_of_attach_elsewhere {body : Body} {sig : Signature} {chainId other : Word64}
    {tx : Transaction} (h : body.attach sig chainId = .ok tx) (ne : other ≠ chainId) :
    tx.sender other = .error .invalidSignature := by
  obtain ⟨-, -, -, -, hv⟩ := attach_eq_ok_iff.mp h
  apply Transaction.sender_of_parity_none
  refine Option.eq_none_iff_forall_ne_some.mpr fun odd hother => ne ?_
  exact Transaction.chainId_eq_of_parity hother (Transaction.parity?_eq_some_iff.mpr hv)

theorem signature_has_one_chain_and_form :
    (∀ (body : Body) (sig : Signature) (chainId : Word64), chainId ≤ maxChainId →
      ∃ tx, body.attach sig chainId = .ok tx ∧
        tx.body = body ∧ tx.r = sig.r ∧ tx.s = sig.s ∧
        tx.v.toNat = 2 * chainId.toNat + 35 + sig.odd.toNat ∧
        tx.sender chainId = sig.recover (body.signingHash chainId) ∧
        ∀ other, other ≠ chainId → tx.sender other = .error .invalidSignature) ∧
    (∀ (tx : Transaction) (c d : Word64) (a b : Address),
      tx.sender c = .ok a → tx.sender d = .ok b → c = d) ∧
    ∀ (tx : Transaction) (chainId : Word64) (account : Address), chainId ≤ maxChainId →
      tx.sender chainId = .ok account →
      (0 < tx.r.toNat ∧ tx.r.toNat < groupOrder) ∧
      (0 < tx.s.toNat ∧ tx.s.toNat ≤ (groupOrder - 1) / 2) ∧
      (∃ odd, tx.parity? chainId = some odd ∧
        (tx.malleated chainId).parity? chainId = some (!odd)) ∧
      (tx.malleated chainId).s.toNat = groupOrder - tx.s.toNat ∧
      ∀ other, (tx.malleated chainId).sender other = .error .invalidSignature := by
  refine ⟨?_, fun _ _ _ _ _ => Transaction.chainId_eq_of_sender, ?_⟩
  · intro body sig chainId range
    obtain ⟨tx, attached⟩ : ∃ tx, body.attach sig chainId = .ok tx := ⟨_, if_pos range⟩
    obtain ⟨-, hbody, hr, hs, hv⟩ := Body.attach_eq_ok_iff.mp attached
    exact ⟨tx, attached, hbody, hr, hs, hv, Body.sender_of_attach attached,
      fun other => Body.sender_of_attach_elsewhere attached⟩
  · intro tx chainId account range hsender
    obtain ⟨odd, hparity, canonical⟩ := Transaction.of_sender_eq_ok hsender
    have twin := Transaction.sender_malleated canonical chainId
    obtain ⟨hr, hrn, hs, hsn⟩ := canonical
    rw [← half_groupOrder] at hsn
    exact ⟨⟨hr, hrn⟩, ⟨hs, hsn⟩, ⟨odd, hparity, Transaction.parity?_malleated range hparity⟩,
      Transaction.s_malleated chainId, twin⟩

namespace Trial

def transfer : Body :=
  ⟨9, 20000000000, 21000, ⟨List.replicate 20 0x35, rfl⟩, 1000000000000000000, []⟩

def endorsement : Signature where
  r := 18515461264373351373200002665853028612451056578545711640558177340181847433846
  s := 46948507304638947509940763649030358759909902576025900602547168820602576006531
  odd := false

def transferred : Transaction :=
  ⟨transfer, 37, endorsement.r, endorsement.s⟩

theorem transferred_on_one_chain : 1 ≤ maxChainId ∧ transfer.attach endorsement 1 = .ok transferred ∧
    (∃ account, transferred.sender 1 = .ok account) ∧
    transferred.sender 2 = .error .invalidSignature ∧ (transferred.malleated 1).v = 38 ∧
    ∀ other, (transferred.malleated 1).sender other = .error .invalidSignature := by
  have range : 1 ≤ maxChainId := by decide
  have attached : transfer.attach endorsement 1 = .ok transferred := rfl
  obtain ⟨account, hsender⟩ : ∃ account, transferred.sender 1 = .ok account := by
    have hok : (transferred.sender 1).isOk = true := by decide +kernel
    cases h : transferred.sender 1 with
    | ok account => exact ⟨account, rfl⟩
    | error e =>
      rw [h] at hok
      cases hok
  obtain ⟨hattach, -, hform⟩ := signature_has_one_chain_and_form
  obtain ⟨tx, htx, -, -, -, -, -, elsewhere⟩ := hattach transfer endorsement 1 range
  obtain rfl := Except.ok.inj (attached.symm.trans htx)
  obtain ⟨-, -, -, -, twin⟩ := hform transferred 1 account range hsender
  exact ⟨range, attached, ⟨account, hsender⟩, elsewhere 2 (by decide), rfl, twin⟩

end Trial

end StakedChain.Block
