import StakedChain.Proofs.Account.Recovery
import StakedChain.Proofs.Block.ChainBinding

namespace StakedChain.Block

open Curve

theorem recovery_undoes_signing :
    (∀ (key : PrivateKey) (digest : Hash) (sig : Signature), key.sign digest = .ok sig →
      key.Unreduced digest →
        (0 < sig.r.toNat ∧ sig.r.toNat < groupOrder) ∧
        (0 < sig.s.toNat ∧ sig.s.toNat ≤ (groupOrder - 1) / 2) ∧
        sig.recover digest = .ok key.address) ∧
    ∀ (key : PrivateKey) (body : Body) (chainId : Word64) (sig : Signature),
      chainId ≤ maxChainId → key.sign (body.signingHash chainId) = .ok sig →
        key.Unreduced (body.signingHash chainId) →
          ∃ tx, body.attach sig chainId = .ok tx ∧ tx.sender chainId = .ok key.address := by
  constructor
  · intro key digest sig signed unreduced
    obtain ⟨⟨hr, hrn, hs, hsn⟩, recovered⟩ := key.recover_of_sign signed unreduced
    rw [← half_groupOrder] at hsn
    exact ⟨⟨hr, hrn⟩, ⟨hs, hsn⟩, recovered⟩
  · intro key body chainId sig range signed unreduced
    obtain ⟨tx, attached⟩ : ∃ tx, body.attach sig chainId = .ok tx := ⟨_, if_pos range⟩
    refine ⟨tx, attached, ?_⟩
    rw [Body.sender_of_attach attached]
    exact (key.recover_of_sign signed unreduced).2

namespace Trial

def owner : PrivateKey :=
  ⟨Fin.ofNat groupOrder 0x4646464646464646464646464646464646464646464646464646464646464646,
    by decide⟩

def nonceScalar : Scalar :=
  Fin.ofNat groupOrder
    33140546373677289454549995876491478399622041287384592422758281448743720795734

theorem owner_draws : owner.ephemeral? (transfer.signingHash 1) = some nonceScalar := by
  decide +kernel

theorem owner_makes : Signature.make? owner.secret nonceScalar
    (Scalar.ofHash (transfer.signingHash 1)) = some endorsement := by
  decide +kernel

theorem owner_unreduced : owner.Unreduced (transfer.signingHash 1) := by
  intro k drawn
  obtain rfl := Option.some.inj (owner_draws.symm.trans drawn)
  decide +kernel

theorem transfer_signed_and_recovered : 1 ≤ maxChainId ∧
    owner.sign (transfer.signingHash 1) = .ok endorsement ∧
    owner.Unreduced (transfer.signingHash 1) ∧
    endorsement.recover (transfer.signingHash 1) = .ok owner.address ∧
    transfer.attach endorsement 1 = .ok transferred ∧
    transferred.sender 1 = .ok owner.address := by
  have range : 1 ≤ maxChainId := by decide
  have signed : owner.sign (transfer.signingHash 1) = .ok endorsement :=
    PrivateKey.sign_eq_ok_iff.mpr ⟨nonceScalar, owner_draws, owner_makes⟩
  have attached : transfer.attach endorsement 1 = .ok transferred := rfl
  obtain ⟨hrecover, hsender⟩ := recovery_undoes_signing
  obtain ⟨-, -, recovered⟩ := hrecover owner _ endorsement signed owner_unreduced
  obtain ⟨tx, htx, sent⟩ := hsender owner transfer 1 endorsement range signed owner_unreduced
  obtain rfl := Except.ok.inj (attached.symm.trans htx)
  exact ⟨range, signed, owner_unreduced, recovered, attached, sent⟩

end Trial

end StakedChain.Block
