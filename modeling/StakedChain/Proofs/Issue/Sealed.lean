import StakedChain.Issue.Operation
import StakedChain.Proofs.Abi.Conformance
import StakedChain.Proofs.Block.Sender

namespace StakedChain

def Signer.Faithful (signer : Signer) : Prop :=
  ∀ digest sig, signer.sign digest = .ok sig → sig.recover digest = .ok signer.address

def Signer.audited (signer : Signer) : Signer where
  address := signer.address
  sign digest :=
    match signer.sign digest with
    | .ok sig =>
      match sig.recover digest with
      | .ok account => if account = signer.address then .ok sig else .error .signingFailed
      | .error e => .error e
    | .error e => .error e

theorem Signer.audited_faithful (signer : Signer) : signer.audited.Faithful := by
  intro digest sig h
  simp only [audited] at h
  split at h
  · split at h
    · rename_i account recovered
      split at h
      · rename_i same
        cases h
        exact recovered.trans (congrArg _ same)
      · cases h
    · cases h
  · cases h

namespace Issue

open Block Staking

variable {signer : Signer} {name : String} {chainId : Word64} {sender : Address} {body : Body}
  {tx : Transaction} {received rest : List Transaction}

theorem sign_eq_ok_iff : sign signer chainId sender body = .ok tx ↔
    signer.address = sender ∧
      ∃ sig, signer.sign (body.signingHash chainId) = .ok sig ∧ body.attach sig chainId = .ok tx := by
  unfold sign
  by_cases hs : signer.address = sender
  · rw [if_pos hs]
    cases signer.sign (body.signingHash chainId) with
    | error e => simp only [reduceCtorEq, false_and, exists_false, and_false]
    | ok sig =>
      simp only [mapError_eq_ok_iff, Except.ok.injEq, exists_eq_left', hs, true_and]
  · simp only [hs, if_false, reduceCtorEq, false_and]

theorem check_eq_ok_iff : check chainId sender body tx = .ok () ↔
    tx.body.signingHash chainId = body.signingHash chainId ∧ tx.sender chainId = .ok sender := by
  unfold check
  by_cases hh : body.signingHash chainId = tx.body.signingHash chainId
  · simp only [hh, if_true, true_and]
    cases tx.sender chainId with
    | error e => simp only [reduceCtorEq]
    | ok account =>
      by_cases ha : account = sender
      · simp only [ha, if_true]
      · simp only [ha, if_false, reduceCtorEq, Except.ok.injEq]
  · simp only [hh, if_false, reduceCtorEq, Ne.symm hh, false_and]

theorem accept_eq_ok_iff (name : String) :
    accept name chainId sender body received = (.ok tx, rest) ↔
      received = tx :: rest ∧ tx.body.signingHash chainId = body.signingHash chainId ∧
        tx.sender chainId = .ok sender := by
  rw [← check_eq_ok_iff]
  cases received with
  | nil => simp only [accept, Prod.mk.injEq, reduceCtorEq, false_and]
  | cons front others =>
    simp only [accept, Prod.mk.injEq, map_eq_ok_iff, List.cons.injEq]
    constructor
    · rintro ⟨⟨_, hok, rfl⟩, rfl⟩
      exact ⟨⟨rfl, rfl⟩, hok⟩
    · rintro ⟨⟨rfl, rfl⟩, hok⟩
      exact ⟨⟨(), hok, rfl⟩, rfl⟩

namespace Role

theorem seal_producer_eq_ok_iff :
    (producer signer).seal name chainId sender body received = (.ok tx, rest) ↔
      rest = received ∧ signer.address = sender ∧
        ∃ sig, signer.sign (body.signingHash chainId) = .ok sig ∧
          body.attach sig chainId = .ok tx := by
  rw [← sign_eq_ok_iff]
  simp only [Role.seal, Prod.mk.injEq]
  constructor
  · rintro ⟨hok, rfl⟩
    exact ⟨rfl, hok⟩
  · rintro ⟨rfl, hok⟩
    exact ⟨hok, rfl⟩

theorem of_seal_producer (faithful : signer.Faithful)
    (h : (producer signer).seal name chainId sender body received = (.ok tx, rest)) :
    rest = received ∧ tx.body = body ∧ tx.sender chainId = .ok sender := by
  obtain ⟨hrest, account, sig, signed, attached⟩ := seal_producer_eq_ok_iff.mp h
  have hsender := Body.sender_of_attach attached
  rw [faithful _ _ signed, account] at hsender
  exact ⟨hrest, (Body.attach_eq_ok_iff.mp attached).2.1, hsender⟩

theorem seal_validator_eq_ok_iff :
    validator.seal name chainId sender body received = (.ok tx, rest) ↔
      received = tx :: rest ∧ tx.body.signingHash chainId = body.signingHash chainId ∧
        tx.sender chainId = .ok sender := by
  rw [← accept_eq_ok_iff name]
  simp only [Role.seal, mapError_eq_ok_iff, Prod.ext_iff]

end Role

theorem isSystem_iff {cfg : Config} {header : Header} : isSystem cfg header tx = true ↔
    (tx.body.target = cfg.environment ∨ tx.body.target = cfg.stakeManager) ∧
      tx.body.gasPrice = 0 ∧ tx.body.value = 0 ∧ tx.sender cfg.chainId = .ok header.coinbase := by
  unfold isSystem
  cases tx.sender cfg.chainId with
  | error e => simp
  | ok account => simp [and_assoc]

theorem isSystem_of_body {call : SystemCall} {cfg : Config} {header : Header} {nonce : Word64}
    {data : Bytes} (target : call.target = cfg.environment ∨ call.target = cfg.stakeManager)
    (hbody : tx.body = call.body cfg nonce data)
    (hsender : tx.sender cfg.chainId = .ok header.coinbase) : isSystem cfg header tx = true := by
  rw [isSystem_iff, hbody]
  exact ⟨target, rfl, rfl, hsender⟩

end Issue

end StakedChain
