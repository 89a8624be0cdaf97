import StakedChain.Proofs.State.Execution

namespace StakedChain.State.Ledger

open Abi Block Staking

variable {ledger next : Ledger} {tx : Transaction} {sender : Address} {effect : Effect}

-- A call that would be carried out, by a sender who has no nonce after this one.
structure Strands (ledger : Ledger) (tx : Transaction) (sender : Address) (effect : Effect) :
    Prop where
  running : ledger.frozen = false
  last : ledger.nonces sender = 0xffffffffffffffff
  accepted : Accepted ledger tx sender effect

theorem Strands.executed (h : ledger.Strands tx sender effect) :
    ledger.execute tx sender = (.error (.fault .addition), ledger.written tx.body effect) := by
  obtain ⟨running, last, accepted⟩ := h
  have overflow : Word.add? (ledger.nonces sender) 1 = none := Word.add?_one_eq_none_iff.mpr last
  have hdispatch := dispatch_eq_ok_iff.mpr accepted.dispatched
  rw [execute_of_accepts accepted.nonce hdispatch accepted.gas, commit]
  simp only [running, overflow, Bool.false_eq_true, if_false, written]

theorem Executed.eq_or_strands {e : Stop ExecutionError}
    (h : Executed ledger tx sender (.error e) next) :
    next = ledger ∨ ∃ effect, ledger.Strands tx sender effect ∧ e = .fault .addition ∧
      next = ledger.written tx.body effect := by
  cases h with
  | rejected | reverted => exact .inl rfl
  | stranded accepted running last =>
    exact .inr ⟨_, ⟨running, Word.add?_one_eq_none_iff.mp last, accepted⟩, rfl, rfl⟩

theorem storage_written_eq_iff {body : Body} :
    (ledger.written body effect).storage = ledger.storage ↔
      ledger.storage body.target effect.slot = effect.value := by
  constructor
  · intro same
    rw [← same, written, storage_store, if_pos ⟨rfl, rfl⟩]
  · intro present
    funext account slot
    rw [written, storage_store]
    split
    · rename_i hcell
      rw [hcell.1, hcell.2, present]
    · rfl

theorem failed_execution_traceless_iff {header : Header} {history : History}
    {e : Stop ExecutionError}
    (failed : machine.execute tx sender header history ledger = (.error e, next)) :
    next.nonces = ledger.nonces ∧
    (next.storage = ledger.storage ↔ ¬∃ effect, ledger.Strands tx sender effect ∧
      ledger.storage tx.body.target effect.slot ≠ effect.value) ∧
    (next = ledger ∨ ∃ effect, ledger.Strands tx sender effect ∧ e = .fault .addition ∧
      next = ledger.written tx.body effect) := by
  have h := executed failed
  refine ⟨h.nonces_of_error, ⟨?_, fun straight => ?_⟩, h.eq_or_strands⟩
  · rintro same ⟨effect, strands, ne⟩
    obtain rfl : next = ledger.written tx.body effect :=
      (Prod.mk.inj (failed.symm.trans strands.executed)).2
    exact ne (storage_written_eq_iff.mp same)
  · rcases h.eq_or_strands with rfl | ⟨effect, strands, -, rfl⟩
    · rfl
    · by_cases present : ledger.storage tx.body.target effect.slot = effect.value
      · exact storage_written_eq_iff.mpr present
      · exact absurd ⟨effect, strands, present⟩ straight

namespace Trial

def payer : Address := .ofNat 20 9

def spent : Ledger :=
  (empty Contracts.environment Contracts.stakeManager).setNonce payer 0xffffffffffffffff

def lastSlashing : Transaction where
  body :=
    { nonce := 0xffffffffffffffff
      gasPrice := 0
      gas := 1000000
      target := Contracts.stakeManager
      value := 0
      data := Contracts.slash.selector.bytes ++ Bytes.ofNat 32 7 ++ Bytes.ofNat 32 1 }
  v := 0
  r := 0
  s := 0

theorem lastSlashing_dispatched : Dispatched spent lastSlashing.body.target lastSlashing.body.data
    ⟨slashSlot, 2, Contracts.slashed⟩ := by
  have hargs : (Contracts.slash.decodeInput lastSlashing.body.data).isOk = true := by
    decide +kernel
  cases decoded : Contracts.slash.decodeInput lastSlashing.body.data with
  | ok args => exact .slash rfl (by decide +kernel) decoded
  | error e =>
    rw [decoded] at hargs
    cases hargs

theorem lastSlashing_strands :
    spent.Strands lastSlashing payer ⟨slashSlot, 2, Contracts.slashed⟩ := by
  have last : spent.nonces payer = 0xffffffffffffffff := by
    rw [spent, nonces_setNonce, if_pos rfl]
  exact ⟨rfl, last, last.symm, lastSlashing_dispatched, by decide +kernel⟩

theorem lastSlashing_leaves_trace : ∃ e next,
    machine.execute lastSlashing payer .empty .empty spent = (.error e, next) ∧
      next.nonces = spent.nonces ∧ next.storage ≠ spent.storage := by
  have failed : machine.execute lastSlashing payer .empty .empty spent = (.error _, _) :=
    lastSlashing_strands.executed
  obtain ⟨hnonces, hstorage, -⟩ := failed_execution_traceless_iff failed
  exact ⟨_, _, failed, hnonces, fun same =>
    hstorage.mp same ⟨_, lastSlashing_strands, by decide⟩⟩

theorem lastSlashing_writes_and_fails : ∃ next,
    machine.execute lastSlashing payer .empty .empty spent = (.error (.fault .addition), next) ∧
      spent.storage Contracts.stakeManager slashSlot = 0 ∧
      next.storage Contracts.stakeManager slashSlot = 2 := by
  refine ⟨_, lastSlashing_strands.executed, rfl, ?_⟩
  rw [written, storage_store]
  exact if_pos ⟨rfl, rfl⟩

end Trial

end StakedChain.State.Ledger
