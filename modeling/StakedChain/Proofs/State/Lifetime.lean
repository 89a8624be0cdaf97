import StakedChain.Proofs.State.Execution

namespace StakedChain.State.Ledger

open Abi Block Staking

variable {ledger before mid next : Ledger} {tx : Transaction} {sender account : Address}
  {slot : Word64} {value : Word256}

inductive Admits (ledger : Ledger) : Address → Word64 → Word256 → Prop where
  | ready {account : Address}
      (called : account = ledger.environment ∨ account = ledger.stakeManager) :
      Admits ledger account readySlot 1
  | slashed : Admits ledger ledger.stakeManager slashSlot 2

def WellFormed (ledger : Ledger) : Prop :=
  ∀ account slot, ledger.storage account slot ≠ 0 →
    ledger.Admits account slot (ledger.storage account slot)

theorem wellFormed_empty (environment stakeManager : Address) :
    (empty environment stakeManager).WellFormed :=
  fun _ _ written => absurd rfl written

theorem readySlot_ne_slashSlot : readySlot ≠ slashSlot := by decide

theorem Admits.unique {other : Word256} (h : ledger.Admits account slot value)
    (h' : ledger.Admits account slot other) : value = other := by
  generalize hslot : slot = s at h'
  cases h with
  | ready =>
    cases h' with
    | ready => rfl
    | slashed => exact absurd hslot readySlot_ne_slashSlot
  | slashed =>
    cases h' with
    | ready => exact absurd hslot.symm readySlot_ne_slashSlot
    | slashed => rfl

theorem Admits.grow (grows : Grows before next) (h : before.Admits account slot value) :
    next.Admits account slot value := by
  cases h with
  | ready called =>
    rw [← grows.environment, ← grows.stakeManager] at called
    exact .ready called
  | slashed =>
    rw [← grows.stakeManager]
    exact .slashed

theorem Dispatched.admits {target : Address} {data : Bytes} {effect : Effect}
    (h : Dispatched ledger target data effect) : ledger.Admits target effect.slot effect.value := by
  cases h with
  | environment called => exact .ready (.inl called)
  | manager called => exact .ready (.inr called)
  | slash called =>
    rw [called]
    exact .slashed

structure Endures (before after : Ledger) : Prop where
  grows : Grows before after
  kept : ∀ account slot, before.storage account slot ≠ 0 →
    after.storage account slot = before.storage account slot
  wellFormed : after.WellFormed

theorem Endures.trans (first : Endures before mid) (rest : Endures mid next) :
    Endures before next := by
  refine ⟨first.grows.trans rest.grows, fun account slot written => ?_, rest.wellFormed⟩
  have kept := first.kept account slot written
  rw [← kept] at written
  exact (rest.kept account slot written).trans kept

theorem WellFormed.endures_of_same (formed : ledger.WellFormed) (grows : Grows ledger next)
    (same : next.storage = ledger.storage) : Endures ledger next := by
  refine ⟨grows, fun account slot _ => by rw [same], fun account slot written => ?_⟩
  rw [same] at written ⊢
  exact (formed account slot written).grow grows

theorem WellFormed.endures_of_store (formed : ledger.WellFormed) (grows : Grows ledger next)
    (admits : ledger.Admits account slot value)
    (stored : next.storage = (ledger.store account slot value).storage) : Endures ledger next := by
  refine ⟨grows, fun a s written => ?_, fun a s written => ?_⟩
  · rw [stored, storage_store]
    split
    · rename_i hcell
      obtain ⟨rfl, rfl⟩ := hcell
      exact admits.unique (formed _ _ written)
    · rfl
  · rw [stored, storage_store] at written ⊢
    split
    · rename_i hcell
      obtain ⟨rfl, rfl⟩ := hcell
      exact admits.grow grows
    · rename_i hcell
      rw [if_neg hcell] at written
      exact (formed a s written).grow grows

theorem Executed.endures {result : Except (Stop ExecutionError) Outcome}
    (formed : ledger.WellFormed) (h : Executed ledger tx sender result next) :
    Endures ledger next := by
  have grows := h.grows
  cases h with
  | rejected | reverted => exact formed.endures_of_same grows rfl
  | stranded accepted | held accepted | advanced accepted =>
    exact formed.endures_of_store grows accepted.dispatched.admits rfl

structure Performed (ledger : Ledger) (tx : Transaction) (sender : Address) (outcome : Outcome)
    (next : Ledger) : Prop where
  stored : ∃ slot value, ledger.Admits tx.body.target slot value ∧
    next.storage = (ledger.store tx.body.target slot value).storage
  logs : ∃ log, outcome.logs = [log] ∧ log.address = tx.body.target
  gasUsed : outcome.gasUsed.toNat = callGas tx.body.data
  limit : outcome.gasUsed.toNat ≤ tx.body.gas.toNat
  counted : Counted ledger tx sender next

theorem Executed.performed {result : Except (Stop ExecutionError) Outcome} {outcome : Outcome}
    (h : Executed ledger tx sender result next) (ok : result = .ok outcome) :
    Performed ledger tx sender outcome next := by
  have counted := h.counted ok
  obtain ⟨effect, accepted, rfl, stored⟩ := h.stored ok
  have gasUsed := accepted.toNat_gasUsed
  exact ⟨⟨_, _, accepted.dispatched.admits, stored⟩, ⟨_, rfl, rfl⟩, gasUsed,
    Nat.le_trans (Nat.le_of_eq gasUsed) accepted.gas, counted⟩

inductive Action where
  | setNonce (account : Address) (nonce : Word64)
  | freeze
  | execute (tx : Transaction) (sender : Address)

def perform (ledger : Ledger) : Action → Ledger
  | .setNonce account nonce => ledger.setNonce account nonce
  | .freeze => ledger.freeze
  | .execute tx sender => (ledger.execute tx sender).2

def performAll (ledger : Ledger) (actions : List Action) : Ledger :=
  actions.foldl perform ledger

theorem WellFormed.perform (formed : ledger.WellFormed) (action : Action) :
    Endures ledger (ledger.perform action) := by
  cases action with
  | setNonce account nonce => exact formed.endures_of_same (grows_setNonce _ _ _) rfl
  | freeze => exact formed.endures_of_same (grows_freeze _) rfl
  | execute tx sender =>
    obtain ⟨result, next, h, cases⟩ := ledger.execute_cases tx sender
    rw [Ledger.perform, h]
    exact cases.endures formed

theorem WellFormed.performAll (formed : ledger.WellFormed) (actions : List Action) :
    Endures ledger (ledger.performAll actions) := by
  induction actions generalizing ledger with
  | nil => exact formed.endures_of_same (.refl ledger) rfl
  | cons action actions ih =>
    have first := formed.perform action
    exact first.trans (ih first.wellFormed)

theorem Dispatched.vacant_of_setup {target : Address} {data : Bytes} {effect : Effect}
    (selected : data.take 4 = Contracts.environmentSetup.selector.bytes ∨
      data.take 4 = Contracts.managerSetup.selector.bytes)
    (h : Dispatched ledger target data effect) :
    ledger.storage target readySlot = 0 ∧ effect.slot = readySlot := by
  cases h with
  | environment _ _ _ vacant | manager _ _ _ vacant => exact ⟨vacant, rfl⟩
  | slash _ slash =>
    rcases selected with other | other
    · exact absurd other (not_selected Contracts.slash_selector_ne_environmentSetup slash)
    · exact absurd other (not_selected Contracts.slash_selector_ne_managerSetup slash)

def readiness (account : Address) (ledger : Ledger) : Nat :=
  if ledger.storage account readySlot = 0 then 0 else 1

theorem readiness_le_one (account : Address) (ledger : Ledger) : ledger.readiness account ≤ 1 := by
  unfold readiness
  split
  · exact Nat.zero_le 1
  · exact Nat.le_refl 1

theorem Grows.readiness_le (grows : Grows before next) (account : Address) :
    before.readiness account ≤ next.readiness account := by
  unfold readiness
  split
  · exact Nat.zero_le _
  · rename_i written
    exact Nat.le_of_eq (if_neg (grows.storage _ _ written)).symm

def setups (account : Address) (ledger : Ledger) : Action → Nat
  | .setNonce _ _ | .freeze => 0
  | .execute tx sender =>
    if tx.body.target = account ∧
        (tx.body.data.take 4 = Contracts.environmentSetup.selector.bytes ∨
          tx.body.data.take 4 = Contracts.managerSetup.selector.bytes) ∧
        (ledger.execute tx sender).1.isOk = true then 1
    else 0

def setupsAll (account : Address) : List Action → Ledger → Nat
  | [], _ => 0
  | action :: actions, ledger =>
    ledger.setups account action + setupsAll account actions (ledger.perform action)

theorem setups_add_readiness_le (account : Address) (ledger : Ledger) (action : Action) :
    ledger.setups account action + ledger.readiness account ≤
      (ledger.perform action).readiness account := by
  cases action with
  | setNonce a nonce =>
    rw [setups, Nat.zero_add]
    exact (grows_setNonce ledger a nonce).readiness_le account
  | freeze =>
    rw [setups, Nat.zero_add]
    exact (grows_freeze ledger).readiness_le account
  | execute tx sender =>
    obtain ⟨result, next, hexecute, executed⟩ := ledger.execute_cases tx sender
    rw [setups, perform, hexecute]
    split
    · rename_i hsetup
      obtain ⟨rfl, selected, ok⟩ := hsetup
      obtain ⟨outcome, rfl⟩ : ∃ outcome, result = .ok outcome := by
        cases result with
        | ok outcome => exact ⟨outcome, rfl⟩
        | error e => cases ok
      obtain ⟨effect, accepted, -, stored⟩ := executed.accepted rfl
      obtain ⟨vacant, hslot⟩ := accepted.dispatched.vacant_of_setup selected
      rw [hslot] at stored
      have written : next.storage tx.body.target readySlot ≠ 0 := by
        rw [stored]
        exact accepted.dispatched.value_ne_zero
      exact Nat.le_of_eq (by rw [readiness, readiness, if_pos vacant, if_neg written])
    · rw [Nat.zero_add]
      exact executed.grows.readiness_le account

theorem setupsAll_add_readiness_le (account : Address) (actions : List Action) (ledger : Ledger) :
    setupsAll account actions ledger + ledger.readiness account ≤
      (ledger.performAll actions).readiness account := by
  induction actions generalizing ledger with
  | nil => exact Nat.le_of_eq (Nat.zero_add _)
  | cons action actions ih =>
    have first := setups_add_readiness_le account ledger action
    have rest : _ ≤ (ledger.performAll (action :: actions)).readiness account :=
      ih (ledger.perform action)
    rw [setupsAll]
    omega

theorem storage_wellFormed_for_life (environment stakeManager : Address) (actions : List Action) :
    let fresh := empty environment stakeManager
    let ledger := fresh.performAll actions
    (∀ account slot, ledger.storage account slot ≠ 0 →
      (account = environment ∨ account = stakeManager) ∧ slot = 0 ∧
          ledger.storage account slot = 1 ∨
        account = stakeManager ∧ slot = 1 ∧ ledger.storage account slot = 2) ∧
    (∀ later account slot, ledger.storage account slot ≠ 0 →
      (fresh.performAll (actions ++ later)).storage account slot =
        ledger.storage account slot) ∧
    (∀ account, setupsAll account actions fresh ≤ 1) ∧
    ∀ tx sender outcome next, ledger.execute tx sender = (.ok outcome, next) →
      Performed ledger tx sender outcome next := by
  intro fresh ledger
  have endures : Endures fresh ledger :=
    (wellFormed_empty environment stakeManager).performAll actions
  have formed := endures.wellFormed
  refine ⟨fun account slot written => ?_, fun later account slot written => ?_, fun account => ?_,
    fun tx sender outcome next ok => (executed ok).performed rfl⟩
  · have henvironment : ledger.environment = environment := endures.grows.environment
    have hstakeManager : ledger.stakeManager = stakeManager := endures.grows.stakeManager
    have admits := formed account slot written
    generalize ledger.storage account slot = value at admits
    cases admits with
    | ready called =>
      rw [henvironment, hstakeManager] at called
      exact .inl ⟨called, rfl, rfl⟩
    | slashed => exact .inr ⟨hstakeManager, rfl, rfl⟩
  · rw [performAll, List.foldl_append]
    exact (formed.performAll later).kept account slot written
  · have total := setupsAll_add_readiness_le account actions fresh
    have bound := readiness_le_one account (fresh.performAll actions)
    omega

end StakedChain.State.Ledger
