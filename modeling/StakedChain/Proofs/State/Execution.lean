import StakedChain.State.Ledger

namespace StakedChain

theorem Word.add?_one_eq_none_iff {n : Word64} : Word.add? n 1 = none ↔ n = 0xffffffffffffffff := by
  have hn := n.isLt
  constructor
  · intro overflow
    have hle : 18446744073709551616 ≤ n.toNat + 1 := Word.ofNat?_eq_none_iff.mp overflow
    refine BitVec.eq_of_toNat_eq ?_
    change _ = 18446744073709551615
    omega
  · rintro rfl
    rfl

theorem Abi.Method.selected_of_decodeInput {m : Method} {data : Bytes} {args : List Value}
    (decoded : m.decodeInput data = .ok args) : data.take 4 = m.selector.bytes := by
  unfold decodeInput at decoded
  split at decoded
  · assumption
  · cases decoded

theorem Staking.Contracts.managerSetup_selector_ne_environmentSetup :
    managerSetup.selector ≠ environmentSetup.selector := by decide +kernel

theorem Staking.Contracts.slash_selector_ne_environmentSetup :
    slash.selector ≠ environmentSetup.selector := by decide +kernel

theorem Staking.Contracts.slash_selector_ne_managerSetup :
    slash.selector ≠ managerSetup.selector := by decide +kernel

namespace State.Ledger

open Abi Block Staking

variable {ledger next : Ledger} {tx : Transaction} {sender : Address}

section

variable {target : Address} {data : Bytes} {args : List Value}

theorem not_short_of_selected {m : Method} (selected : data.take 4 = m.selector.bytes) :
    ¬data.length < 4 := by
  have hlength := congrArg List.length selected
  rw [List.length_take, m.selector.length_bytes] at hlength
  omega

theorem not_selected {m m' : Method} (ne : m.selector ≠ m'.selector)
    (selected : data.take 4 = m.selector.bytes) : data.take 4 ≠ m'.selector.bytes :=
  fun selected' => ne (Octets.ext (selected.symm.trans selected'))

-- Of two contracts at one address the environment is asked first, so only the selectors tell
-- whose method is called.
theorem dispatch_environment (called : target = ledger.environment)
    (decoded : Contracts.environmentSetup.decodeInput data = .ok args) :
    ledger.dispatch target data = ledger.setup target Contracts.environmentReady := by
  have selected := Method.selected_of_decodeInput decoded
  simp only [dispatch, not_short_of_selected selected, if_false, called, selected, and_self,
    if_true, decoded]

theorem dispatch_manager (called : target = ledger.stakeManager)
    (decoded : Contracts.managerSetup.decodeInput data = .ok args) :
    ledger.dispatch target data = ledger.setup target Contracts.managerReady := by
  have selected := Method.selected_of_decodeInput decoded
  have other := not_selected Contracts.managerSetup_selector_ne_environmentSetup selected
  simp only [dispatch, not_short_of_selected selected, other, and_false, if_false]
  simp only [called, selected, and_self, if_true, decoded]

theorem dispatch_slash (called : target = ledger.stakeManager)
    (decoded : Contracts.slash.decodeInput data = .ok args) :
    ledger.dispatch target data = .ok ⟨slashSlot, 2, Contracts.slashed⟩ := by
  have selected := Method.selected_of_decodeInput decoded
  have other := not_selected Contracts.slash_selector_ne_environmentSetup selected
  have other' := not_selected Contracts.slash_selector_ne_managerSetup selected
  simp only [dispatch, not_short_of_selected selected, other, other', and_false, if_false]
  simp only [called, selected, and_self, if_true, decoded]

end

inductive Dispatched (ledger : Ledger) (target : Address) (data : Bytes) : Effect → Prop where
  | environment {args : List Value} (called : target = ledger.environment)
      (selected : data.take 4 = Contracts.environmentSetup.selector.bytes)
      (decoded : Contracts.environmentSetup.decodeInput data = .ok args)
      (vacant : ledger.storage target readySlot = 0) :
      Dispatched ledger target data ⟨readySlot, 1, Contracts.environmentReady⟩
  | manager {args : List Value} (called : target = ledger.stakeManager)
      (selected : data.take 4 = Contracts.managerSetup.selector.bytes)
      (decoded : Contracts.managerSetup.decodeInput data = .ok args)
      (vacant : ledger.storage target readySlot = 0) :
      Dispatched ledger target data ⟨readySlot, 1, Contracts.managerReady⟩
  | slash {args : List Value} (called : target = ledger.stakeManager)
      (selected : data.take 4 = Contracts.slash.selector.bytes)
      (decoded : Contracts.slash.decodeInput data = .ok args) :
      Dispatched ledger target data ⟨slashSlot, 2, Contracts.slashed⟩

theorem setup_eq_ok_iff {target : Address} {event : Event} {effect : Effect} :
    ledger.setup target event = .ok effect ↔
      ledger.storage target readySlot = 0 ∧ effect = ⟨readySlot, 1, event⟩ := by
  unfold setup
  by_cases vacant : ledger.storage target readySlot = 0
  · simp only [vacant, if_true, Except.ok.injEq, true_and, eq_comm]
  · simp only [vacant, if_false, reduceCtorEq, false_and]

theorem dispatched {target : Address} {data : Bytes} {effect : Effect}
    (h : ledger.dispatch target data = .ok effect) : Dispatched ledger target data effect := by
  simp only [dispatch] at h
  repeat' split at h
  · cases h
  · rename_i hcall _ _ decoded
    obtain ⟨vacant, rfl⟩ := setup_eq_ok_iff.mp h
    exact .environment hcall.1 hcall.2 decoded vacant
  · cases h
  · rename_i hcall _ _ decoded
    obtain ⟨vacant, rfl⟩ := setup_eq_ok_iff.mp h
    exact .manager hcall.1 hcall.2 decoded vacant
  · cases h
  · rename_i hcall _ _ decoded
    cases h
    exact .slash hcall.1 hcall.2 decoded
  · cases h
  · cases h

theorem dispatch_eq_ok_iff {target : Address} {data : Bytes} {effect : Effect} :
    ledger.dispatch target data = .ok effect ↔ Dispatched ledger target data effect := by
  refine ⟨dispatched, fun h => ?_⟩
  cases h with
  | environment called _ decoded vacant =>
    rw [dispatch_environment called decoded]
    exact setup_eq_ok_iff.mpr ⟨vacant, rfl⟩
  | manager called _ decoded vacant =>
    rw [dispatch_manager called decoded]
    exact setup_eq_ok_iff.mpr ⟨vacant, rfl⟩
  | slash called _ decoded => exact dispatch_slash called decoded

theorem Dispatched.value_ne_zero {target : Address} {data : Bytes} {effect : Effect}
    (h : Dispatched ledger target data effect) : effect.value ≠ 0 := by
  cases h with
  | environment | manager => exact (by decide : (1 : Word256) ≠ 0)
  | slash => exact (by decide : (2 : Word256) ≠ 0)

structure Accepted (ledger : Ledger) (tx : Transaction) (sender : Address) (effect : Effect) :
    Prop where
  nonce : tx.body.nonce = ledger.nonces sender
  dispatched : Dispatched ledger tx.body.target tx.body.data effect
  gas : callGas tx.body.data ≤ tx.body.gas.toNat

def Effect.outcome (effect : Effect) (body : Body) : Outcome :=
  ⟨BitVec.ofNat 64 (callGas body.data), [⟨body.target, [effect.event.topic], []⟩]⟩

def written (ledger : Ledger) (body : Body) (effect : Effect) : Ledger :=
  ledger.store body.target effect.slot effect.value

-- The ways in which an execution ends. A stranded one has written its slot all the same.
inductive Executed (ledger : Ledger) (tx : Transaction) (sender : Address) :
    Except (Stop ExecutionError) Outcome → Ledger → Prop where
  | rejected (r : Rejection) :
      Executed ledger tx sender (.error (.failed (.rejected r.message))) ledger
  | reverted (r : Revert) :
      Executed ledger tx sender (.error (.failed (.reverted tx.body.target r.message))) ledger
  | stranded {effect : Effect} (accepted : Accepted ledger tx sender effect)
      (running : ledger.frozen = false) (last : Word.add? (ledger.nonces sender) 1 = none) :
      Executed ledger tx sender (.error (.fault .addition)) (ledger.written tx.body effect)
  | held {effect : Effect} (accepted : Accepted ledger tx sender effect)
      (frozen : ledger.frozen = true) :
      Executed ledger tx sender (.ok (effect.outcome tx.body)) (ledger.written tx.body effect)
  | advanced {effect : Effect} {nonce : Word64} (accepted : Accepted ledger tx sender effect)
      (running : ledger.frozen = false) (counted : Word.add? (ledger.nonces sender) 1 = some nonce) :
      Executed ledger tx sender (.ok (effect.outcome tx.body))
        ((ledger.written tx.body effect).setNonce sender nonce)

theorem execute_of_accepts {effect : Effect} (hnonce : tx.body.nonce = ledger.nonces sender)
    (hdispatch : ledger.dispatch tx.body.target tx.body.data = .ok effect)
    (hgas : callGas tx.body.data ≤ tx.body.gas.toNat) :
    ledger.execute tx sender =
      match ledger.commit sender tx.body.target effect with
      | (.ok (), next) => (.ok (effect.outcome tx.body), next)
      | (.error fault, next) => (.error (.fault fault), next) := by
  have hintrinsic : ¬tx.body.gas.toNat < intrinsicGas tx.body.data := by
    unfold callGas at hgas
    omega
  simp only [execute, hnonce, ne_eq, not_true, if_false, hintrinsic, hdispatch,
    Nat.not_lt.mpr hgas]
  rfl

theorem execute_cases (ledger : Ledger) (tx : Transaction) (sender : Address) :
    ∃ result next, ledger.execute tx sender = (result, next) ∧
      Executed ledger tx sender result next := by
  by_cases hnonce : tx.body.nonce = ledger.nonces sender
  · by_cases hintrinsic : tx.body.gas.toNat < intrinsicGas tx.body.data
    · exact ⟨_, _, by simp only [execute, hnonce, ne_eq, not_true, if_false, hintrinsic, if_true],
        .rejected (.intrinsicGas tx.body.gas.toNat (intrinsicGas tx.body.data))⟩
    · rcases hdispatch : ledger.dispatch tx.body.target tx.body.data with r | effect
      · exact ⟨_, _, by simp only [execute, hnonce, ne_eq, not_true, if_false, hintrinsic,
          hdispatch], .reverted r⟩
      · by_cases hgas : tx.body.gas.toNat < callGas tx.body.data
        · exact ⟨_, _, by simp only [execute, hnonce, ne_eq, not_true, if_false, hintrinsic,
            hdispatch, hgas, if_true], .reverted .outOfGas⟩
        · have hle := Nat.le_of_not_lt hgas
          have accepted : Accepted ledger tx sender effect := ⟨hnonce, dispatched hdispatch, hle⟩
          rw [execute_of_accepts hnonce hdispatch hle, commit]
          by_cases hfrozen : ledger.frozen = true
          · exact ⟨_, _, by simp only [hfrozen, if_true, written], .held accepted hfrozen⟩
          · have running : ledger.frozen = false := Bool.eq_false_iff.mpr hfrozen
            rcases hcount : Word.add? (ledger.nonces sender) 1 with _ | nonce
            · exact ⟨_, _, by simp only [running, Bool.false_eq_true, if_false, written],
                .stranded accepted running hcount⟩
            · exact ⟨_, _, by simp only [running, Bool.false_eq_true, if_false, written],
                .advanced accepted running hcount⟩
  · exact ⟨_, _, by simp only [execute, hnonce, ne_eq, not_false_iff, if_true],
      .rejected (.nonceMismatch (ledger.nonces sender) tx.body.nonce)⟩

theorem executed {result : Except (Stop ExecutionError) Outcome}
    (h : ledger.execute tx sender = (result, next)) : Executed ledger tx sender result next := by
  obtain ⟨_, _, h', cases⟩ := execute_cases ledger tx sender
  obtain ⟨rfl, rfl⟩ := Prod.mk.inj (h.symm.trans h')
  exact cases

theorem Accepted.execute_of_counted {effect : Effect} {nonce : Word64}
    (h : Accepted ledger tx sender effect) (running : ledger.frozen = false)
    (counted : Word.add? (ledger.nonces sender) 1 = some nonce) :
    ledger.execute tx sender =
      (.ok (effect.outcome tx.body), (ledger.written tx.body effect).setNonce sender nonce) := by
  rw [execute_of_accepts h.nonce (dispatch_eq_ok_iff.mpr h.dispatched) h.gas, commit]
  simp only [running, counted, Bool.false_eq_true, if_false, written]

structure Grows (before after : Ledger) : Prop where
  environment : after.environment = before.environment
  stakeManager : after.stakeManager = before.stakeManager
  frozen : before.frozen = true → after.frozen = true
  storage : ∀ account slot, before.storage account slot ≠ 0 → after.storage account slot ≠ 0

theorem Grows.refl (ledger : Ledger) : Grows ledger ledger :=
  ⟨rfl, rfl, id, fun _ _ => id⟩

theorem Grows.trans {first mid last : Ledger} (h : Grows first mid) (h' : Grows mid last) :
    Grows first last :=
  ⟨h'.environment.trans h.environment, h'.stakeManager.trans h.stakeManager,
    h'.frozen ∘ h.frozen, fun account slot => h'.storage account slot ∘ h.storage account slot⟩

theorem grows_setNonce (ledger : Ledger) (account : Address) (nonce : Word64) :
    Grows ledger (ledger.setNonce account nonce) :=
  ⟨rfl, rfl, id, fun _ _ => id⟩

theorem grows_freeze (ledger : Ledger) : Grows ledger ledger.freeze :=
  ⟨rfl, rfl, fun _ => rfl, fun _ _ => id⟩

theorem grows_store (ledger : Ledger) (account : Address) (slot : Word64) {value : Word256}
    (h : value ≠ 0) : Grows ledger (ledger.store account slot value) := by
  refine ⟨rfl, rfl, id, fun a s kept => ?_⟩
  rw [storage_store]
  split
  · exact h
  · exact kept

theorem Accepted.grows_written {effect : Effect} (h : Accepted ledger tx sender effect) :
    Grows ledger (ledger.written tx.body effect) :=
  grows_store _ _ _ h.dispatched.value_ne_zero

theorem Executed.grows {result : Except (Stop ExecutionError) Outcome}
    (h : Executed ledger tx sender result next) : Grows ledger next := by
  cases h with
  | rejected | reverted => exact .refl ledger
  | stranded accepted | held accepted => exact accepted.grows_written
  | advanced accepted => exact accepted.grows_written.trans (grows_setNonce _ _ _)

theorem Executed.nonces_of_error {e : Stop ExecutionError}
    (h : Executed ledger tx sender (.error e) next) : next.nonces = ledger.nonces := by
  cases h <;> rfl

theorem Executed.ne_overflow {e : Stop ExecutionError}
    (h : Executed ledger tx sender (.error e) next) : e ≠ .failed .gasOverflow := by
  cases h <;> nofun

structure Counted (ledger : Ledger) (tx : Transaction) (sender : Address) (next : Ledger) :
    Prop where
  nonce : tx.body.nonce = ledger.nonces sender
  others : ∀ account, account ≠ sender → next.nonces account = ledger.nonces account
  held : ledger.frozen = true → next.nonces = ledger.nonces
  advanced : ledger.frozen = false →
    (next.nonces sender).toNat = (ledger.nonces sender).toNat + 1

theorem Executed.counted {result : Except (Stop ExecutionError) Outcome} {outcome : Outcome}
    (h : Executed ledger tx sender result next) (ok : result = .ok outcome) :
    Counted ledger tx sender next := by
  cases h with
  | rejected | reverted | stranded => cases ok
  | held accepted frozen =>
    exact ⟨accepted.nonce, fun _ _ => rfl, fun _ => rfl,
      fun running => absurd frozen (Bool.eq_false_iff.mp running)⟩
  | advanced accepted running counted =>
    refine ⟨accepted.nonce, fun account other => ?_,
      fun frozen => absurd frozen (Bool.eq_false_iff.mp running), fun _ => ?_⟩
    · rw [nonces_setNonce, if_neg other]
      rfl
    · rw [nonces_setNonce, if_pos rfl]
      exact Word.add?_eq_some_iff.mp counted

theorem Executed.stored {result : Except (Stop ExecutionError) Outcome} {outcome : Outcome}
    (h : Executed ledger tx sender result next) (ok : result = .ok outcome) :
    ∃ effect, Accepted ledger tx sender effect ∧ outcome = effect.outcome tx.body ∧
      next.storage = (ledger.written tx.body effect).storage := by
  cases h with
  | rejected | reverted | stranded => cases ok
  | held accepted | advanced accepted =>
    exact ⟨_, accepted, (Except.ok.inj ok).symm, rfl⟩

theorem Executed.accepted {result : Except (Stop ExecutionError) Outcome} {outcome : Outcome}
    (h : Executed ledger tx sender result next) (ok : result = .ok outcome) :
    ∃ effect, Accepted ledger tx sender effect ∧ outcome = effect.outcome tx.body ∧
      next.storage tx.body.target effect.slot = effect.value := by
  obtain ⟨effect, accepted, houtcome, stored⟩ := h.stored ok
  refine ⟨effect, accepted, houtcome, ?_⟩
  rw [stored, written, storage_store]
  exact if_pos ⟨rfl, rfl⟩

theorem Executed.frozen {result : Except (Stop ExecutionError) Outcome}
    (h : Executed ledger tx sender result next) : next.frozen = ledger.frozen := by
  cases h <;> rfl

theorem Accepted.toNat_gasUsed {effect : Effect} (h : Accepted ledger tx sender effect) :
    (effect.outcome tx.body).gasUsed.toNat = callGas tx.body.data := by
  have hgas : callGas tx.body.data < 2 ^ 64 := Nat.lt_of_le_of_lt h.gas tx.body.gas.isLt
  rw [Effect.outcome, BitVec.toNat_ofNat, Nat.mod_eq_of_lt hgas]

theorem Accepted.gasUsed_ne_zero {effect : Effect} (h : Accepted ledger tx sender effect) :
    (effect.outcome tx.body).gasUsed ≠ 0 := by
  have hpos : 0 < callGas tx.body.data := by
    unfold callGas
    omega
  intro hzero
  rw [← h.toNat_gasUsed, hzero] at hpos
  exact Nat.lt_irrefl 0 hpos

end State.Ledger

end StakedChain
