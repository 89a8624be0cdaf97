import StakedChain.Proofs.Issue.Chronicle

namespace StakedChain.Issue

open Abi Block Staking State

structure Hosts (ledger : Ledger) (cfg : Config) : Prop where
  environment : ledger.environment = cfg.environment
  stakeManager : ledger.stakeManager = cfg.stakeManager
  apart : cfg.environment ≠ cfg.stakeManager

variable {cfg : Config} {role : Role} {header : Header} {history : History} {ledger next : Ledger}

theorem Hosts.grow (hosts : Hosts ledger cfg) (grows : Ledger.Grows ledger next) :
    Hosts next cfg :=
  ⟨grows.environment.trans hosts.environment, grows.stakeManager.trans hosts.stakeManager,
    hosts.apart⟩

theorem hosts_empty (valid : cfg.Valid) : Hosts (.empty cfg.environment cfg.stakeManager) cfg := by
  obtain ⟨-, -, -, -, apart, -, -⟩ := cfg.valid_iff.mp valid
  exact ⟨rfl, rfl, apart⟩

def Founded (cfg : Config) (ledger : Ledger) : Prop :=
  ledger.storage cfg.environment Ledger.readySlot ≠ 0

theorem Founded.grow (founded : Founded cfg ledger) (grows : Ledger.Grows ledger next) :
    Founded cfg next :=
  grows.storage _ _ founded

theorem Hosts.dispatched {data : Bytes} {effect : Ledger.Effect} (hosts : Hosts ledger cfg)
    (h : Ledger.Dispatched ledger cfg.environment data effect) :
    ¬Founded cfg ledger ∧ effect = ⟨Ledger.readySlot, 1, Contracts.environmentReady⟩ := by
  cases h with
  | environment _ _ _ vacant => exact ⟨fun founded => founded vacant, rfl⟩
  | manager called | slash called =>
    exact absurd (called.trans hosts.stakeManager) hosts.apart

namespace SystemCall

variable {call : SystemCall} {site after : Site Ledger} {tx : Transaction}

-- A confirmed call has been executed at its target, also when a validator mistook the rest of it.
theorem Committed.founds (hosts : Hosts site.state cfg) (target : call.target = cfg.environment)
    (h : Committed Ledger.machine cfg role header history call site tx after) :
    ¬Founded cfg site.state ∧ Founded cfg after.state := by
  obtain ⟨outcome, executed, confirmed⟩ := h.on_ledger
  obtain ⟨effect, accepted, rfl, stored⟩ := executed.accepted rfl
  obtain ⟨-, -, log, hlogs, haddress, -⟩ := confirm_eq_ok_iff.mp confirmed
  obtain rfl : _ = log := (List.cons.inj hlogs).1
  have called : tx.body.target = cfg.environment := haddress.trans target
  have dispatched := accepted.dispatched
  rw [called] at dispatched stored
  obtain ⟨vacant, rfl⟩ := hosts.dispatched dispatched
  refine ⟨vacant, ?_⟩
  rw [Founded, stored]
  exact (by decide : (1 : Word256) ≠ 0)

theorem run_fails_of_founded (role : Role) (header : Header) (history : History)
    (hosts : Hosts site.state cfg) (target : call.target = cfg.environment)
    (founded : Founded cfg site.state) :
    ∃ e after, call.run Ledger.machine cfg role header history site = (.error e, after) := by
  rcases run_cases Ledger.machine cfg role header history call site with
    ⟨tx, after, -, committed⟩ | ⟨e, after, hrun, -⟩
  · exact absurd founded (committed.founds hosts target).1
  · exact ⟨e, after, hrun⟩

theorem Sealed.not_accepted {ops : List Operation} {before : Word64} {read : Ledger}
    {effect : Ledger.Effect} {received : List Transaction} (hosts : Hosts site.state cfg)
    (mem : call ∈ ops.flatMap (Operation.calls cfg)) (target : call.target = cfg.environment)
    (founded : Founded cfg site.state)
    (discerns : call.Discerns Ledger.machine cfg role header site)
    (h : Sealed Ledger.machine cfg role header call site before read (.ok tx) received) :
    ¬Ledger.Accepted site.state tx header.coinbase effect := by
  intro accepted
  obtain ⟨data, -, hbody⟩ := h.body mem discerns
  have dispatched := accepted.dispatched
  rw [(congrArg Body.target hbody).trans target] at dispatched
  exact (hosts.dispatched dispatched).1 founded

theorem Aborted.of_founded {ops : List Operation} {e : Stop Failure} (hosts : Hosts site.state cfg)
    (range : cfg.chainId ≤ maxChainId) (mem : call ∈ ops.flatMap (Operation.calls cfg))
    (target : call.target = cfg.environment) (founded : Founded cfg site.state)
    (discerns : call.Discerns Ledger.machine cfg role header site)
    (h : Aborted Ledger.machine cfg role header history call site e after) :
    ∃ cause, e = .failed (.execution cause) ∧
      after = { site with received := role.left site.received } := by
  cases h with
  | encoding encoded =>
    obtain ⟨data, encoded', -⟩ := Operation.encoded_of_mem_calls mem
    rw [encoded'] at encoded
    cases encoded
  | sealing sealed =>
    obtain ⟨-, rfl⟩ := sealed.on_ledger
    obtain rfl := sealed.received
    obtain ⟨-, -, sealed⟩ := sealed
    rcases Role.of_seal_error sealed with ⟨-, out⟩ | ⟨cause, rfl, -⟩
    · exact absurd range out
    · exact ⟨cause, rfl, rfl⟩
  | execution sealed executed =>
    obtain ⟨-, rfl⟩ := sealed.on_ledger
    obtain rfl := sealed.received
    cases Ledger.executed executed with
    | rejected | reverted => exact ⟨_, rfl, rfl⟩
    | stranded accepted =>
      exact absurd accepted (sealed.not_accepted hosts mem target founded discerns)
  | confirmation sealed executed | overflow sealed executed =>
    obtain ⟨-, rfl⟩ := sealed.on_ledger
    obtain ⟨effect, accepted, -⟩ := (Ledger.executed executed).accepted rfl
    exact absurd accepted (sealed.not_accepted hosts mem target founded discerns)

theorem run_refused_of_founded {ops : List Operation} (history : History)
    (hosts : Hosts site.state cfg)
    (range : cfg.chainId ≤ maxChainId) (mem : call ∈ ops.flatMap (Operation.calls cfg))
    (target : call.target = cfg.environment) (founded : Founded cfg site.state)
    (discerns : call.Discerns Ledger.machine cfg role header site) :
    ∃ e, call.run Ledger.machine cfg role header history site =
      (.error (.failed (.execution e)), { site with received := role.left site.received }) := by
  rcases run_cases Ledger.machine cfg role header history call site with
    ⟨tx, after, -, committed⟩ | ⟨e, after, hrun, aborted⟩
  · exact absurd founded (committed.founds hosts target).1
  · obtain ⟨cause, rfl, rfl⟩ := aborted.of_founded hosts range mem target founded discerns
    exact ⟨cause, hrun⟩

end SystemCall

theorem Operation.founding (cfg : Config) : ∃ first rest,
    Operation.bootstrap.calls cfg = first :: rest ∧ first.target = cfg.environment :=
  ⟨_, _, rfl, rfl⟩

namespace Issuance

variable {i : Issuance}

theorem run_fails_of_founded (hosts : Hosts ledger cfg) (hop : i.op = .bootstrap)
    (founded : Founded cfg ledger) : ∃ e after, i.run cfg ledger = (.error e, after) := by
  obtain ⟨first, rest, hcalls, target⟩ := Operation.founding cfg
  obtain ⟨e, after, hrun⟩ : ∃ e after, first.run Ledger.machine cfg i.role i.header i.history
      (i.site ledger) = (.error e, after) :=
    SystemCall.run_fails_of_founded i.role i.header i.history hosts target founded
  exact ⟨e, after, by simp only [run, hop, Operation.run, hcalls, SystemCall.runAll, hrun]⟩

theorem run_refused_of_founded (hosts : Hosts ledger cfg) (range : cfg.chainId ≤ maxChainId)
    (hop : i.op = .bootstrap) (founded : Founded cfg ledger) (discerns : i.Discerns cfg ledger) :
    ∃ e, i.run cfg ledger = (.error (.failed (.execution e)),
      { i.site ledger with received := i.role.left i.received }) := by
  obtain ⟨first, rest, hcalls, target⟩ := Operation.founding cfg
  have mem : first ∈ [Operation.bootstrap].flatMap (Operation.calls cfg) := by
    rw [List.flatMap_singleton, hcalls]
    exact List.mem_cons_self
  rw [Discerns, hop, hcalls] at discerns
  obtain ⟨e, hrun⟩ := SystemCall.run_refused_of_founded i.history hosts range mem target founded
    discerns.1
  refine ⟨e, ?_⟩
  simp only [run, hop, Operation.run, hcalls, SystemCall.runAll, hrun]
  rfl

theorem founds_of_run_ok (hosts : Hosts ledger cfg) (hop : i.op = .bootstrap)
    (ok : (i.run cfg ledger).1.isOk = true) :
    ¬Founded cfg ledger ∧ Founded cfg (i.run cfg ledger).2.state := by
  obtain ⟨first, rest, hcalls, target⟩ := Operation.founding cfg
  have hrun := eq_ok_of_isOk ok
  rw [run, hop, Operation.run, hcalls] at hrun
  obtain ⟨txs, committed⟩ := SystemCall.runAll_eq_ok_iff.mp hrun
  cases committed with
  | @cons _ _ _ mid _ _ _ hfirst hrest =>
    obtain ⟨vacant, founded⟩ := hfirst.founds hosts target
    obtain ⟨_, -, posts⟩ := SystemCall.runAll_posts cfg i.role i.header i.history rest mid
    rw [SystemCall.runAll_eq_ok_iff.mpr ⟨_, hrest⟩] at posts
    refine ⟨vacant, ?_⟩
    rw [run, hop, Operation.run, hcalls]
    exact founded.grow posts.grows

end Issuance

namespace Step

def foundings (cfg : Config) (ledger : Ledger) : Step → Nat
  | issue i => if i.op = .bootstrap ∧ (i.run cfg ledger).1.isOk = true then 1 else 0
  | _ => 0

def foundingsAll (cfg : Config) : List Step → Ledger → Nat
  | [], _ => 0
  | step :: steps, ledger =>
    step.foundings cfg ledger + foundingsAll cfg steps (step.apply cfg ledger)

theorem foundings_cases (hosts : Hosts ledger cfg) (step : Step) :
    step.foundings cfg ledger = 0 ∨
      step.foundings cfg ledger = 1 ∧ ¬Founded cfg ledger ∧ Founded cfg (step.apply cfg ledger) := by
  cases step with
  | issue i =>
    by_cases h : i.op = .bootstrap ∧ (i.run cfg ledger).1.isOk = true
    · exact .inr ⟨if_pos h, Issuance.founds_of_run_ok hosts h.1 h.2⟩
    · exact .inl (if_neg h)
  | setNonce | freeze | execute => exact .inl rfl

theorem foundingsAll_of_founded (hosts : Hosts ledger cfg) (founded : Founded cfg ledger)
    (steps : List Step) : foundingsAll cfg steps ledger = 0 := by
  induction steps generalizing ledger with
  | nil => rfl
  | cons step steps ih =>
    have grows := step.apply_grows cfg ledger
    have later := ih (hosts.grow grows) (founded.grow grows)
    rcases foundings_cases hosts step with hstep | ⟨-, vacant, -⟩
    · rw [foundingsAll, hstep, later]
    · exact absurd founded vacant

theorem foundingsAll_le_one (hosts : Hosts ledger cfg) (steps : List Step) :
    foundingsAll cfg steps ledger ≤ 1 := by
  induction steps generalizing ledger with
  | nil => exact Nat.zero_le 1
  | cons step steps ih =>
    have hosts' := hosts.grow (step.apply_grows cfg ledger)
    rcases foundings_cases hosts step with hstep | ⟨hstep, -, founded⟩
    · rw [foundingsAll, hstep, Nat.zero_add]
      exact ih hosts'
    · exact Nat.le_of_eq (by rw [foundingsAll, hstep, foundingsAll_of_founded hosts' founded])

theorem bootstrap_at_most_once (valid : cfg.Valid) (steps : List Step) :
    foundingsAll cfg steps (.empty cfg.environment cfg.stakeManager) ≤ 1 ∧
    (Founded cfg (applyAll cfg steps (.empty cfg.environment cfg.stakeManager)) →
      ∀ (later : List Step) (i : Issuance) (ledger : Ledger), i.op = .bootstrap →
        applyAll cfg (steps ++ later) (.empty cfg.environment cfg.stakeManager) = ledger →
        (∃ e after, i.run cfg ledger = (.error e, after)) ∧
        (i.Discerns cfg ledger → ∃ e, i.run cfg ledger = (.error (.failed (.execution e)),
          { i.site ledger with received := i.role.left i.received }))) := by
  have hosts := hosts_empty valid
  refine ⟨foundingsAll_le_one hosts steps, fun founded later i ledger hop reached => ?_⟩
  rw [applyAll_append] at reached
  subst reached
  have founded' := founded.grow (applyAll_grows cfg later _)
  have hosts' := (hosts.grow (applyAll_grows cfg steps _)).grow (applyAll_grows cfg later _)
  exact ⟨Issuance.run_fails_of_founded hosts' hop founded',
    Issuance.run_refused_of_founded hosts' (cfg.valid_iff.mp valid).1 hop founded'⟩

end Step

namespace Trial

def halfway : Issuance :=
  ⟨.producer lenient, .empty, .empty, .bootstrap, .empty 0xffffffffffff0000, [], ⟨[], 0⟩⟩

def reached : Ledger :=
  Step.applyAll config [.issue halfway, .setNonce (.zero 20) 0]
    (.empty config.environment config.stakeManager)

theorem founded_halfway : Founded config
    (Step.applyAll config [.issue halfway] (.empty config.environment config.stakeManager)) := by
  unfold Founded
  decide +kernel

theorem bootstrap_not_resumed : config.Valid ∧
    Step.foundingsAll config [.issue halfway] (.empty config.environment config.stakeManager) ≤ 1 ∧
    Founded config
      (Step.applyAll config [.issue halfway] (.empty config.environment config.stakeManager)) ∧
    ∃ e, Issuance.run config { halfway with assembly := .empty 0 } reached =
      (.error (.failed (.execution e)), ⟨reached, .empty 0, [], ⟨[], 0⟩⟩) := by
  have valid : config.Valid := by decide
  obtain ⟨once, never⟩ := Step.bootstrap_at_most_once valid [.issue halfway]
  obtain ⟨-, refused⟩ := never founded_halfway [.setNonce (.zero 20) 0]
    { halfway with assembly := .empty 0 } reached rfl rfl
  exact ⟨valid, once, founded_halfway, refused (SystemCall.discernsAll_producer _ _ _ _)⟩

end Trial

end StakedChain.Issue
