import StakedChain.Proofs.Issue.Posting

namespace StakedChain.Issue

open Block Staking State

structure Issuance where
  role : Role
  header : Header
  history : History
  op : Operation
  assembly : Assembly
  received : List Transaction
  metrics : IssueMetrics

namespace Issuance

def site (i : Issuance) (ledger : Ledger) : Site Ledger :=
  ⟨ledger, i.assembly, i.received, i.metrics⟩

def run (cfg : Config) (i : Issuance) (ledger : Ledger) :
    Except (Stop Failure) Unit × Site Ledger :=
  i.op.run Ledger.machine cfg i.role i.header i.history (i.site ledger)

def appended (cfg : Config) (i : Issuance) (ledger : Ledger) : List Transaction :=
  (i.run cfg ledger).2.assembly.transactions.drop i.assembly.transactions.length

def Discerns (cfg : Config) (i : Issuance) (ledger : Ledger) : Prop :=
  SystemCall.DiscernsAll Ledger.machine cfg i.role i.header i.history (i.op.calls cfg)
    (i.site ledger)

theorem run_posts (cfg : Config) (i : Issuance) (ledger : Ledger) :
    (i.run cfg ledger).2.assembly.transactions =
        i.assembly.transactions ++ i.appended cfg ledger ∧
      Posts i.header.coinbase ledger (i.run cfg ledger).2.state (i.appended cfg ledger) := by
  obtain ⟨txs, happended, posts⟩ := SystemCall.runAll_posts cfg i.role i.header i.history
    (i.op.calls cfg) (i.site ledger)
  have heq : i.appended cfg ledger = txs := (congrArg _ happended).trans List.drop_left
  rw [heq]
  exact ⟨happended, posts⟩

theorem run_balanced {cfg : Config} {i : Issuance} {ledger : Ledger}
    (discerns : i.Discerns cfg ledger) :
    ((i.run cfg ledger).2.state.nonces i.header.coinbase).toNat =
      (ledger.nonces i.header.coinbase).toNat + (i.appended cfg ledger).length +
        lost (i.run cfg ledger).1 := by
  have mem : ∀ call ∈ i.op.calls cfg, call ∈ [i.op].flatMap (Operation.calls cfg) := by
    intro call h
    rwa [List.flatMap_singleton]
  have balanced : SystemCall.Balanced i.header.coinbase (i.site ledger) (i.run cfg ledger).2
      (i.run cfg ledger).1 := SystemCall.runAll_balanced mem discerns
  have hlength := congrArg List.length (i.run_posts cfg ledger).1
  rw [List.length_append] at hlength
  simp only [SystemCall.Balanced, site, hlength] at balanced
  omega

end Issuance

inductive Step where
  | issue (i : Issuance)
  | setNonce (account : Address) (nonce : Word64)
  | freeze
  | execute (tx : Transaction) (sender : Address)

namespace Step

def apply (cfg : Config) (ledger : Ledger) : Step → Ledger
  | issue i => (i.run cfg ledger).2.state
  | setNonce account nonce => ledger.setNonce account nonce
  | freeze => ledger.freeze
  | execute tx sender => (ledger.execute tx sender).2

theorem apply_grows (cfg : Config) (ledger : Ledger) (step : Step) :
    Ledger.Grows ledger (step.apply cfg ledger) := by
  cases step with
  | issue i => exact (i.run_posts cfg ledger).2.grows
  | setNonce account nonce => exact ledger.grows_setNonce account nonce
  | freeze => exact ledger.grows_freeze
  | execute tx sender =>
    obtain ⟨result, next, h, cases⟩ := ledger.execute_cases tx sender
    rw [apply, h]
    exact cases.grows

def applyAll (cfg : Config) : List Step → Ledger → Ledger
  | [], ledger => ledger
  | step :: steps, ledger => applyAll cfg steps (step.apply cfg ledger)

theorem applyAll_append (cfg : Config) (steps later : List Step) (ledger : Ledger) :
    applyAll cfg (steps ++ later) ledger = applyAll cfg later (applyAll cfg steps ledger) := by
  induction steps generalizing ledger with
  | nil => rfl
  | cons step steps ih => exact ih _

theorem applyAll_grows (cfg : Config) (steps : List Step) (ledger : Ledger) :
    Ledger.Grows ledger (applyAll cfg steps ledger) := by
  induction steps generalizing ledger with
  | nil => exact .refl ledger
  | cons step steps ih => exact (step.apply_grows cfg ledger).trans (ih _)

end Step

end StakedChain.Issue
