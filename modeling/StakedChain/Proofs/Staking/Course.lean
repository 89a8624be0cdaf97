import StakedChain.Proofs.Staking.Backlog
import StakedChain.Proofs.Staking.Talk

namespace StakedChain.Staking.Query

open Abi

inductive Step where
  | push (response : Except CallError Bytes)
  | validators (block : BlockRef) (epoch : Word64)
  | rewards (block : BlockRef)
  | environment (block : BlockRef)

inductive Reply where
  | pushed
  | roster (result : Except Failure Roster)
  | total (result : Except Failure Word256)
  | parameters (result : Except Failure Environment)

def Reply.unread : Reply → Nat
  | roster result => Query.unread result
  | pushed | total _ | parameters _ => 0

namespace Step

variable {σ τ : Type}

def run (caller : Caller σ) (push : σ → Except CallError Bytes → σ) (cfg : Config)
    (s : Session σ) : Step → Reply × Session σ
  | .push response => (.pushed, ⟨push s.caller response, s.metrics⟩)
  | .validators block epoch =>
    let (result, s) := nextValidators caller cfg block epoch s
    (.roster result, s)
  | .rewards block =>
    let (result, s) := Query.rewards caller cfg block s
    (.total result, s)
  | .environment block =>
    let (result, s) := nextEnvironment caller cfg block s
    (.parameters result, s)

def runAll (caller : Caller σ) (push : σ → Except CallError Bytes → σ) (cfg : Config) :
    List Step → Session σ → List Reply × Session σ
  | [], s => ([], s)
  | step :: steps, s =>
    let (reply, s) := step.run caller push cfg s
    let (replies, s) := runAll caller push cfg steps s
    (reply :: replies, s)

def pushed : Step → Option (Except CallError Bytes)
  | .push response => some response
  | .validators .. | .rewards _ | .environment _ => none

def block? : Step → Option BlockRef
  | .push _ => none
  | .validators block _ | .rewards block | .environment block => some block

def queries (cfg : Config) : Step → List (Method × Address)
  | .push _ => []
  | .validators .. => [(Contracts.validators, cfg.stakeManager)]
  | .rewards _ =>
    [(Contracts.validatorOwners, cfg.stakeManager), (Contracts.totalRewards, cfg.stakeManager)]
  | .environment _ => [(Contracts.nextEnvironment, cfg.environment)]

def Makes (cfg : Config) (step : Step) (x : Request × BlockRef) : Prop :=
  step.block? = some x.2 ∧ ∃ query ∈ step.queries cfg, Poses query.1 query.2 x.1

end Step

section refinement

variable {σ τ : Type} {f : τ → σ} {fine : Caller τ} {coarse : Caller σ}
  {finePush : τ → Except CallError Bytes → τ} {coarsePush : σ → Except CallError Bytes → σ}
  (refines : Caller.Refines f fine coarse)
  (pushes : ∀ t response, coarsePush (f t) response = f (finePush t response))
  (cfg : Config)

include refines

theorem rewards_of_refines (block : BlockRef) (s : Session τ) :
    rewards coarse cfg block (s.map f) =
      ((rewards fine cfg block s).1, (rewards fine cfg block s).2.map f) := by
  simp only [rewards, ask_of_refines refines]
  rcases ask fine cfg.stakeManager Contracts.validatorOwners
    [.uint 0, .uint (Word.widen 256 cfg.pageSize)] block readOwners s with ⟨e | owners, next⟩
  · rfl
  · exact ask_of_refines refines _ _ _ _ _ next

include pushes

theorem Step.run_of_refines (step : Step) (s : Session τ) :
    step.run coarse coarsePush cfg (s.map f) =
      ((step.run fine finePush cfg s).1, (step.run fine finePush cfg s).2.map f) := by
  cases step with
  | push response =>
    simp only [run, Session.map, pushes]
  | validators block epoch =>
    simp only [run, nextValidators, enumerate_of_refines cfg block epoch refines]
  | rewards block => simp only [run, rewards_of_refines refines]
  | environment block => simp only [run, nextEnvironment, ask_of_refines refines]

theorem Step.runAll_of_refines (steps : List Step) (s : Session τ) :
    runAll coarse coarsePush cfg steps (s.map f) =
      ((runAll fine finePush cfg steps s).1, (runAll fine finePush cfg steps s).2.map f) := by
  induction steps generalizing s with
  | nil => rfl
  | cons step steps ih =>
    simp only [runAll, step.run_of_refines refines pushes, ih]

end refinement

section invariant

variable {σ : Type} {caller : Caller σ} {P : σ → Prop} (kept : caller.Keeps P) (cfg : Config)

include kept

theorem ask_keeps {α : Type} (target : Address) (method : Method) (args : List Value)
    (block : BlockRef) (read : Reader α) {s : Session σ} (h : P s.caller) :
    P (ask caller target method args block read s).2.caller := by
  cases encoded : method.encodeCall args with
  | error e => simpa only [ask, encoded] using h
  | ok data =>
    rw [ask_eq encoded]
    exact kept _ _ _ h

theorem rewards_keeps (block : BlockRef) {s : Session σ} (h : P s.caller) :
    P (rewards caller cfg block s).2.caller := by
  have first := ask_keeps kept cfg.stakeManager Contracts.validatorOwners
    [.uint 0, .uint (Word.widen 256 cfg.pageSize)] block readOwners h
  unfold rewards
  rcases hask : ask caller cfg.stakeManager Contracts.validatorOwners
    [.uint 0, .uint (Word.widen 256 cfg.pageSize)] block readOwners s with ⟨e | owners, next⟩ <;>
    rw [hask] at first
  · exact first
  · exact ask_keeps kept _ _ _ _ _ first

end invariant

section record

open CallQueue

variable (cfg : Config) {responses : List (Except CallError Bytes)}
  {s : Session (CallQueue × List CallQueue.Event)}

theorem Step.run_recorded (step : Step) (h : Recorded responses s.caller) :
    Recorded (responses ++ step.pushed.toList)
      (step.run logged pushLogged cfg s).2.caller := by
  have kept := keeps_recorded responses
  cases step with
  | push response => exact h.push response
  | validators block epoch =>
    simp only [pushed, Option.toList_none, List.append_nil]
    exact enumerate_keeps cfg block epoch kept _ _ _ h
  | rewards block =>
    simp only [pushed, Option.toList_none, List.append_nil]
    exact rewards_keeps kept cfg block h
  | environment block =>
    simp only [pushed, Option.toList_none, List.append_nil]
    exact ask_keeps kept cfg.environment Contracts.nextEnvironment [] block readEnvironment h

theorem Step.runAll_recorded (steps : List Step) (h : Recorded responses s.caller) :
    Recorded (responses ++ steps.filterMap pushed)
      (runAll logged pushLogged cfg steps s).2.caller := by
  induction steps generalizing responses s with
  | nil => rwa [List.filterMap_nil, List.append_nil]
  | cons step steps ih =>
    have hpushed : (step :: steps).filterMap pushed =
        step.pushed.toList ++ steps.filterMap pushed := by
      cases h : step.pushed <;> simp [h]
    rw [hpushed, ← List.append_assoc]
    exact ih (step.run_recorded cfg h)

end record

end StakedChain.Staking.Query
