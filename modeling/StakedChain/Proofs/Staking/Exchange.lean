import StakedChain.Call.Queue
import StakedChain.Staking.Query

namespace StakedChain

structure Exchange where
  request : Request
  block : BlockRef
  response : Except CallError Bytes

namespace Exchange

def asked (x : Exchange) : Request × BlockRef :=
  (x.request, x.block)

end Exchange

section

variable {σ τ : Type}

-- The caller as it is, with a list of what it was asked and what it answered beside its state.
def Caller.recorded (caller : Caller σ) : Caller (σ × List Exchange) :=
  fun request block (s, seen) =>
    let (response, rest) := caller request block s
    (response, (rest, seen ++ [⟨request, block, response⟩]))

def Caller.Refines (f : τ → σ) (fine : Caller τ) (coarse : Caller σ) : Prop :=
  ∀ request block t, coarse request block (f t) =
    ((fine request block t).1, f (fine request block t).2)

theorem Caller.recorded_refines (caller : Caller σ) :
    Caller.Refines Prod.fst caller.recorded caller :=
  fun _ _ _ => rfl

def Caller.Keeps (caller : Caller σ) (P : σ → Prop) : Prop :=
  ∀ request block s, P s → P (caller request block s).2

end

namespace CallQueue

def Served (queue : CallQueue) : CallQueue × List Exchange → Prop
  | (rest, seen) =>
    rest = ⟨queue.responses.drop seen.length, queue.requests ++ seen.map Exchange.asked⟩ ∧
      seen.map (·.response) =
        (List.range seen.length).map fun i => answer (queue.responses.drop i)

theorem served_nil (queue : CallQueue) : queue.Served (queue, []) := by
  constructor
  · simp
  · rfl

theorem keeps_served (queue : CallQueue) : (Caller.recorded call).Keeps queue.Served := by
  rintro request block ⟨rest, seen⟩ ⟨rfl, hseen⟩
  constructor
  · simp [Caller.recorded, call, Exchange.asked]
  · simp [Caller.recorded, call, List.range_succ, hseen]

end CallQueue

namespace Staking.Query

open Abi

variable {σ τ α : Type}

def Session.map (f : τ → σ) (s : Session τ) : Session σ :=
  ⟨f s.caller, s.metrics⟩

def Session.counted (method : Method) (s : Session σ) (rest : σ) : Session σ :=
  ⟨rest, { s.metrics with calls := s.metrics.calls.increment method.name }⟩

def receive (method : Method) (read : Reader α) : Except CallError Bytes → Except Failure α
  | .error e => .error (.call e)
  | .ok output =>
    match method.decodeOutput output with
    | .error e => .error (.decoding e)
    | .ok vs =>
      match read vs with
      | .error e => .error (.conversion e)
      | .ok x => .ok x

theorem receive_eq_ok_iff {method : Method} {read : Reader α}
    {response : Except CallError Bytes} {x : α} : receive method read response = .ok x ↔
      ∃ output vs, response = .ok output ∧ method.decodeOutput output = .ok vs ∧
        read vs = .ok x := by
  cases response with
  | error e => simp only [receive, reduceCtorEq, false_and, exists_false]
  | ok output =>
    cases decoded : method.decodeOutput output with
    | error e => simp [receive, decoded]
    | ok vs => cases hread : read vs <;> simp [receive, decoded, hread]

theorem ask_eq {caller : Caller σ} {target : Address} {method : Method} {args : List Value}
    {block : BlockRef} {read : Reader α} {data : Bytes}
    (encoded : method.encodeCall args = .ok data) (s : Session σ) :
    ask caller target method args block read s =
      (receive method read (caller ⟨none, target, data⟩ block s.caller).1,
        s.counted method (caller ⟨none, target, data⟩ block s.caller).2) := by
  simp only [ask, encoded]
  cases (caller ⟨none, target, data⟩ block s.caller).1 with
  | error e => rfl
  | ok output =>
    simp only [receive]
    cases method.decodeOutput output with
    | error e => rfl
    | ok vs =>
      simp only
      cases read vs <;> rfl

theorem ask_of_refines {f : τ → σ} {fine : Caller τ} {coarse : Caller σ}
    (refines : Caller.Refines f fine coarse) (target : Address) (method : Method)
    (args : List Value) (block : BlockRef) (read : Reader α) (s : Session τ) :
    ask coarse target method args block read (s.map f) =
      ((ask fine target method args block read s).1,
        (ask fine target method args block read s).2.map f) := by
  cases encoded : method.encodeCall args with
  | error e => simp only [ask, encoded]
  | ok data =>
    rw [ask_eq encoded, ask_eq encoded, Session.map, refines]
    rfl

end Staking.Query

end StakedChain
