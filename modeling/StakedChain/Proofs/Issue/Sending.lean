import Mathlib.Data.List.Forall2
import StakedChain.Proofs.Issue.Recording

namespace StakedChain

open Block

-- The machine as it is, with the transactions that it was given to execute beside its state.
def State.Machine.noted {σ : Type} (m : Machine σ) : Machine (σ × List Transaction) where
  nonce account s :=
    let (count, rest) := m.nonce account s.1
    (count, (rest, s.2))
  execute tx sender header history s :=
    let (result, rest) := m.execute tx sender header history s.1
    (result, (rest, s.2 ++ [tx]))

section

variable {σ : Type} {m : State.Machine σ} {s rest : σ × List Transaction}

theorem State.Machine.noted_of_nonce {account : Address} {count : Word64}
    (h : m.noted.nonce account s = (count, rest)) : rest.2 = s.2 :=
  congrArg (·.2.2) h.symm

theorem State.Machine.noted_of_execute {tx : Transaction} {sender : Address} {header : Header}
    {history : History} {result : Except (Stop ExecutionError) Outcome}
    (h : m.noted.execute tx sender header history s = (result, rest)) :
    rest.2 = s.2 ++ [tx] :=
  congrArg (·.2.2) h.symm

end

namespace Issue

open Abi Staking State

variable {σ : Type} {m : Machine σ} {cfg : Config} {role : Role} {header : Header}
  {history : History}

def Site.forget (site : Site (σ × List Transaction)) : Site σ :=
  ⟨site.state.1, site.assembly, site.received, site.metrics⟩

namespace SystemCall

theorem run_noted (call : SystemCall) (site : Site (σ × List Transaction)) :
    call.run m cfg role header history site.forget =
      ((call.run m.noted cfg role header history site).1,
        (call.run m.noted cfg role header history site).2.forget) := by
  rcases encoded : call.method.encodeCall call.args with e | data
  · simp only [run, encoded]
  rcases counted : m.nonce header.coinbase site.state.1 with ⟨before, read⟩
  rcases sealed : role.seal call.method.name cfg.chainId header.coinbase
    (call.body cfg before data) site.received with ⟨e | tx, received⟩
  · simp only [run, Site.forget, Machine.noted, encoded, counted, sealed]
  rcases executed : m.execute tx header.coinbase header history read with ⟨e | outcome, ran⟩
  · simp only [run, Site.forget, Machine.noted, encoded, counted, sealed, executed]
  rcases recounted : m.nonce header.coinbase ran with ⟨after, settled⟩
  rcases confirmed : call.confirm header.coinbase before after outcome with e | ⟨⟩
  · simp only [run, Site.forget, Machine.noted, encoded, counted, sealed, executed, recounted,
      confirmed]
  · rcases pushed : site.assembly.push? tx outcome header with _ | assembly <;>
      simp only [run, Site.forget, Machine.noted, encoded, counted, sealed, executed, recounted,
        confirmed, pushed]

theorem runAll_noted (calls : List SystemCall) (site : Site (σ × List Transaction)) :
    runAll m cfg role header history calls site.forget =
      ((runAll m.noted cfg role header history calls site).1,
        (runAll m.noted cfg role header history calls site).2.forget) := by
  induction calls generalizing site with
  | nil => rfl
  | cons call calls ih =>
    simp only [runAll, run_noted]
    rcases call.run m.noted cfg role header history site with ⟨e | ⟨⟩, next⟩
    · rfl
    · exact ih next

def Sends (cfg : Config) (call : SystemCall) (tx : Transaction) : Prop :=
  ∃ nonce data, call.method.encodeCall call.args = .ok data ∧ tx.body = call.body cfg nonce data

variable {signer : Signer} {call : SystemCall} {site next : Site (σ × List Transaction)}

theorem Sealed.sends {before : Word64} {read : σ × List Transaction} {tx : Transaction}
    {received : List Transaction}
    (h : Sealed m.noted cfg (.producer signer) header call site before read (.ok tx) received) :
    call.Sends cfg tx ∧ read.2 = site.state.2 := by
  obtain ⟨encoded, counted, sealed⟩ := h
  obtain ⟨-, -, sig, -, attached⟩ := Role.seal_producer_eq_ok_iff.mp sealed
  exact ⟨⟨_, _, encoded, (Body.attach_eq_ok_iff.mp attached).2.1⟩,
    Machine.noted_of_nonce counted⟩

theorem Sealed.executed {before : Word64} {read ran : σ × List Transaction} {tx : Transaction}
    {received : List Transaction} {result : Except (Stop ExecutionError) Outcome}
    (h : Sealed m.noted cfg (.producer signer) header call site before read (.ok tx) received)
    (executed : m.noted.execute tx header.coinbase header history read = (result, ran)) :
    ran.2 = site.state.2 ++ [tx] := by
  rw [Machine.noted_of_execute executed, h.sends.2]

theorem Committed.sends {tx : Transaction}
    (h : Committed m.noted cfg (.producer signer) header history call site tx next) :
    next.state.2 = site.state.2 ++ [tx] ∧ call.Sends cfg tx := by
  obtain ⟨encoded, counted, sealed, executed, recounted, -, -⟩ := h
  have made : Sealed m.noted cfg (.producer signer) header call site _ _ _ _ :=
    .intro encoded counted sealed
  exact ⟨(Machine.noted_of_nonce recounted).trans (made.executed executed), made.sends.1⟩

theorem Aborted.sends {e : Stop Failure}
    (h : Aborted m.noted cfg (.producer signer) header history call site e next) :
    next.state.2 = site.state.2 ∨
      ∃ tx, next.state.2 = site.state.2 ++ [tx] ∧ call.Sends cfg tx := by
  cases h with
  | encoding _ => exact .inl rfl
  | sealing made =>
    obtain ⟨-, counted, -⟩ := made
    exact .inl (Machine.noted_of_nonce counted)
  | execution made executed => exact .inr ⟨_, made.executed executed, made.sends.1⟩
  | confirmation made executed recounted _ =>
    exact .inr ⟨_, (Machine.noted_of_nonce recounted).trans (made.executed executed),
      made.sends.1⟩
  | overflow made executed recounted _ _ =>
    exact .inr ⟨_, (Machine.noted_of_nonce recounted).trans (made.executed executed),
      made.sends.1⟩

theorem runAll_sends (calls : List SystemCall) (site : Site (σ × List Transaction)) :
    let run := runAll m.noted cfg (.producer signer) header history calls site
    ∃ sent, run.2.state.2 = site.state.2 ++ sent ∧
      (run.1 = .ok () → sent.length = calls.length) ∧
      List.Forall₂ (Sends cfg) (calls.take sent.length) sent := by
  induction calls generalizing site with
  | nil => exact ⟨[], (List.append_nil _).symm, fun _ => rfl, .nil⟩
  | cons call calls ih =>
    rcases run_cases m.noted cfg (.producer signer) header history call site with
      ⟨tx, next, hrun, committed⟩ | ⟨e, next, hrun, aborted⟩
    · obtain ⟨hfirst, sends⟩ := committed.sends
      obtain ⟨sent, hrest, hlength, later⟩ := ih next
      simp only [runAll, hrun]
      refine ⟨tx :: sent, ?_, fun done => congrArg (· + 1) (hlength done), .cons sends later⟩
      rw [hrest, hfirst, List.append_assoc, List.singleton_append]
    · simp only [runAll, hrun, reduceCtorEq, false_imp_iff, true_and]
      rcases aborted.sends with hnone | ⟨tx, hlast, sends⟩
      · exact ⟨[], by rw [hnone, List.append_nil], .nil⟩
      · exact ⟨[tx], hlast, .cons sends .nil⟩

end SystemCall

end Issue

end StakedChain
