import StakedChain.Proofs.Block.Accumulation
import StakedChain.Proofs.Issue.Validation

namespace StakedChain.Issue

open Abi Block Staking State

section

variable {σ : Type} {m : Machine σ} {cfg : Config} {role : Role} {header : Header}
  {history : History}

def Role.left : Role → List Transaction → List Transaction
  | .producer _, received => received
  | .validator, received => received.tail

theorem Role.seal_left (role : Role) (name : String) (chainId : Word64) (sender : Address)
    (body : Body) (received : List Transaction) :
    (role.seal name chainId sender body received).2 = role.left received := by
  cases role with
  | producer signer => rfl
  | validator => cases received <;> rfl

namespace SystemCall

inductive Sealed (m : Machine σ) (cfg : Config) (role : Role) (header : Header)
    (call : SystemCall) (site : Site σ) :
    Word64 → σ → Except (Stop ExecutionError) Transaction → List Transaction → Prop where
  | intro {data : Bytes} {before : Word64} {read : σ}
      {result : Except (Stop ExecutionError) Transaction} {received : List Transaction}
      (encoded : call.method.encodeCall call.args = .ok data)
      (counted : m.nonce header.coinbase site.state = (before, read))
      (sealed : role.seal call.method.name cfg.chainId header.coinbase
        (call.body cfg before data) site.received = (result, received)) :
      Sealed m cfg role header call site before read result received

-- The points at which a call can fail, in order, and what it has done to its site by then.
inductive Aborted (m : Machine σ) (cfg : Config) (role : Role) (header : Header)
    (history : History) (call : SystemCall) (site : Site σ) : Stop Failure → Site σ → Prop where
  | encoding {e : EncodeError} (encoded : call.method.encodeCall call.args = .error e) :
      Aborted m cfg role header history call site (.failed (.encoding e)) site
  | sealing {before : Word64} {read : σ} {received : List Transaction} {e : Stop ExecutionError}
      (sealed : Sealed m cfg role header call site before read (.error e) received) :
      Aborted m cfg role header history call site (e.map .execution)
        { site with state := read, received }
  | execution {before : Word64} {read ran : σ} {tx : Transaction} {received : List Transaction}
      {e : Stop ExecutionError}
      (sealed : Sealed m cfg role header call site before read (.ok tx) received)
      (executed : m.execute tx header.coinbase header history read = (.error e, ran)) :
      Aborted m cfg role header history call site (e.map .execution)
        { site with state := ran, received }
  | confirmation {before after : Word64} {read ran settled : σ} {tx : Transaction}
      {received : List Transaction} {outcome : Outcome} {e : ExecutionError}
      (sealed : Sealed m cfg role header call site before read (.ok tx) received)
      (executed : m.execute tx header.coinbase header history read = (.ok outcome, ran))
      (recounted : m.nonce header.coinbase ran = (after, settled))
      (confirmed : call.confirm header.coinbase before after outcome = .error e) :
      Aborted m cfg role header history call site (.failed (.execution e))
        { site with state := settled, received }
  | overflow {before after : Word64} {read ran settled : σ} {tx : Transaction}
      {received : List Transaction} {outcome : Outcome}
      (sealed : Sealed m cfg role header call site before read (.ok tx) received)
      (executed : m.execute tx header.coinbase header history read = (.ok outcome, ran))
      (recounted : m.nonce header.coinbase ran = (after, settled))
      (confirmed : call.confirm header.coinbase before after outcome = .ok ())
      (pushed : site.assembly.push? tx outcome header = none) :
      Aborted m cfg role header history call site (.failed (.execution .gasOverflow))
        { site with state := settled, received }

theorem run_cases (m : Machine σ) (cfg : Config) (role : Role) (header : Header)
    (history : History) (call : SystemCall) (site : Site σ) :
    (∃ tx next, call.run m cfg role header history site = (.ok (), next) ∧
        Committed m cfg role header history call site tx next) ∨
      ∃ e next, call.run m cfg role header history site = (.error e, next) ∧
        Aborted m cfg role header history call site e next := by
  rcases encoded : call.method.encodeCall call.args with e | data
  · exact .inr ⟨_, _, by simp only [run, encoded], .encoding encoded⟩
  rcases counted : m.nonce header.coinbase site.state with ⟨before, read⟩
  rcases sealed : role.seal call.method.name cfg.chainId header.coinbase
    (call.body cfg before data) site.received with ⟨e | tx, received⟩
  · exact .inr ⟨_, _, by simp only [run, encoded, counted, sealed],
      .sealing (.intro encoded counted sealed)⟩
  rcases executed : m.execute tx header.coinbase header history read with ⟨e | outcome, ran⟩
  · exact .inr ⟨_, _, by simp only [run, encoded, counted, sealed, executed],
      .execution (.intro encoded counted sealed) executed⟩
  rcases recounted : m.nonce header.coinbase ran with ⟨after, settled⟩
  rcases confirmed : call.confirm header.coinbase before after outcome with e | ⟨⟩
  · exact .inr ⟨_, _, by
      simp only [run, encoded, counted, sealed, executed, recounted, confirmed],
      .confirmation (.intro encoded counted sealed) executed recounted confirmed⟩
  rcases pushed : site.assembly.push? tx outcome header with _ | assembly
  · exact .inr ⟨_, _, by
      simp only [run, encoded, counted, sealed, executed, recounted, confirmed, pushed],
      .overflow (.intro encoded counted sealed) executed recounted confirmed pushed⟩
  · have committed : Committed m cfg role header history call site tx _ :=
      .intro encoded counted sealed executed recounted confirmed pushed
    exact .inl ⟨tx, _, run_eq_ok_iff.mpr ⟨tx, committed⟩, committed⟩

variable {call : SystemCall} {site next : Site σ}

theorem Sealed.received {before : Word64} {read : σ}
    {result : Except (Stop ExecutionError) Transaction} {received : List Transaction}
    (h : Sealed m cfg role header call site before read result received) :
    received = role.left site.received := by
  obtain ⟨-, -, sealed⟩ := h
  rw [← Role.seal_left, sealed]

theorem Aborted.kept {e : Stop Failure}
    (h : Aborted m cfg role header history call site e next) :
    next.assembly = site.assembly ∧ next.metrics = site.metrics := by
  cases h <;> exact ⟨rfl, rfl⟩

theorem Aborted.received {e : Stop Failure} {data : Bytes}
    (encodes : call.method.encodeCall call.args = .ok data)
    (h : Aborted m cfg role header history call site e next) :
    next.received = role.left site.received := by
  cases h with
  | encoding encoded =>
    rw [encodes] at encoded
    cases encoded
  | sealing sealed => exact sealed.received
  | execution sealed _ => exact sealed.received
  | confirmation sealed _ _ _ => exact sealed.received
  | overflow sealed _ _ _ _ => exact sealed.received

theorem Committed.received {tx : Transaction}
    (h : Committed m cfg role header history call site tx next) :
    next.received = role.left site.received := by
  obtain ⟨encoded, counted, sealed, -, -, -, -⟩ := h
  exact (Sealed.intro encoded counted sealed).received

def Recorded (call : SystemCall) (before after : Site σ) : Prop :=
  ∃ (tx : Transaction) (receipt : Receipt),
    after.assembly.transactions = before.assembly.transactions ++ [tx] ∧
    after.assembly.receipts = before.assembly.receipts ++ [receipt] ∧
    after.assembly.gasUsed.toNat = before.assembly.gasUsed.toNat + receipt.gasUsed.toNat ∧
    after.metrics.transactions.count call.method.name =
      before.metrics.transactions.count call.method.name + 1 ∧
    (∀ other, other ≠ call.method.name →
      after.metrics.transactions.count other = before.metrics.transactions.count other) ∧
    after.metrics.gas.toNat =
      (before.metrics.gas.toNat + receipt.gasUsed.toNat) % Assembly.capacity

theorem Committed.recorded {tx : Transaction}
    (h : Committed m cfg role header history call site tx next) : call.Recorded site next := by
  obtain ⟨-, -, -, -, -, -, pushed⟩ := h
  obtain ⟨cumulative, hgas, rfl⟩ := Assembly.push?_eq_some_iff.mp pushed
  refine ⟨tx, _, rfl, rfl, hgas, Counters.count_increment_self _ _, ?_, BitVec.toNat_add _ _⟩
  intro other hother
  exact Counters.count_increment_other hother _

-- The machine's `execute` is not consulted: whatever it is, the call ends in the same way.
theorem run_of_unsealed (role : Role) (history : History) {body : Body}
    (prescribed : call.prescribed m cfg header site = .ok body) (e : Stop ExecutionError)
    (unsealed : (role.seal call.method.name cfg.chainId header.coinbase body site.received).1 =
      .error e)
    (execute : Transaction → Address → Header → History → σ →
      Except (Stop ExecutionError) Outcome × σ) :
    call.run ⟨m.nonce, execute⟩ cfg role header history site =
      (.error (e.map .execution),
        { site with
          state := (m.nonce header.coinbase site.state).2
          received := role.left site.received }) := by
  obtain ⟨data, encoded, rfl⟩ := prescribed_eq_ok_iff.mp prescribed
  have sealed := Role.seal_left role call.method.name cfg.chainId header.coinbase
    (call.body cfg (m.nonce header.coinbase site.state).1 data) site.received
  simp only [run, encoded, unsealed, sealed]

end SystemCall

namespace Operation

theorem run_append (op : Operation) (site : Site σ) {before after : List SystemCall}
    {mid : Site σ} (hcalls : op.calls cfg = before ++ after)
    (hbefore : SystemCall.runAll m cfg role header history before site = (.ok (), mid)) :
    op.run m cfg role header history site =
      SystemCall.runAll m cfg role header history after mid := by
  rw [run, hcalls, SystemCall.runAll_append, hbefore]

theorem call_recorded_or_refused (op : Operation) {call : SystemCall}
    {before after : List SystemCall} {site mid : Site σ}
    (hcalls : op.calls cfg = before ++ call :: after)
    (hbefore : SystemCall.runAll m cfg role header history before site = (.ok (), mid)) :
    ∃ result next, call.run m cfg role header history mid = (result, next) ∧
      ((result = .ok () ∧ call.Recorded mid next ∧
          op.run m cfg role header history site =
            SystemCall.runAll m cfg role header history after next) ∨
        ∃ e, result = .error e ∧
          next.assembly = mid.assembly ∧ next.metrics = mid.metrics ∧
          op.run m cfg role header history site = (.error e, next)) ∧
      next.received = role.left mid.received ∧
      ∃ body, call.prescribed m cfg header mid = .ok body ∧
        ∀ e, (role.seal call.method.name cfg.chainId header.coinbase body mid.received).1 =
            .error e →
          ∀ execute, call.run ⟨m.nonce, execute⟩ cfg role header history mid =
            (.error (e.map .execution),
              { mid with
                state := (m.nonce header.coinbase mid.state).2
                received := role.left mid.received }) := by
  have hmem : call ∈ [op].flatMap (calls cfg) := by
    rw [List.flatMap_singleton, hcalls]
    exact List.mem_append_right _ List.mem_cons_self
  obtain ⟨body, prescribed, -⟩ : ∃ body, call.prescribed m cfg header mid = .ok body ∧ _ :=
    prescribed_of_mem_calls hmem mid
  obtain ⟨data, encoded, -⟩ := SystemCall.prescribed_eq_ok_iff.mp prescribed
  have hop := run_append op site hcalls hbefore
  have hunsealed := SystemCall.run_of_unsealed role history prescribed
  rcases SystemCall.run_cases m cfg role header history call mid with
    ⟨tx, next, hrun, committed⟩ | ⟨e, next, hrun, aborted⟩
  · refine ⟨.ok (), next, hrun, .inl ⟨rfl, committed.recorded, ?_⟩, committed.received, body,
      prescribed, hunsealed⟩
    rw [hop, SystemCall.runAll, hrun]
  · obtain ⟨hassembly, hmetrics⟩ := aborted.kept
    refine ⟨.error e, next, hrun, .inr ⟨e, rfl, hassembly, hmetrics, ?_⟩,
      aborted.received encoded, body, prescribed, hunsealed⟩
    rw [hop, SystemCall.runAll, hrun]

end Operation

end

namespace Trial

def lenient : Signer :=
  ⟨.zero 20, fun _ => .ok ⟨1, 1, false⟩⟩

-- Room for the gas of the first of two calls only.
def crowded : Site Ledger :=
  { site [] with assembly := .empty 0xffffffffffff0000 }

def installed : Except (Stop Failure) Unit × Site Ledger :=
  SystemCall.runAll Ledger.machine config (.producer lenient) .empty .empty
    [⟨config.environment, Contracts.environmentSetup, [config.initialEnvironment.toValue],
      Contracts.environmentReady⟩] crowded

theorem installed_eq_ok : installed = (.ok (), installed.2) :=
  eq_ok_of_isOk (by decide +kernel)

def bootstrapped : Except (Stop Failure) Unit × Site Ledger :=
  Operation.run Ledger.machine config (.producer lenient) .empty .empty .bootstrap crowded

theorem bootstrap_stops_at_overflow : installed = (.ok (), installed.2) ∧
    installed.2.assembly.transactions.length = 1 ∧
    ∃ e next, bootstrapped = (.error e, next) ∧ next.assembly = installed.2.assembly ∧
      next.metrics = installed.2.metrics := by
  obtain ⟨result, next, -, ⟨rfl, -, hop⟩ | ⟨e, rfl, hassembly, hmetrics, hop⟩, -⟩ :=
    Operation.call_recorded_or_refused .bootstrap rfl installed_eq_ok
  · have hfails : bootstrapped.1.isOk = false := by decide +kernel
    rw [bootstrapped, hop] at hfails
    cases hfails
  · exact ⟨installed_eq_ok, by decide +kernel, e, next, hop, hassembly, hmetrics⟩

end Trial

end StakedChain.Issue
