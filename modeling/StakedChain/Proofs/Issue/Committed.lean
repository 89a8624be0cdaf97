import StakedChain.Proofs.Issue.Sealed

namespace StakedChain.Issue

open Abi Block Staking State

variable {σ : Type} {m : Machine σ} {cfg : Config} {role : Role} {header : Header}
  {history : History}

theorem eq_ok_of_isOk {ε : Type} {p : Except ε Unit × σ} (h : p.1.isOk = true) :
    p = (.ok (), p.2) := by
  obtain ⟨result, s⟩ := p
  cases result with
  | ok => rfl
  | error e => cases h

namespace SystemCall

inductive Committed (m : Machine σ) (cfg : Config) (role : Role) (header : Header)
    (history : History) (call : SystemCall) (site : Site σ) : Transaction → Site σ → Prop where
  | intro {data : Bytes} {before after : Word64} {read ran settled : σ} {tx : Transaction}
      {received : List Transaction} {outcome : Outcome} {assembly : Assembly}
      (encoded : call.method.encodeCall call.args = .ok data)
      (counted : m.nonce header.coinbase site.state = (before, read))
      (sealed : role.seal call.method.name cfg.chainId header.coinbase
        (call.body cfg before data) site.received = (.ok tx, received))
      (executed : m.execute tx header.coinbase header history read = (.ok outcome, ran))
      (recounted : m.nonce header.coinbase ran = (after, settled))
      (confirmed : call.confirm header.coinbase before after outcome = .ok ())
      (pushed : site.assembly.push? tx outcome header = some assembly) :
      Committed m cfg role header history call site tx
        ⟨settled, assembly, received, call.record outcome.gasUsed site.metrics⟩

theorem run_eq_ok_iff {call : SystemCall} {site site' : Site σ} :
    call.run m cfg role header history site = (.ok (), site') ↔
      ∃ tx, Committed m cfg role header history call site tx site' := by
  constructor
  · intro h
    unfold run at h
    split at h
    · cases h
    · rename_i data encoded
      obtain ⟨⟨before, read⟩, counted⟩ : ∃ p, m.nonce header.coinbase site.state = p := ⟨_, rfl⟩
      obtain ⟨⟨result, received⟩, sealed⟩ : ∃ p, role.seal call.method.name cfg.chainId
        header.coinbase (call.body cfg before data) site.received = p := ⟨_, rfl⟩
      simp only [counted, sealed] at h
      split at h
      · cases h
      · rename_i tx
        obtain ⟨⟨result, ran⟩, executed⟩ :
          ∃ p, m.execute tx header.coinbase header history read = p := ⟨_, rfl⟩
        simp only [executed] at h
        split at h
        · cases h
        · rename_i outcome
          obtain ⟨⟨after, settled⟩, recounted⟩ : ∃ p, m.nonce header.coinbase ran = p := ⟨_, rfl⟩
          simp only [recounted] at h
          split at h
          · cases h
          · rename_i confirmed
            split at h
            · cases h
            · rename_i assembly pushed
              cases h
              exact ⟨tx, .intro encoded counted sealed executed recounted confirmed pushed⟩
  · rintro ⟨tx, encoded, counted, sealed, executed, recounted, confirmed, pushed⟩
    simp only [run, encoded, counted, sealed, executed, recounted, confirmed, pushed]

inductive CommittedAll (m : Machine σ) (cfg : Config) (role : Role) (header : Header)
    (history : History) : List SystemCall → Site σ → List Transaction → Site σ → Prop where
  | nil {site : Site σ} : CommittedAll m cfg role header history [] site [] site
  | cons {call : SystemCall} {calls : List SystemCall} {site mid site' : Site σ}
      {tx : Transaction} {txs : List Transaction} :
      Committed m cfg role header history call site tx mid →
        CommittedAll m cfg role header history calls mid txs site' →
          CommittedAll m cfg role header history (call :: calls) site (tx :: txs) site'

theorem runAll_eq_ok_iff {calls : List SystemCall} {site site' : Site σ} :
    runAll m cfg role header history calls site = (.ok (), site') ↔
      ∃ txs, CommittedAll m cfg role header history calls site txs site' := by
  induction calls generalizing site with
  | nil =>
    constructor
    · intro h
      cases h
      exact ⟨[], .nil⟩
    · rintro ⟨txs, h⟩
      cases h
      rfl
  | cons call calls ih =>
    constructor
    · intro h
      simp only [runAll] at h
      split at h
      · rename_i mid hrun
        obtain ⟨tx, hcall⟩ := run_eq_ok_iff.mp hrun
        obtain ⟨txs, hcalls⟩ := ih.mp h
        exact ⟨tx :: txs, .cons hcall hcalls⟩
      · cases h
    · rintro ⟨txs, h⟩
      cases h with
      | cons hcall hcalls =>
        simp only [runAll, run_eq_ok_iff.mpr ⟨_, hcall⟩, ih.mpr ⟨_, hcalls⟩]

theorem runAll_append (xs ys : List SystemCall) (site : Site σ) :
    runAll m cfg role header history (xs ++ ys) site =
      match runAll m cfg role header history xs site with
      | (.ok (), site) => runAll m cfg role header history ys site
      | (.error e, site) => (.error e, site) := by
  induction xs generalizing site with
  | nil => rfl
  | cons x xs ih =>
    simp only [List.cons_append, runAll]
    split
    · exact ih _
    · rfl

theorem Committed.transactions {call : SystemCall} {site site' : Site σ} {tx : Transaction}
    (h : Committed m cfg role header history call site tx site') :
    site'.assembly.transactions = site.assembly.transactions ++ [tx] := by
  obtain ⟨-, -, -, -, -, -, pushed⟩ := h
  obtain ⟨cumulative, -, rfl⟩ := Assembly.push?_eq_some_iff.mp pushed
  rfl

theorem CommittedAll.transactions {calls : List SystemCall} {site site' : Site σ}
    {txs : List Transaction} (h : CommittedAll m cfg role header history calls site txs site') :
    site'.assembly.transactions = site.assembly.transactions ++ txs := by
  induction h with
  | nil => exact (List.append_nil _).symm
  | cons hcall _ ih => rw [ih, hcall.transactions, List.append_assoc, List.singleton_append]

end SystemCall

namespace Operation

def runAll (m : Machine σ) (cfg : Config) (role : Role) (header : Header) (history : History) :
    List Operation → Site σ → Except (Stop Failure) Unit × Site σ
  | [], site => (.ok (), site)
  | op :: rest, site =>
    match op.run m cfg role header history site with
    | (.ok (), site) => runAll m cfg role header history rest site
    | (.error e, site) => (.error e, site)

theorem runAll_eq_calls (ops : List Operation) (site : Site σ) :
    runAll m cfg role header history ops site =
      SystemCall.runAll m cfg role header history (ops.flatMap (calls cfg)) site := by
  induction ops generalizing site with
  | nil => rfl
  | cons op ops ih =>
    rw [List.flatMap_cons, SystemCall.runAll_append]
    simp only [runAll, run]
    split
    · exact ih _
    · rfl

theorem runAll_eq_ok_iff {ops : List Operation} {site site' : Site σ} :
    runAll m cfg role header history ops site = (.ok (), site') ↔ ∃ txs,
      SystemCall.CommittedAll m cfg role header history (ops.flatMap (calls cfg)) site txs
        site' := by
  rw [runAll_eq_calls]
  exact SystemCall.runAll_eq_ok_iff

theorem eq_of_mem_calls {ops : List Operation} {call : SystemCall}
    (h : call ∈ ops.flatMap (calls cfg)) :
    call = ⟨cfg.environment, Contracts.environmentSetup, [cfg.initialEnvironment.toValue],
        Contracts.environmentReady⟩ ∨
      call = ⟨cfg.stakeManager, Contracts.managerSetup,
        [.address cfg.environment, .address cfg.allowlist], Contracts.managerReady⟩ ∨
      ∃ validator blocks, call = ⟨cfg.stakeManager, Contracts.slash,
        [.address validator, .uint blocks], Contracts.slashed⟩ := by
  obtain ⟨op, -, hcall⟩ := List.mem_flatMap.mp h
  cases op with
  | bootstrap =>
    simp only [calls, List.mem_cons, List.not_mem_nil, or_false] at hcall
    exact hcall.imp_right .inl
  | slash validator schedule => exact .inr (.inr ⟨_, _, List.mem_singleton.mp hcall⟩)

theorem target_of_mem_calls {ops : List Operation} {call : SystemCall}
    (h : call ∈ ops.flatMap (calls cfg)) :
    call.target = cfg.environment ∨ call.target = cfg.stakeManager := by
  rcases eq_of_mem_calls h with rfl | rfl | ⟨validator, blocks, rfl⟩
  · exact .inl rfl
  · exact .inr rfl
  · exact .inr rfl

end Operation

end StakedChain.Issue
