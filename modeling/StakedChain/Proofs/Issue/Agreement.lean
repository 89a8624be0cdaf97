import StakedChain.Proofs.Issue.Committed
import StakedChain.State.Ledger

namespace StakedChain.Issue

open Block Staking State

inductive Interleaving {α : Type} : List α → List α → List α → Prop where
  | nil : Interleaving [] [] []
  | left {x : α} {xs ys zs : List α} : Interleaving xs ys zs → Interleaving (x :: xs) ys (x :: zs)
  | right {y : α} {xs ys zs : List α} : Interleaving xs ys zs → Interleaving xs (y :: ys) (y :: zs)

theorem Interleaving.filter_right {α : Type} {p : α → Bool} {xs ys zs : List α}
    (h : Interleaving xs ys zs) (hxs : ∀ x ∈ xs, p x = false) (hys : ∀ y ∈ ys, p y = true) :
    zs.filter p = ys := by
  induction h with
  | nil => rfl
  | left _ ih =>
    obtain ⟨hx, hxs⟩ := List.forall_mem_cons.mp hxs
    rw [List.filter_cons_of_neg (Bool.eq_false_iff.mp hx), ih hxs hys]
  | right _ ih =>
    obtain ⟨hy, hys⟩ := List.forall_mem_cons.mp hys
    rw [List.filter_cons_of_pos hy, ih hxs hys]

theorem Interleaving.swap {α : Type} {xs ys zs : List α} (h : Interleaving xs ys zs) :
    Interleaving ys xs zs := by
  induction h with
  | nil => exact .nil
  | left _ ih => exact .right ih
  | right _ ih => exact .left ih

theorem Interleaving.nil_left {α : Type} (ys : List α) : Interleaving [] ys ys := by
  induction ys with
  | nil => exact .nil
  | cons y ys ih => exact .right ih

section

variable {σ : Type} {m : Machine σ} {cfg : Config} {signer : Signer} {header : Header}
  {history : History}

theorem split_of_interleaving {regular system block : List Transaction}
    (h : Interleaving regular system block)
    (hregular : ∀ tx ∈ regular, isSystem cfg header tx = false)
    (hsystem : ∀ tx ∈ system, isSystem cfg header tx = true) :
    split cfg header block = (regular, system) := by
  rw [split_eq, h.filter_right hregular hsystem, h.swap.filter_right]
  · intro tx htx
    rw [hsystem tx htx]
    rfl
  · intro tx htx
    rw [hregular tx htx]
    rfl

namespace SystemCall

theorem Committed.of_producer {call : SystemCall} {site site' : Site σ} {tx : Transaction}
    (faithful : signer.Faithful)
    (h : Committed m cfg (.producer signer) header history call site tx site') :
    site'.received = site.received ∧
      (call.target = cfg.environment ∨ call.target = cfg.stakeManager →
        isSystem cfg header tx = true) := by
  obtain ⟨-, -, signed, -, -, -, -⟩ := h
  obtain ⟨kept, hbody, hsender⟩ := Role.of_seal_producer faithful signed
  exact ⟨kept, fun target => isSystem_of_body target hbody hsender⟩

-- The two runs differ in the queue only: what the producer appends is what the validator takes.
theorem Committed.replay {call : SystemCall} {site site' : Site σ} {tx : Transaction}
    (faithful : signer.Faithful)
    (h : Committed m cfg (.producer signer) header history call site tx site')
    (rest : List Transaction) (metrics : IssueMetrics) :
    ∃ tally, Committed m cfg .validator header history call
        ⟨site.state, site.assembly, tx :: rest, metrics⟩ tx
        ⟨site'.state, site'.assembly, rest, tally⟩ ∧
      (metrics = site.metrics → tally = site'.metrics) := by
  obtain ⟨encoded, counted, signed, executed, recounted, confirmed, pushed⟩ := h
  obtain ⟨-, hbody, hsender⟩ := Role.of_seal_producer faithful signed
  have hhash := congrArg (Body.signingHash · cfg.chainId) hbody
  have accepted : Role.validator.seal call.method.name cfg.chainId header.coinbase _
      (tx :: rest) = (.ok tx, rest) := Role.seal_validator_eq_ok_iff.mpr ⟨rfl, hhash, hsender⟩
  refine ⟨_, .intro encoded counted accepted executed recounted confirmed pushed, ?_⟩
  rintro rfl
  rfl

theorem CommittedAll.of_producer {calls : List SystemCall} {site site' : Site σ}
    {txs : List Transaction} (faithful : signer.Faithful)
    (targets : ∀ call ∈ calls, call.target = cfg.environment ∨ call.target = cfg.stakeManager)
    (h : CommittedAll m cfg (.producer signer) header history calls site txs site') :
    site'.received = site.received ∧ ∀ tx ∈ txs, isSystem cfg header tx = true := by
  induction h with
  | nil => exact ⟨rfl, nofun⟩
  | cons hcall _ ih =>
    obtain ⟨target, targets⟩ := List.forall_mem_cons.mp targets
    obtain ⟨kept, hsystem⟩ := hcall.of_producer faithful
    obtain ⟨keptAll, hsystems⟩ := ih targets
    exact ⟨keptAll.trans kept, List.forall_mem_cons.mpr ⟨hsystem target, hsystems⟩⟩

theorem CommittedAll.replay {calls : List SystemCall} {site site' : Site σ}
    {txs : List Transaction} (faithful : signer.Faithful)
    (h : CommittedAll m cfg (.producer signer) header history calls site txs site')
    (rest : List Transaction) (metrics : IssueMetrics) :
    ∃ tally, CommittedAll m cfg .validator header history calls
        ⟨site.state, site.assembly, txs ++ rest, metrics⟩ txs
        ⟨site'.state, site'.assembly, rest, tally⟩ ∧
      (metrics = site.metrics → tally = site'.metrics) := by
  induction h generalizing metrics with
  | nil => exact ⟨metrics, .nil, id⟩
  | cons hcall _ ih =>
    obtain ⟨midway, replayed, same⟩ := hcall.replay faithful (_ ++ rest) metrics
    obtain ⟨tally, replayedAll, sameAll⟩ := ih midway
    exact ⟨tally, .cons replayed replayedAll, sameAll ∘ same⟩

end SystemCall

namespace Operation

theorem validator_replays_producer {ops : List Operation} {site site' : Site σ}
    (faithful : signer.Faithful)
    (produced : runAll m cfg (.producer signer) header history ops site = (.ok (), site')) :
    ∃ appended, site'.assembly.transactions = site.assembly.transactions ++ appended ∧
      site'.received = site.received ∧
      (∀ regular block, (∀ tx ∈ regular, isSystem cfg header tx = false) →
        Interleaving regular appended block →
          split cfg header block = (regular, appended)) ∧
      ∀ metrics, ∃ tally,
        runAll m cfg .validator header history ops
            ⟨site.state, site.assembly, appended, metrics⟩ =
          (.ok (), ⟨site'.state, site'.assembly, [], tally⟩) ∧
        (metrics = site.metrics → tally = site'.metrics) := by
  obtain ⟨appended, committed⟩ := runAll_eq_ok_iff.mp produced
  obtain ⟨kept, hsystem⟩ := committed.of_producer faithful fun _ => target_of_mem_calls
  refine ⟨appended, committed.transactions, kept, ?_, ?_⟩
  · intro regular block hregular interleaved
    exact split_of_interleaving interleaved hregular hsystem
  · intro metrics
    obtain ⟨tally, replayed, same⟩ := committed.replay faithful [] metrics
    rw [List.append_nil] at replayed
    exact ⟨tally, runAll_eq_ok_iff.mpr ⟨appended, replayed⟩, same⟩

end Operation

end

namespace Trial

def key : PrivateKey :=
  ⟨5, by decide⟩

def config : Config :=
  .standard 7 (.genesis 3 5)

def header : Header :=
  { Header.empty with coinbase := key.address }

def site (received : List Transaction) : Site Ledger :=
  ⟨.empty config.environment config.stakeManager, .empty 0, received, ⟨[], 0⟩⟩

def slashing : Operation :=
  .slash (.zero 20) [(1, .zero 20)]

def produced : Except (Stop Failure) Unit × Site Ledger :=
  Operation.runAll Ledger.machine config (.producer key.signer.audited) header .empty [slashing]
    (site [])

theorem produced_eq_ok : produced = (.ok (), produced.2) :=
  eq_ok_of_isOk (by decide +kernel)

theorem validator_replays_slashing : key.signer.audited.Faithful ∧
    produced = (.ok (), produced.2) ∧ ∃ appended tally,
      produced.2.assembly.transactions = appended ∧
        split config header appended = ([], appended) ∧
        Operation.runAll Ledger.machine config .validator header .empty [slashing]
          (site appended) = (.ok (), { produced.2 with received := [], metrics := tally }) := by
  obtain ⟨appended, htransactions, -, hsplit, hreplay⟩ :=
    Operation.validator_replays_producer key.signer.audited_faithful produced_eq_ok
  obtain ⟨tally, replayed, -⟩ := hreplay ⟨[], 0⟩
  exact ⟨key.signer.audited_faithful, produced_eq_ok, appended, tally, htransactions,
    hsplit [] appended nofun (.nil_left appended), replayed⟩

end Trial

end StakedChain.Issue
