import StakedChain.Proofs.Staking.Course

namespace StakedChain.Staking.Query

open Abi

namespace Sent

def named (name : String) (sent : List Sent) : Nat :=
  sent.countP fun x => x.method.name = name

variable {sent : List Sent} {cfg : Config}

theorem count_increments (name : String) (calls : Counters) :
    (sent.foldl (fun calls x => calls.increment x.method.name) calls).count name =
      calls.count name + named name sent := by
  induction sent generalizing calls with
  | nil => rfl
  | cons x sent ih =>
    rw [List.foldl_cons, ih, named, named, List.countP_cons]
    by_cases h : x.method.name = name
    · rw [h, Counters.count_increment_self, if_pos (decide_eq_true rfl)]
      omega
    · rw [Counters.count_increment_other (Ne.symm h), if_neg (by simpa using h), Nat.add_zero]

theorem mem_labels_increments {name : String} (calls : Counters) :
    name ∈ (sent.foldl (fun calls x => calls.increment x.method.name) calls).labels ↔
      name ∈ calls.labels ∨ ∃ x ∈ sent, x.method.name = name := by
  induction sent generalizing calls with
  | nil => simp
  | cons x sent ih =>
    rw [List.foldl_cons, ih, Counters.mem_labels_increment, List.exists_mem_cons_iff, or_assoc,
      eq_comm]

theorem nodup_labels_increments {calls : Counters} (h : calls.labels.Nodup) :
    (sent.foldl (fun calls x => calls.increment x.method.name) calls).labels.Nodup := by
  induction sent generalizing calls with
  | nil => exact h
  | cons x sent ih => exact ih (Counters.nodup_labels_increment _ h)

def queries (cfg : Config) : List (Method × Address) :=
  [(Contracts.validators, cfg.stakeManager), (Contracts.validatorOwners, cfg.stakeManager),
    (Contracts.totalRewards, cfg.stakeManager), (Contracts.nextEnvironment, cfg.environment)]

theorem Of.queried {x : Sent} (h : x.Of (queries cfg)) : x.method ∈ queried := by
  obtain ⟨account, mem, -⟩ := h
  have : x.method ∈ (queries cfg).map Prod.fst := List.mem_map_of_mem mem
  exact this

theorem asks_eq_named (all : ∀ x ∈ sent, x.Of (queries cfg)) {m : Method} (hm : m ∈ queried) :
    asks m (sent.map entry) = named m.name sent := by
  rw [asks, named, List.countP_map]
  refine List.countP_congr fun x hx => ?_
  obtain ⟨account, -, poses⟩ := all x hx
  have front : x.entry.1.data.take 4 = x.method.selector.bytes := poses.front
  simp only [Function.comp_apply, front, decide_eq_true_eq,
    name_eq_iff_selector_eq (all x hx).queried hm]
  exact ⟨Octets.ext, congrArg _⟩

end Sent

open Sent

theorem Step.queries_subset (cfg : Config) (step : Step) :
    step.queries cfg ⊆ Sent.queries cfg := by
  cases step <;> simp [Step.queries, Sent.queries]

variable (cfg : Config)

theorem Step.run_talked (step : Step) (s : Session CallQueue) : ∃ sent pages,
    Talked sent pages s (step.run CallQueue.call CallQueue.push cfg s).2 ∧
    (∀ x ∈ sent, x.Of (step.queries cfg) ∧ step.block? = some x.block) ∧
    named Contracts.validators.name sent =
      pages + (step.run CallQueue.call CallQueue.push cfg s).1.unread := by
  cases step with
  | push response => exact ⟨[], 0, ⟨(List.append_nil _).symm, rfl, rfl⟩, nofun, rfl⟩
  | validators block epoch =>
    obtain ⟨sent, pages, talked, all, hlength⟩ :=
      talked_enumerate cfg block epoch cfg.maxPages.toNat 0 .empty s
    refine ⟨sent, pages, talked, fun x hx => ⟨(all x hx).1, congrArg some (all x hx).2.symm⟩, ?_⟩
    refine (List.countP_eq_length.mpr fun x hx => ?_).trans hlength
    obtain ⟨account, mem, -⟩ := (all x hx).1
    rw [(Prod.mk.inj (List.mem_singleton.mp mem)).1, decide_eq_true_eq]
  | rewards block =>
    obtain ⟨sent, talked, all⟩ := talked_rewards cfg block s
    refine ⟨sent, 0, talked, fun x hx => ⟨(all x hx).1, congrArg some (all x hx).2.symm⟩, ?_⟩
    refine List.countP_eq_zero.mpr fun x hx => ?_
    obtain ⟨account, mem, -⟩ := (all x hx).1
    rcases List.mem_pair.mp mem with h | h <;>
      rw [(Prod.mk.inj h).1, decide_eq_true_eq] <;> decide
  | environment block =>
    obtain ⟨sent, talked, all⟩ := talked_environment cfg block s
    refine ⟨sent, 0, talked, fun x hx => ⟨(all x hx).1, congrArg some (all x hx).2.symm⟩, ?_⟩
    refine List.countP_eq_zero.mpr fun x hx => ?_
    obtain ⟨account, mem, -⟩ := (all x hx).1
    rw [(Prod.mk.inj (List.mem_singleton.mp mem)).1, decide_eq_true_eq]
    decide

def Reply.unreadAll : List Reply → Nat
  | [] => 0
  | reply :: replies => reply.unread + unreadAll replies

theorem Step.runAll_talked (steps : List Step) (s : Session CallQueue) : ∃ sent pages,
    Talked sent pages s (runAll CallQueue.call CallQueue.push cfg steps s).2 ∧
    (∀ x ∈ sent, x.Of (Sent.queries cfg)) ∧
    named Contracts.validators.name sent = pages +
      Reply.unreadAll (runAll CallQueue.call CallQueue.push cfg steps s).1 := by
  induction steps generalizing s with
  | nil => exact ⟨[], 0, .refl s, nofun, rfl⟩
  | cons step steps ih =>
    obtain ⟨sent, pages, talked, all, hpages⟩ := step.run_talked cfg s
    obtain ⟨later, more, talked', all', hmore⟩ :=
      ih (step.run CallQueue.call CallQueue.push cfg s).2
    refine ⟨sent ++ later, pages + more, talked.trans talked', fun x hx => ?_, ?_⟩
    · rcases List.mem_append.mp hx with hx | hx
      · exact (all x hx).1.mono (step.queries_subset cfg)
      · exact all' x hx
    · rw [named, List.countP_append, ← named, ← named, hpages, hmore]
      simp only [runAll, Reply.unreadAll]
      omega

theorem Step.run_makes (step : Step) (s : Session CallQueue) : ∃ made,
    (step.run CallQueue.call CallQueue.push cfg s).2.caller.requests = s.caller.requests ++ made ∧
      ∀ x ∈ made, step.Makes cfg x := by
  obtain ⟨sent, pages, talked, all, -⟩ := step.run_talked cfg s
  refine ⟨sent.map entry, talked.requests, fun x hx => ?_⟩
  obtain ⟨y, hy, rfl⟩ := List.mem_map.mp hx
  obtain ⟨⟨account, mem, poses⟩, hblock⟩ := all y hy
  exact ⟨hblock, (y.method, account), mem, poses⟩

theorem Step.runAll_concat (steps : List Step) (step : Step) (s : Session CallQueue) :
    (runAll CallQueue.call CallQueue.push cfg (steps ++ [step]) s).2 =
      (step.run CallQueue.call CallQueue.push cfg
        (runAll CallQueue.call CallQueue.push cfg steps s).2).2 := by
  induction steps generalizing s with
  | nil => rfl
  | cons first steps ih => exact ih _

section

variable {cfg : Config} {sent : List Sent} {pages : Nat} {s : Session CallQueue}
  (talked : Talked sent pages ⟨.empty, .empty⟩ s) (all : ∀ x ∈ sent, x.Of (Sent.queries cfg))

include talked

theorem Talked.nodup_labels : s.metrics.calls.labels.Nodup := by
  rw [talked.calls]
  exact nodup_labels_increments List.nodup_nil

include all

theorem Talked.asks_eq_named {m : Method} (hm : m ∈ queried) :
    asks m s.caller.requests = named m.name sent := by
  have hrequests : s.caller.requests = sent.map entry := talked.requests
  rw [hrequests, Sent.asks_eq_named all hm]

theorem Talked.count_eq_asks {m : Method} (hm : m ∈ queried) :
    s.metrics.calls.count m.name = asks m s.caller.requests := by
  rw [talked.asks_eq_named all hm, talked.calls, count_increments]
  exact Nat.zero_add _

theorem Talked.mem_labels_iff {name : String} : name ∈ s.metrics.calls.labels ↔
    ∃ m ∈ queried, m.name = name ∧ 0 < asks m s.caller.requests := by
  rw [talked.calls, mem_labels_increments]
  constructor
  · rintro (h | ⟨x, hx, rfl⟩)
    · exact absurd h List.not_mem_nil
    · refine ⟨x.method, (all x hx).queried, rfl, ?_⟩
      rw [talked.asks_eq_named all (all x hx).queried]
      exact List.countP_pos_iff.mpr ⟨x, hx, decide_eq_true rfl⟩
  · rintro ⟨m, hm, rfl, hpos⟩
    rw [talked.asks_eq_named all hm] at hpos
    obtain ⟨x, hx, hname⟩ := List.countP_pos_iff.mp hpos
    exact .inr ⟨x, hx, of_decide_eq_true hname⟩

end

theorem requests_responses_and_counters_in_step (steps : List Step) :
    let run (steps : List Step) :=
      Step.runAll CallQueue.call CallQueue.push cfg steps ⟨.empty, .empty⟩
    let log := Step.runAll CallQueue.logged CallQueue.pushLogged cfg steps ⟨(.empty, []), .empty⟩
    let events := log.2.caller.2
    let queue := (run steps).2.caller
    let metrics := (run steps).2.metrics
    (run steps = (log.1, log.2.map Prod.fst) ∧
      CallQueue.Fair events ∧
      events.filterMap CallQueue.Event.supply = steps.filterMap Step.pushed ∧
      events.filterMap CallQueue.Event.answer ++ queue.responses = steps.filterMap Step.pushed ∧
      events.filterMap CallQueue.Event.asked = queue.requests) ∧
    (∀ step, ∃ made, (run (steps ++ [step])).2.caller.requests = queue.requests ++ made ∧
      ∀ x ∈ made, step.Makes cfg x) ∧
    (∀ m ∈ queried, metrics.calls.count m.name = asks m queue.requests) ∧
    (∀ name, name ∈ metrics.calls.labels ↔
      ∃ m ∈ queried, m.name = name ∧ 0 < asks m queue.requests) ∧
    metrics.calls.labels.Nodup ∧
    metrics.pages + Reply.unreadAll (run steps).1 = asks Contracts.validators queue.requests := by
  intro run log events queue metrics
  have refined : run steps = (log.1, log.2.map Prod.fst) :=
    Step.runAll_of_refines CallQueue.logged_refines (fun _ _ => rfl) cfg steps
      ⟨(.empty, []), .empty⟩
  have recorded : CallQueue.Recorded ([] ++ steps.filterMap Step.pushed) log.2.caller :=
    Step.runAll_recorded cfg steps CallQueue.recorded_nil
  have hqueue : queue = log.2.caller.1 := congrArg (fun r => r.2.caller) refined
  rw [List.nil_append, show log.2.caller = (queue, events) from Prod.ext hqueue.symm rfl] at recorded
  obtain ⟨sent, pages, talked, all, hpages⟩ := Step.runAll_talked cfg steps ⟨.empty, .empty⟩
  refine ⟨⟨refined, recorded.fair, recorded.supplied, recorded.responses, recorded.requests⟩,
    fun step => ?_, fun m => talked.count_eq_asks all, fun name => talked.mem_labels_iff all,
    talked.nodup_labels, ?_⟩
  · have hstep := Step.runAll_concat cfg steps step ⟨.empty, .empty⟩
    have made := step.run_makes cfg (run steps).2
    rwa [← hstep] at made
  · have hmetrics : metrics.pages = 0 + pages := talked.pages
    rw [talked.asks_eq_named all (List.mem_cons_self ..), hpages, hmetrics, Nat.zero_add]

example : (Step.runAll CallQueue.call CallQueue.push (.standard 1 (.genesis 3 200))
    [.validators .pending 1, .push (.error (.other "gone")), .push (.ok []), .rewards .pending,
      .environment .pending] ⟨.empty, .empty⟩).2.metrics =
    ⟨[("getValidators", 1), ("getValidatorOwners", 1), ("nextValue", 1)], 0⟩ := rfl

end StakedChain.Staking.Query
