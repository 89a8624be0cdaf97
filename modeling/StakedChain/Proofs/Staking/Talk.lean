import Mathlib.Data.List.Nodup
import StakedChain.Proofs.Staking.Halting

namespace StakedChain

namespace Counters

def labels (c : Counters) : List String :=
  c.map Prod.fst

theorem labels_increment (label : String) (c : Counters) :
    labels (increment label c) = if label ∈ labels c then labels c else labels c ++ [label] := by
  induction c with
  | nil => rfl
  | cons entry rest ih =>
    simp only [labels] at ih ⊢
    by_cases h : entry.1 = label
    · simp [increment, h]
    · simp only [increment, h, if_false, List.map_cons, ih, List.mem_cons, Ne.symm h, false_or]
      by_cases hm : label ∈ rest.map Prod.fst <;>
        simp only [hm, if_true, if_false, List.cons_append]

theorem mem_labels_increment {label name : String} {c : Counters} :
    name ∈ labels (increment label c) ↔ name ∈ labels c ∨ name = label := by
  rw [labels_increment]
  split
  case isTrue h => exact ⟨.inl, (·.elim id fun heq => heq ▸ h)⟩
  case isFalse h => rw [List.mem_append, List.mem_singleton]

theorem nodup_labels_increment (label : String) {c : Counters} (h : (labels c).Nodup) :
    (labels (increment label c)).Nodup := by
  rw [labels_increment]
  split
  case isTrue => exact h
  case isFalse hnew =>
    refine List.nodup_append.mpr ⟨h, List.pairwise_singleton _ _, ?_⟩
    rintro a ha b hb rfl
    exact hnew (List.mem_singleton.mp hb ▸ ha)

end Counters

namespace Staking.Query

open Abi

def queried : List Method :=
  [Contracts.validators, Contracts.validatorOwners, Contracts.totalRewards,
    Contracts.nextEnvironment]

theorem nodup_names : (queried.map (·.name)).Nodup := by decide

theorem nodup_selectors : (queried.map (·.selector)).Nodup := by decide +kernel

theorem name_eq_iff_selector_eq {m n : Method} (hm : m ∈ queried) (hn : n ∈ queried) :
    m.name = n.name ↔ m.selector = n.selector := by
  constructor
  · intro h
    rw [List.inj_on_of_nodup_map nodup_names hm hn h]
  · intro h
    rw [List.inj_on_of_nodup_map nodup_selectors hm hn h]

def asks (method : Method) (requests : List (Request × BlockRef)) : Nat :=
  requests.countP fun x => x.1.data.take 4 = method.selector.bytes

structure Poses (method : Method) (account : Address) (request : Request) : Prop where
  sender : request.sender = none
  target : request.target = account
  data : ∃ args, method.encodeCall args = .ok request.data

theorem Poses.front {method : Method} {account : Address} {request : Request}
    (h : Poses method account request) : request.data.take 4 = method.selector.bytes := by
  obtain ⟨args, hdata⟩ := h.data
  obtain ⟨-, hdata⟩ := Method.encodeCall_eq_ok_iff.mp hdata
  rw [← hdata]
  exact List.take_left' method.selector.length_bytes

structure Inquires (method : Method) (account : Address) (args : List Value)
    (request : Request) : Prop where
  sender : request.sender = none
  target : request.target = account
  data : method.encodeCall args = .ok request.data

structure Sent where
  method : Method
  request : Request
  block : BlockRef

namespace Sent

def entry (x : Sent) : Request × BlockRef :=
  (x.request, x.block)

def Of (queries : List (Method × Address)) (x : Sent) : Prop :=
  ∃ account, (x.method, account) ∈ queries ∧ Poses x.method account x.request

theorem Of.mono {queries wider : List (Method × Address)} {x : Sent} (h : x.Of queries)
    (sub : queries ⊆ wider) : x.Of wider := by
  obtain ⟨account, mem, poses⟩ := h
  exact ⟨account, sub mem, poses⟩

end Sent

structure Talked (sent : List Sent) (pages : Nat) (s s' : Session CallQueue) : Prop where
  requests : s'.caller.requests = s.caller.requests ++ sent.map Sent.entry
  calls : s'.metrics.calls =
    sent.foldl (fun calls x => calls.increment x.method.name) s.metrics.calls
  pages : s'.metrics.pages = s.metrics.pages + pages

namespace Talked

variable {sent later : List Sent} {pages more : Nat} {s t u : Session CallQueue}

theorem refl (s : Session CallQueue) : Talked [] 0 s s :=
  ⟨(List.append_nil _).symm, rfl, rfl⟩

theorem trans (h : Talked sent pages s t) (h' : Talked later more t u) :
    Talked (sent ++ later) (pages + more) s u where
  requests := by rw [h'.requests, h.requests, List.map_append, List.append_assoc]
  calls := by rw [h'.calls, h.calls, List.foldl_append]
  pages := by rw [h'.pages, h.pages, Nat.add_assoc]

theorem countPage (h : Talked sent pages s t) : Talked sent (pages + 1) s t.countPage :=
  ⟨h.requests, h.calls, congrArg (· + 1) h.pages⟩

end Talked

section

variable {α : Type} {target : Address} {method : Method} {args : List Value} {block : BlockRef}
  {data : Bytes}

theorem talked_ask (encoded : method.encodeCall args = .ok data) (read : Reader α)
    (s : Session CallQueue) : Talked [⟨method, ⟨none, target, data⟩, block⟩] 0 s
      (ask CallQueue.call target method args block read s).2 := by
  rw [ask_eq encoded]
  exact ⟨rfl, rfl, rfl⟩

theorem of_encoded (encoded : method.encodeCall args = .ok data)
    {queries : List (Method × Address)} (mem : (method, target) ∈ queries) :
    Sent.Of queries ⟨method, ⟨none, target, data⟩, block⟩ :=
  ⟨target, mem, rfl, rfl, args, encoded⟩

end

def unread {α : Type} : Except Failure α → Nat
  | .error (.call _) | .error (.decoding _) | .error (.conversion _) => 1
  | .error (.encoding _) | .error (.protocol _) | .error (.execution _) => 0
  | .ok _ => 0

theorem encodeCall_owners (cfg : Config) : Contracts.validatorOwners.encodeCall
    [.uint 0, .uint (Word.widen 256 cfg.pageSize)] =
      .ok (Contracts.validatorOwners.selector.bytes ++ Layout.sequence
        Contracts.validatorOwners.inputs [.uint 0, .uint (Word.widen 256 cfg.pageSize)]) :=
  Method.encodeCall_eq_ok_iff.mpr ⟨rfl, rfl⟩

theorem encodeCall_rewards (owners : List Address) : Contracts.totalRewards.encodeCall
    [.array .address owners, .uint 1] =
      .ok (Contracts.totalRewards.selector.bytes ++ Layout.sequence
        Contracts.totalRewards.inputs [.array .address owners, .uint 1]) :=
  Method.encodeCall_eq_ok_iff.mpr ⟨rfl, rfl⟩

theorem encodeCall_environment : Contracts.nextEnvironment.encodeCall [] =
    .ok (Contracts.nextEnvironment.selector.bytes ++ Layout.sequence
      Contracts.nextEnvironment.inputs []) :=
  Method.encodeCall_eq_ok_iff.mpr ⟨rfl, rfl⟩

variable (cfg : Config) (block : BlockRef)

theorem talked_enumerate (epoch : Word64) (n : Nat) (cursor : Word256) (roster : Roster)
    (s : Session CallQueue) : ∃ sent pages,
      Talked sent pages s (enumerate CallQueue.call cfg block epoch n cursor roster s).2 ∧
      (∀ x ∈ sent, x.Of [(Contracts.validators, cfg.stakeManager)] ∧ x.block = block) ∧
      sent.length =
        pages + unread (enumerate CallQueue.call cfg block epoch n cursor roster s).1 := by
  induction n generalizing cursor roster s with
  | zero => exact ⟨[], 0, .refl s, nofun, rfl⟩
  | succ n ih =>
    let x : Sent := ⟨Contracts.validators, pageRequest cfg epoch cursor, block⟩
    have hx : ∀ y ∈ [x], y.Of [(Contracts.validators, cfg.stakeManager)] ∧ y.block = block := by
      intro y hy
      rw [List.mem_singleton.mp hy]
      exact ⟨of_encoded (encodeCall_page cfg epoch cursor) (List.mem_singleton_self _), rfl⟩
    have talked : Talked [x] 0 s (askPage CallQueue.call cfg block epoch cursor s).2 :=
      talked_ask (encodeCall_page cfg epoch cursor) Page.read s
    have hfirst := congrArg Prod.fst (askPage_eq cfg block epoch CallQueue.call cursor s)
    rcases hask : askPage CallQueue.call cfg block epoch cursor s with ⟨result, next⟩
    rw [hask] at talked hfirst
    simp only [enumerate, hask]
    cases result with
    | error e =>
      refine ⟨[x], 0, talked, hx, ?_⟩
      rcases receive_page (CallQueue.call (pageRequest cfg epoch cursor) block s.caller).1 with
        ⟨page, -, hreceive⟩ | ⟨e', -, hreceive⟩ | ⟨-, e', -, -, hreceive⟩ <;>
        cases hfirst.trans hreceive <;> rfl
    | ok page =>
      by_cases hnil : page.owners = []
      · simp only [hnil, if_true]
        exact ⟨[x], 1, talked.countPage, hx, rfl⟩
      by_cases heven : page.Even
      · by_cases hstall : page.cursor ≤ cursor
        · simp only [hnil, heven, hstall, not_true, if_false, if_true]
          exact ⟨[x], 1, talked.countPage, hx, rfl⟩
        · simp only [hnil, heven, hstall, not_true, if_false]
          obtain ⟨sent, pages, rest, hsent, hlength⟩ :=
            ih page.cursor (roster.extend page.rows) next.countPage
          refine ⟨x :: sent, 1 + pages, talked.countPage.trans rest, ?_, ?_⟩
          · intro y hy
            rcases List.mem_cons.mp hy with rfl | hy
            · exact hx x (List.mem_singleton_self x)
            · exact hsent y hy
          · rw [List.length_cons, hlength]
            omega
      · simp only [hnil, heven, not_false_iff, if_false, if_true]
        exact ⟨[x], 1, talked.countPage, hx, rfl⟩

theorem talked_rewards (s : Session CallQueue) : ∃ sent,
    Talked sent 0 s (rewards CallQueue.call cfg block s).2 ∧
    ∀ x ∈ sent, x.Of [(Contracts.validatorOwners, cfg.stakeManager),
      (Contracts.totalRewards, cfg.stakeManager)] ∧ x.block = block := by
  have asked := @talked_ask _ cfg.stakeManager _ _ block _ (encodeCall_owners cfg) readOwners s
  unfold rewards
  rcases hask : ask CallQueue.call cfg.stakeManager Contracts.validatorOwners
    [.uint 0, .uint (Word.widen 256 cfg.pageSize)] block readOwners s with ⟨e | owners, next⟩ <;>
    rw [hask] at asked
  · refine ⟨_, asked, fun x hx => ?_⟩
    rw [List.mem_singleton.mp hx]
    exact ⟨of_encoded (encodeCall_owners cfg) (by simp), rfl⟩
  · refine ⟨_, asked.trans (talked_ask (encodeCall_rewards owners) readRewards next), ?_⟩
    intro x hx
    rcases List.mem_cons.mp hx with rfl | hx
    · exact ⟨of_encoded (encodeCall_owners cfg) (by simp), rfl⟩
    · rw [List.mem_singleton.mp hx]
      exact ⟨of_encoded (encodeCall_rewards owners) (by simp), rfl⟩

theorem talked_environment (s : Session CallQueue) : ∃ sent,
    Talked sent 0 s (nextEnvironment CallQueue.call cfg block s).2 ∧
    ∀ x ∈ sent, x.Of [(Contracts.nextEnvironment, cfg.environment)] ∧ x.block = block := by
  refine ⟨_, talked_ask encodeCall_environment readEnvironment s, fun x hx => ?_⟩
  rw [List.mem_singleton.mp hx]
  exact ⟨of_encoded encodeCall_environment (List.mem_singleton_self _), rfl⟩

end Staking.Query

end StakedChain
