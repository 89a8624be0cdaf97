import StakedChain.Proofs.Staking.Enumeration
import StakedChain.Proofs.Staking.Exchange

namespace StakedChain.Staking.Query

open Abi

variable {σ τ : Type} (cfg : Config) (block : BlockRef) (epoch : Word64)

theorem receive_page (response : Except CallError Bytes) :
    (∃ page, Page.Answers response page ∧
      receive Contracts.validators Page.read response = .ok page) ∨
    (∃ e, response = .error e ∧
      receive Contracts.validators Page.read response = .error (.call e)) ∨
    ∃ output e, response = .ok output ∧ Contracts.validators.decodeOutput output = .error e ∧
      receive Contracts.validators Page.read response = .error (.decoding e) := by
  cases response with
  | error e => exact .inr (.inl ⟨e, rfl, rfl⟩)
  | ok output =>
    cases decoded : Contracts.validators.decodeOutput output with
    | error e => exact .inr (.inr ⟨output, e, rfl, decoded, by simp only [receive, decoded]⟩)
    | ok vs =>
      obtain ⟨page, rfl⟩ := Page.exists_values decoded
      exact .inl ⟨page, ⟨output, rfl, decoded⟩, by
        simp only [receive, decoded, Page.read_values]⟩

theorem askPage_eq (caller : Caller σ) (cursor : Word256) (s : Session σ) :
    askPage caller cfg block epoch cursor s =
      (receive Contracts.validators Page.read
          (caller (pageRequest cfg epoch cursor) block s.caller).1,
        s.counted Contracts.validators
          (caller (pageRequest cfg epoch cursor) block s.caller).2) :=
  ask_eq (encodeCall_page cfg epoch cursor) s

inductive Halts (cursor : Word256) (found : Roster) (response : Except CallError Bytes) :
    Except Failure Roster → Prop where
  | call {e : CallError} : response = .error e → Halts cursor found response (.error (.call e))
  | decoding {output : Bytes} {e : DecodeError} : response = .ok output →
      Contracts.validators.decodeOutput output = .error e →
        Halts cursor found response (.error (.decoding e))
  | shape {page : Page} : Page.Answers response page → page.owners ≠ [] → ¬page.Even →
      Halts cursor found response (.error (.protocol (.pageShape page.owners.length
        page.operators.length page.stakes.length page.candidates.length)))
  | stalled {page : Page} : Page.Answers response page → page.owners ≠ [] → page.Even →
      page.cursor ≤ cursor →
        Halts cursor found response (.error (.protocol (.stalledCursor cursor page.cursor)))
  | last {page : Page} : Page.Answers response page → page.owners = [] →
      Halts cursor found response (.ok found)

theorem Halts.not_limit {cursor : Word256} {found : Roster} {response : Except CallError Bytes}
    {limit : Word64} : ¬Halts cursor found response (.error (.protocol (.pageLimit limit))) :=
  nofun

theorem enumerate_step (caller : Caller σ) (n : Nat) (cursor : Word256) (roster : Roster)
    (s : Session σ) : ∃ response next,
      caller (pageRequest cfg epoch cursor) block s.caller = (response, next.caller) ∧
      ((∃ result, Halts cursor roster response result ∧
          enumerate caller cfg block epoch (n + 1) cursor roster s = (result, next)) ∨
        ∃ page, Page.Answers response page ∧ page.owners ≠ [] ∧ page.Even ∧
          cursor < page.cursor ∧
          enumerate caller cfg block epoch (n + 1) cursor roster s =
            enumerate caller cfg block epoch n page.cursor (roster.extend page.rows) next) := by
  rcases hcall : caller (pageRequest cfg epoch cursor) block s.caller with ⟨response, rest⟩
  let read := s.counted Contracts.validators rest
  simp only [enumerate, askPage_eq, hcall]
  rcases receive_page response with
    ⟨page, answers, hreceive⟩ | ⟨e, failed, hreceive⟩ | ⟨output, e, answered, failed, hreceive⟩
  · refine ⟨response, read.countPage, rfl, ?_⟩
    rw [hreceive]
    by_cases hnil : page.owners = []
    · exact .inl ⟨_, .last answers hnil, by simp only [hnil, if_true]; rfl⟩
    by_cases heven : page.Even
    · by_cases hstall : page.cursor ≤ cursor
      · refine .inl ⟨_, .stalled answers hnil heven hstall, ?_⟩
        simp only [hnil, heven, hstall, not_true, if_false, if_true]
        rfl
      · refine .inr ⟨page, answers, hnil, heven, BitVec.not_le.mp hstall, ?_⟩
        simp only [hnil, heven, hstall, not_true, if_false]
        rfl
    · refine .inl ⟨_, .shape answers hnil heven, ?_⟩
      simp only [hnil, heven, not_false_iff, if_false, if_true]
      rfl
  · refine ⟨response, read, rfl, .inl ⟨_, .call failed, ?_⟩⟩
    rw [hreceive]
  · refine ⟨response, read, rfl, .inl ⟨_, .decoding answered failed, ?_⟩⟩
    rw [hreceive]

theorem enumerate_of_refines {f : τ → σ} {fine : Caller τ} {coarse : Caller σ}
    (refines : Caller.Refines f fine coarse) (n : Nat) (cursor : Word256) (roster : Roster)
    (s : Session τ) :
    enumerate coarse cfg block epoch n cursor roster (s.map f) =
      ((enumerate fine cfg block epoch n cursor roster s).1,
        (enumerate fine cfg block epoch n cursor roster s).2.map f) := by
  induction n generalizing cursor roster s with
  | zero => rfl
  | succ n ih =>
    have hpage : askPage coarse cfg block epoch cursor (s.map f) = _ :=
      ask_of_refines refines _ _ _ _ _ s
    simp only [enumerate, hpage, ← askPage.eq_1]
    rcases askPage fine cfg block epoch cursor s with ⟨e | page, next⟩
    · rfl
    · simp only
      split
      · rfl
      split
      · rfl
      split
      · rfl
      · exact ih _ _ next.countPage

theorem enumerate_keeps {caller : Caller σ} {P : σ → Prop} (kept : caller.Keeps P) (n : Nat)
    (cursor : Word256) (roster : Roster) {s : Session σ} (h : P s.caller) :
    P (enumerate caller cfg block epoch n cursor roster s).2.caller := by
  induction n generalizing cursor roster s with
  | zero => exact h
  | succ n ih =>
    obtain ⟨response, next, hcall, hstep⟩ :=
      enumerate_step cfg block epoch caller n cursor roster s
    have hnext : P next.caller := by
      have := kept (pageRequest cfg epoch cursor) block s.caller h
      rwa [hcall] at this
    rcases hstep with ⟨result, -, hrun⟩ | ⟨page, -, -, -, -, hrun⟩
    · rwa [hrun]
    · rw [hrun]
      exact ih page.cursor (roster.extend page.rows) hnext

inductive Conversation (cfg : Config) (block : BlockRef) (epoch : Word64) :
    Nat → Word256 → Roster → List Page → List Exchange → Except Failure Roster → Prop where
  | limit {cursor : Word256} {roster : Roster} :
      Conversation cfg block epoch 0 cursor roster [] []
        (.error (.protocol (.pageLimit cfg.maxPages)))
  | halt {n : Nat} {cursor : Word256} {roster : Roster} {x : Exchange}
      {result : Except Failure Roster} :
      x.asked = (pageRequest cfg epoch cursor, block) → Halts cursor roster x.response result →
        Conversation cfg block epoch (n + 1) cursor roster [] [x] result
  | move {n : Nat} {cursor : Word256} {roster : Roster} {x : Exchange} {xs : List Exchange}
      {page : Page} {pages : List Page} {result : Except Failure Roster} :
      x.asked = (pageRequest cfg epoch cursor, block) → Page.Answers x.response page →
        page.owners ≠ [] → page.Even → cursor < page.cursor →
        Conversation cfg block epoch n page.cursor (roster.extend page.rows) pages xs result →
          Conversation cfg block epoch (n + 1) cursor roster (page :: pages) (x :: xs) result

theorem enumerate_recorded (caller : Caller σ) (n : Nat) (cursor : Word256) (roster : Roster)
    (s : Session (σ × List Exchange)) : ∃ pages asked result next,
      Conversation cfg block epoch n cursor roster pages asked result ∧
      enumerate caller.recorded cfg block epoch n cursor roster s = (result, next) ∧
      next.caller.2 = s.caller.2 ++ asked := by
  induction n generalizing cursor roster s with
  | zero => exact ⟨[], [], _, s, .limit, rfl, (List.append_nil _).symm⟩
  | succ n ih =>
    obtain ⟨response, mid, hcall, hstep⟩ :=
      enumerate_step cfg block epoch caller.recorded n cursor roster s
    obtain ⟨hresponse, hmid⟩ := Prod.mk.inj hcall
    have hseen : mid.caller.2 =
        s.caller.2 ++ [⟨pageRequest cfg epoch cursor, block, response⟩] := by
      rw [← hmid, ← hresponse]
    rcases hstep with ⟨result, halts, hrun⟩ | ⟨page, answers, hne, heven, hlt, hrun⟩
    · exact ⟨[], _, result, mid, .halt rfl halts, hrun, hseen⟩
    · obtain ⟨pages, asked, result, next, rest, hrest, hasked⟩ :=
        ih page.cursor (roster.extend page.rows) mid
      refine ⟨page :: pages, ⟨pageRequest cfg epoch cursor, block, response⟩ :: asked, result, next,
        .move rfl answers hne heven hlt rest, hrun.trans hrest, ?_⟩
      rw [hasked, hseen, List.append_assoc, List.singleton_append]

namespace Page

def reached : Word256 → List Page → Word256
  | cursor, [] => cursor
  | _, page :: pages => reached page.cursor pages

theorem Advancing.pairwise {cursor : Word256} {pages : List Page} (h : Advancing cursor pages) :
    (cursor :: pages.map (·.cursor)).Pairwise (· < ·) := by
  induction pages generalizing cursor with
  | nil => exact List.pairwise_singleton _ _
  | cons page pages ih =>
    obtain ⟨-, -, hlt, hrest⟩ := h
    have hpages := ih hrest
    refine List.pairwise_cons.mpr ⟨?_, hpages⟩
    intro next hnext
    rcases List.mem_cons.mp hnext with rfl | hlater
    · exact hlt
    · exact BitVec.lt_trans hlt (List.rel_of_pairwise_cons hpages hlater)

end Page

namespace Conversation

variable {cfg block epoch} {n : Nat} {cursor : Word256} {roster : Roster} {pages : List Page}
  {asked : List Exchange} {result : Except Failure Roster}

theorem length_le (h : Conversation cfg block epoch n cursor roster pages asked result) :
    asked.length ≤ n := by
  induction h with
  | limit => exact Nat.le_refl 0
  | halt _ _ => exact Nat.succ_le_succ (Nat.zero_le _)
  | move _ _ _ _ _ _ ih => exact Nat.succ_le_succ ih

theorem requests (h : Conversation cfg block epoch n cursor roster pages asked result) :
    asked.map Exchange.asked = ((cursor :: pages.map (·.cursor)).take n).map
      fun cursor => (pageRequest cfg epoch cursor, block) := by
  induction h with
  | limit => rfl
  | halt hasked _ => simp [hasked]
  | move hasked _ _ _ _ _ ih => simp [hasked, ih]

theorem answered (h : Conversation cfg block epoch n cursor roster pages asked result) :
    Page.Answered pages (asked.map (·.response)) := by
  induction h with
  | limit => trivial
  | halt _ _ => trivial
  | move _ answers _ _ _ _ ih => exact ⟨answers, ih⟩

theorem advancing (h : Conversation cfg block epoch n cursor roster pages asked result) :
    Page.Advancing cursor pages := by
  induction h with
  | limit => trivial
  | halt _ _ => trivial
  | move _ _ hne heven hlt _ ih => exact ⟨hne, heven, hlt, ih⟩

theorem ends (h : Conversation cfg block epoch n cursor roster pages asked result) :
    (asked.length = pages.length + 1 ∧ ∃ last, asked.getLast? = some last ∧
        Halts (Page.reached cursor pages) (roster.extend (pages.flatMap Page.rows))
          last.response result) ∨
      asked.length = pages.length ∧ pages.length = n ∧
        result = .error (.protocol (.pageLimit cfg.maxPages)) := by
  induction h with
  | limit => exact .inr ⟨rfl, rfl, rfl⟩
  | @halt n cursor roster x result _ halts =>
    exact .inl ⟨rfl, x, rfl, by simpa [Page.reached, Roster.extend] using halts⟩
  | @move n cursor roster x xs page pages result _ _ _ _ _ _ ih =>
    rcases ih with ⟨hlength, last, hlast, halts⟩ | ⟨hlength, hlimit, hresult⟩
    · refine .inl ⟨congrArg (· + 1) hlength, last, by simp [List.getLast?_cons, hlast], ?_⟩
      rwa [Page.reached, List.flatMap_cons, Roster.extend_append]
    · exact .inr ⟨congrArg (· + 1) hlength, congrArg (· + 1) hlimit, hresult⟩

theorem limit_iff (h : Conversation cfg block epoch n cursor roster pages asked result) :
    (∃ limit, result = .error (.protocol (.pageLimit limit))) ↔ pages.length = n := by
  rcases h.ends with ⟨hlength, last, -, halts⟩ | ⟨-, hlimit, hresult⟩
  · constructor
    · rintro ⟨limit, rfl⟩
      exact absurd halts Halts.not_limit
    · intro hlimit
      have := h.length_le
      omega
  · exact ⟨fun _ => hlimit, fun _ => ⟨_, hresult⟩⟩

end Conversation

theorem nextValidators_halts (cfg : Config) (block : BlockRef) (epoch : Word64) :
    (∀ (σ : Type) (caller : Caller σ) (s : Session σ),
      ∃ (pages : List Page) (asked : List Exchange) (result : Except Failure Roster)
        (final : Session σ),
        nextValidators caller cfg block epoch s = (result, final) ∧
        nextValidators caller.recorded cfg block epoch ⟨(s.caller, []), s.metrics⟩ =
          (result, ⟨(final.caller, asked), final.metrics⟩) ∧
        asked.length ≤ cfg.maxPages.toNat ∧
        asked.map Exchange.asked = ((0 :: pages.map (·.cursor)).take cfg.maxPages.toNat).map
          (fun cursor => (pageRequest cfg epoch cursor, block)) ∧
        (0 :: pages.map (·.cursor)).Pairwise (· < ·) ∧
        Page.Answered pages (asked.map (·.response)) ∧ Page.Advancing 0 pages ∧
        ((asked.length = pages.length + 1 ∧ ∃ last, asked.getLast? = some last ∧
            Halts (Page.reached 0 pages) (.extend .empty (pages.flatMap Page.rows))
              last.response result) ∨
          asked.length = pages.length ∧ pages.length = cfg.maxPages.toNat ∧
            result = .error (.protocol (.pageLimit cfg.maxPages))) ∧
        ((∃ limit, result = .error (.protocol (.pageLimit limit))) ↔
          pages.length = cfg.maxPages.toNat)) ∧
    ∀ (queue : CallQueue) (metrics : QueryMetrics), ∃ asked result final,
      nextValidators (Caller.recorded CallQueue.call) cfg block epoch ⟨(queue, []), metrics⟩ =
        (result, ⟨(⟨queue.responses.drop asked.length,
          queue.requests ++ asked.map Exchange.asked⟩, asked), final⟩) ∧
      asked.map (·.response) =
        (List.range asked.length).map fun i => CallQueue.answer (queue.responses.drop i) := by
  refine ⟨?_, ?_⟩
  · intro σ caller s
    let start : Session (σ × List Exchange) := ⟨(s.caller, []), s.metrics⟩
    obtain ⟨pages, asked, result, final, conversation, hrun, hasked⟩ :=
      enumerate_recorded cfg block epoch caller cfg.maxPages.toNat 0 .empty start
    have hplain := enumerate_of_refines cfg block epoch caller.recorded_refines
      cfg.maxPages.toNat 0 .empty start
    rw [hrun] at hplain
    refine ⟨pages, asked, result, final.map Prod.fst, hplain, ?_, conversation.length_le,
      conversation.requests, conversation.advancing.pairwise, conversation.answered,
      conversation.advancing, conversation.ends, conversation.limit_iff⟩
    have hseen : final.caller.2 = asked := hasked
    rw [nextValidators, hrun, ← hseen]
    rfl
  · intro queue metrics
    have served := enumerate_keeps cfg block epoch
      queue.keeps_served cfg.maxPages.toNat 0 .empty (s := ⟨(queue, []), metrics⟩) queue.served_nil
    rcases hrun : nextValidators (Caller.recorded CallQueue.call) cfg block epoch
      ⟨(queue, []), metrics⟩ with ⟨result, ⟨⟨rest, asked⟩, final⟩⟩
    rw [← nextValidators, hrun] at served
    obtain ⟨rfl, hanswers⟩ := served
    exact ⟨asked, result, final, rfl, hanswers⟩

end StakedChain.Staking.Query
