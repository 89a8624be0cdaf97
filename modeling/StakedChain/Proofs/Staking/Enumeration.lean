import StakedChain.Call.Queue
import StakedChain.Staking.Query
import StakedChain.Proofs.Abi.RoundTrip

namespace StakedChain.Staking

open Abi

namespace Roster

theorem columns_rowsOf : ∀ (owners operators : List Address) (stakes : List Word256),
    operators.length = owners.length → stakes.length = owners.length →
    (rowsOf owners operators stakes).map (·.owner) = owners ∧
      (rowsOf owners operators stakes).map (·.operator) = operators ∧
      (rowsOf owners operators stakes).map (·.stake) = stakes
  | [], [], [], _, _ => by simp [rowsOf]
  | owner :: owners, operator :: operators, stake :: stakes, ho, hs => by
    simp only [List.length_cons, Nat.add_right_cancel_iff] at ho hs
    obtain ⟨h1, h2, h3⟩ := columns_rowsOf owners operators stakes ho hs
    simp [rowsOf, h1, h2, h3]

structure Lists (roster : Roster) (found : List Candidate) : Prop where
  owners : roster.owners = found.map (·.owner)
  operators : roster.operators = found.map (·.operator)
  stakes : roster.stakes = found.map (·.stake)
  rows : roster.rows = found

theorem lists_iff {roster : Roster} {found : List Candidate} :
    roster.Lists found ↔ roster.Even ∧ roster.rows = found := by
  constructor
  · rintro ⟨owners, operators, stakes, rows⟩
    refine ⟨⟨?_, ?_⟩, rows⟩
    · rw [operators, owners, List.length_map, List.length_map]
    · rw [stakes, owners, List.length_map, List.length_map]
  · rintro ⟨even, rfl⟩
    obtain ⟨owners, operators, stakes⟩ := columns_rowsOf _ _ _ even.1 even.2
    exact ⟨owners.symm, operators.symm, stakes.symm, rfl⟩

theorem eq_of_lists {a b : Roster} {found : List Candidate} (ha : a.Lists found)
    (hb : b.Lists found) : a = b := by
  cases a
  cases b
  simp only [mk.injEq]
  exact ⟨ha.owners.trans hb.owners.symm, ha.operators.trans hb.operators.symm,
    ha.stakes.trans hb.stakes.symm⟩

theorem extend_append (roster : Roster) (xs ys : List Candidate) :
    roster.extend (xs ++ ys) = (roster.extend xs).extend ys := by
  simp [extend, List.filter_append, List.foldl_append]

theorem eq_extend_empty_iff {roster : Roster} {found : List Candidate} :
    roster = empty.extend found ↔ roster.Lists (found.filter (·.candidate)) := by
  have lists : (empty.extend found).Lists (found.filter (·.candidate)) :=
    lists_iff.mpr (rows_extend even_empty found)
  exact ⟨fun same => same ▸ lists, fun h => eq_of_lists h lists⟩

end Roster

namespace Query

variable {σ α : Type}

theorem ask_eq_ok_iff {caller : Caller σ} {target : Address} {method : Method}
    {args : List Value} {block : BlockRef} {read : Reader α} {s s' : Session σ} {x : α} :
    ask caller target method args block read s = (.ok x, s') ↔
      ∃ data output rest vs, method.encodeCall args = .ok data ∧
        caller ⟨none, target, data⟩ block s.caller = (.ok output, rest) ∧
        method.decodeOutput output = .ok vs ∧ read vs = .ok x ∧
        s' = ⟨rest, { s.metrics with calls := s.metrics.calls.increment method.name }⟩ := by
  constructor
  · intro h
    unfold ask at h
    split at h
    · cases h
    · rename_i data hdata
      split at h
      rename_i response rest hcall
      dsimp only at h
      split at h
      · cases h
      · rename_i output
        split at h
        · cases h
        · rename_i vs hvs
          split at h
          · cases h
          · rename_i y hy
            cases h
            exact ⟨data, output, rest, vs, hdata, hcall, hvs, hy, rfl⟩
  · rintro ⟨data, output, rest, vs, hdata, hcall, hvs, hx, rfl⟩
    simp only [ask, hdata, hcall, hvs, hx]

inductive Turns (caller : Caller σ) (cfg : Config) (block : BlockRef) (epoch : Word64) :
    Word256 → Session σ → List Page → Page → Session σ → Prop where
  | last {cursor : Word256} {s s' : Session σ} {page : Page} :
      askPage caller cfg block epoch cursor s = (.ok page, s') → page.owners = [] →
        Turns caller cfg block epoch cursor s [] page s'.countPage
  | more {cursor : Word256} {s mid s' : Session σ} {page final : Page} {pages : List Page} :
      askPage caller cfg block epoch cursor s = (.ok page, mid) → page.owners ≠ [] →
        page.Even → cursor < page.cursor →
        Turns caller cfg block epoch page.cursor mid.countPage pages final s' →
          Turns caller cfg block epoch cursor s (page :: pages) final s'

section

variable {caller : Caller σ} {cfg : Config} {block : BlockRef} {epoch : Word64}

theorem turns_of_enumerate {n : Nat} {cursor : Word256} {roster found : Roster}
    {s s' : Session σ} (h : enumerate caller cfg block epoch n cursor roster s = (.ok found, s')) :
    ∃ pages final, pages.length < n ∧ Turns caller cfg block epoch cursor s pages final s' ∧
      found = roster.extend (pages.flatMap Page.rows) := by
  induction n generalizing cursor roster s with
  | zero => cases h
  | succ n ih =>
    simp only [enumerate] at h
    split at h
    · cases h
    · rename_i page mid hpage
      split at h
      · rename_i hnil
        cases h
        exact ⟨[], page, Nat.succ_pos n, .last hpage hnil, rfl⟩
      · rename_i hne
        split at h
        · cases h
        · rename_i heven
          split at h
          · cases h
          · rename_i hle
            obtain ⟨pages, final, hlen, hturns, rfl⟩ := ih h
            refine ⟨page :: pages, final, Nat.succ_lt_succ hlen, ?_, ?_⟩
            · exact .more hpage hne (Decidable.not_not.mp heven) (BitVec.not_le.mp hle) hturns
            · rw [List.flatMap_cons, Roster.extend_append]

theorem Turns.enumerate {cursor : Word256} {s s' : Session σ} {pages : List Page} {final : Page}
    (h : Turns caller cfg block epoch cursor s pages final s') :
    ∀ {n : Nat} (roster : Roster), pages.length < n →
      enumerate caller cfg block epoch n cursor roster s =
        (.ok (roster.extend (pages.flatMap Page.rows)), s') := by
  induction h with
  | last hpage hnil =>
    intro n roster hn
    obtain ⟨n, rfl⟩ := Nat.exists_eq_add_one_of_ne_zero (Nat.ne_of_gt hn)
    simp [Query.enumerate, hpage, hnil, Roster.extend]
  | @more cursor s mid s' page final pages hpage hne heven hlt _ ih =>
    intro n roster hn
    obtain ⟨n, rfl⟩ := Nat.exists_eq_add_one_of_ne_zero (Nat.ne_zero_of_lt hn)
    have hrest := ih (roster.extend page.rows) (Nat.lt_of_succ_lt_succ hn)
    have hstall : ¬page.cursor ≤ cursor := BitVec.not_le.mpr hlt
    simp only [Query.enumerate, hpage, hne, heven, hstall, not_true, if_false, hrest,
      List.flatMap_cons, Roster.extend_append]

end

namespace Page

def values (page : Page) : List Value :=
  [.array .address page.owners, .array .address page.operators, .array .uint page.stakes,
   .array .bool page.candidates, .atom .uint page.cursor]

theorem read_values (page : Page) : read page.values = .ok page := by
  simp only [read, values, next, take, Value.toArray_array, Value.toAtom_atom, bind, Except.bind,
    pure, Except.pure]

theorem exists_values {output : Bytes} {vs : List Value}
    (h : Contracts.validators.decodeOutput output = .ok vs) : ∃ page : Page, vs = page.values := by
  have hc := conformsAll_of_decode h
  simp only [Contracts.validators] at hc
  match vs, hc with
  | [.array .address owners, .array .address operators, .array .uint stakes,
     .array .bool candidates, .atom .uint cursor], _ =>
    exact ⟨⟨owners, operators, stakes, candidates, cursor⟩, rfl⟩

structure Row (page : Page) (i : Nat) (row : Candidate) : Prop where
  owner : page.owners[i]? = some row.owner
  operator : page.operators[i]? = some row.operator
  stake : page.stakes[i]? = some row.stake
  candidate : page.candidates[i]? = some row.candidate

theorem getElem?_rowsOf_eq_some_iff {owners operators : List Address} {stakes : List Word256}
    {candidates : List Bool} {i : Nat} {row : Candidate} :
    (rowsOf owners operators stakes candidates)[i]? = some row ↔
      owners[i]? = some row.owner ∧ operators[i]? = some row.operator ∧
        stakes[i]? = some row.stake ∧ candidates[i]? = some row.candidate := by
  induction owners generalizing operators stakes candidates i with
  | nil => simp [rowsOf]
  | cons owner owners ih =>
    rcases operators with _ | ⟨operator, operators⟩
    · simp [rowsOf]
    rcases stakes with _ | ⟨stake, stakes⟩
    · simp [rowsOf]
    rcases candidates with _ | ⟨candidate, candidates⟩
    · simp [rowsOf]
    cases i with
    | zero =>
      cases row
      simp only [rowsOf, List.getElem?_cons_zero, Option.some.injEq, Candidate.mk.injEq]
    | succ i => exact ih

theorem getElem?_rows_eq_some_iff {page : Page} {i : Nat} {row : Candidate} :
    page.rows[i]? = some row ↔ page.Row i row := by
  rw [rows, getElem?_rowsOf_eq_some_iff]
  exact ⟨fun ⟨owner, operator, stake, candidate⟩ => ⟨owner, operator, stake, candidate⟩,
    fun ⟨owner, operator, stake, candidate⟩ => ⟨owner, operator, stake, candidate⟩⟩

theorem eq_rows {page : Page} {found : List Candidate}
    (h : ∀ i row, found[i]? = some row ↔ page.Row i row) : found = page.rows := by
  apply List.ext_getElem?
  intro i
  apply Option.ext
  intro row
  rw [h, getElem?_rows_eq_some_iff]

def Answers (response : Except CallError Bytes) (page : Page) : Prop :=
  ∃ output, response = .ok output ∧ Contracts.validators.decodeOutput output = .ok page.values

def Answered : List Page → List (Except CallError Bytes) → Prop
  | [], _ => True
  | _ :: _, [] => False
  | page :: pages, response :: responses => Answers response page ∧ Answered pages responses

theorem answers_layout {page : Page}
    (short : (Layout.sequence Contracts.validators.outputs page.values).length <
      Bytes.bufferLimit) :
    page.Answers (.ok (Layout.sequence Contracts.validators.outputs page.values)) := by
  have conforms : Value.conformsAll page.values Contracts.validators.outputs = true := rfl
  have hdecode := decode_layout conforms short []
  rw [List.append_nil, if_neg] at hdecode
  · exact ⟨_, rfl, hdecode⟩
  · rintro ⟨hnil, -⟩
    cases (Layout.sequence_eq_nil_iff conforms).mp hnil

def Advancing : Word256 → List Page → Prop
  | _, [] => True
  | cursor, page :: pages =>
    page.owners ≠ [] ∧
      (page.operators.length = page.owners.length ∧ page.stakes.length = page.owners.length ∧
        page.candidates.length = page.owners.length) ∧
      cursor < page.cursor ∧ Advancing page.cursor pages

end Page

def pageRequest (cfg : Config) (epoch : Word64) (cursor : Word256) : Request where
  sender := none
  target := cfg.stakeManager
  data := Contracts.validators.selector.bytes ++ Layout.sequence Contracts.validators.inputs
    [.uint (Word.widen 256 epoch), .uint cursor, .uint (Word.widen 256 cfg.pageSize)]

theorem encodeCall_page (cfg : Config) (epoch : Word64) (cursor : Word256) :
    Contracts.validators.encodeCall
        [.uint (Word.widen 256 epoch), .uint cursor, .uint (Word.widen 256 cfg.pageSize)] =
      .ok (pageRequest cfg epoch cursor).data :=
  Method.encodeCall_eq_ok_iff.mpr ⟨rfl, rfl⟩

def Session.asked (cfg : Config) (block : BlockRef) (epoch : Word64) (cursor : Word256)
    (s : Session CallQueue) : Session CallQueue :=
  ⟨⟨s.caller.responses.tail, s.caller.requests ++ [(pageRequest cfg epoch cursor, block)]⟩,
   { s.metrics with calls := s.metrics.calls.increment Contracts.validators.name }⟩

variable {cfg : Config} {block : BlockRef} {epoch : Word64}

theorem askPage_eq_ok_iff {cursor : Word256} {s s' : Session CallQueue} {page : Page} :
    askPage CallQueue.call cfg block epoch cursor s = (.ok page, s') ↔
      Page.Answered [page] s.caller.responses ∧ s' = s.asked cfg block epoch cursor := by
  rw [askPage, ask_eq_ok_iff]
  constructor
  · rintro ⟨data, output, rest, vs, hdata, hcall, hvs, hread, rfl⟩
    rw [encodeCall_page] at hdata
    cases hdata
    obtain ⟨other, rfl⟩ := Page.exists_values hvs
    rw [Page.read_values] at hread
    cases hread
    obtain ⟨⟨responses, requests⟩, metrics⟩ := s
    cases responses with
    | nil => cases hcall
    | cons response responses =>
      cases hcall
      exact ⟨⟨⟨output, rfl, hvs⟩, trivial⟩, rfl⟩
  · rintro ⟨hanswer, rfl⟩
    obtain ⟨⟨responses, requests⟩, metrics⟩ := s
    cases responses with
    | nil => exact hanswer.elim
    | cons response responses =>
      obtain ⟨⟨output, rfl, hvs⟩, -⟩ := hanswer
      exact ⟨_, output, _, _, encodeCall_page cfg epoch cursor, rfl, hvs, page.read_values, rfl⟩

def Session.afterPages (cfg : Config) (block : BlockRef) (epoch : Word64)
    (cursors : List Word256) (s : Session CallQueue) : Session CallQueue :=
  ⟨⟨s.caller.responses.drop cursors.length,
    s.caller.requests ++ cursors.map fun cursor => (pageRequest cfg epoch cursor, block)⟩,
   ⟨cursors.foldl (fun calls _ => calls.increment Contracts.validators.name) s.metrics.calls,
    s.metrics.pages + cursors.length⟩⟩

theorem Session.afterPages_nil (s : Session CallQueue) :
    s.afterPages cfg block epoch [] = s := by
  simp [afterPages]

theorem Session.afterPages_cons (cursor : Word256) (cursors : List Word256)
    (s : Session CallQueue) : s.afterPages cfg block epoch (cursor :: cursors) =
      (s.asked cfg block epoch cursor).countPage.afterPages cfg block epoch cursors := by
  simp only [afterPages, asked, countPage, List.length_cons, List.map_cons, List.foldl_cons,
    List.append_assoc, List.singleton_append, List.drop_tail, Nat.add_comm 1, Nat.add_assoc]

theorem turns_iff {cursor : Word256} {s s' : Session CallQueue} {pages : List Page}
    {final : Page} : Turns CallQueue.call cfg block epoch cursor s pages final s' ↔
      Page.Answered (pages ++ [final]) s.caller.responses ∧ Page.Advancing cursor pages ∧
        final.owners = [] ∧
        s' = s.afterPages cfg block epoch (cursor :: pages.map (·.cursor)) := by
  induction pages generalizing cursor s with
  | nil =>
    rw [List.map_nil, Session.afterPages_cons, Session.afterPages_nil]
    constructor
    · rintro (⟨hpage, hnil⟩ | _)
      obtain ⟨hanswer, rfl⟩ := askPage_eq_ok_iff.mp hpage
      exact ⟨hanswer, trivial, hnil, rfl⟩
    · rintro ⟨hanswer, -, hnil, rfl⟩
      exact .last (askPage_eq_ok_iff.mpr ⟨hanswer, rfl⟩) hnil
  | cons page pages ih =>
    rw [List.map_cons, Session.afterPages_cons]
    constructor
    · rintro (_ | ⟨hpage, hne, heven, hlt, hrest⟩)
      obtain ⟨hanswer, rfl⟩ := askPage_eq_ok_iff.mp hpage
      obtain ⟨hanswers, hadv, hnil, rfl⟩ := ih.mp hrest
      refine ⟨?_, ⟨hne, heven, hlt, hadv⟩, hnil, rfl⟩
      obtain ⟨⟨responses, requests⟩, metrics⟩ := s
      cases responses with
      | nil => exact hanswer.elim
      | cons response responses => exact ⟨hanswer.1, hanswers⟩
    · rintro ⟨hanswers, ⟨hne, heven, hlt, hadv⟩, hnil, rfl⟩
      obtain ⟨⟨responses, requests⟩, metrics⟩ := s
      cases responses with
      | nil => exact hanswers.elim
      | cons response responses =>
        refine .more (askPage_eq_ok_iff.mpr ⟨⟨hanswers.1, trivial⟩, rfl⟩) hne heven hlt ?_
        exact ih.mpr ⟨hanswers.2, hadv, hnil, rfl⟩

theorem nextValidators_eq_ok_iff (cfg : Config) (block : BlockRef) (epoch : Word64)
    (s s' : Session CallQueue) (roster : Roster) :
    nextValidators CallQueue.call cfg block epoch s = (.ok roster, s') ↔
      ∃ (pages : List Page) (final : Page) (rows : Page → List Candidate),
        pages.length < cfg.maxPages.toNat ∧
        Page.Answered (pages ++ [final]) s.caller.responses ∧ Page.Advancing 0 pages ∧
        final.owners = [] ∧
        (∀ page ∈ pages, ∀ i row, (rows page)[i]? = some row ↔ page.Row i row) ∧
        roster.Lists (pages.flatMap fun page => (rows page).filter (·.candidate)) ∧
        s' = s.afterPages cfg block epoch (0 :: pages.map (·.cursor)) := by
  constructor
  · intro h
    obtain ⟨pages, final, hlen, hturns, hroster⟩ := turns_of_enumerate h
    obtain ⟨hanswers, hadv, hnil, hs⟩ := turns_iff.mp hturns
    have lists := Roster.eq_extend_empty_iff.mp hroster
    rw [List.filter_flatMap] at lists
    exact ⟨pages, final, Page.rows, hlen, hanswers, hadv, hnil,
      fun _ _ _ _ => Page.getElem?_rows_eq_some_iff, lists, hs⟩
  · rintro ⟨pages, final, rows, hlen, hanswers, hadv, hnil, tabled, lists, hs⟩
    have hrows : (pages.flatMap fun page => (rows page).filter (·.candidate)) =
        (pages.flatMap Page.rows).filter (·.candidate) := by
      rw [List.filter_flatMap, List.flatMap_def, List.flatMap_def]
      exact congrArg _ (List.map_congr_left fun page mem => by rw [Page.eq_rows (tabled page mem)])
    rw [hrows] at lists
    have hturns := turns_iff.mpr ⟨hanswers, hadv, hnil, hs⟩
    rw [Roster.eq_extend_empty_iff.mpr lists]
    exact hturns.enumerate .empty hlen

namespace Trial

def opening : Page where
  owners := [.ofNat 20 1, .ofNat 20 2, .ofNat 20 3]
  operators := [.ofNat 20 4, .ofNat 20 5, .ofNat 20 6]
  stakes := [70, 80, 90]
  candidates := [true, false, true]
  cursor := 3

def closing : Page where
  owners := [.ofNat 20 11, .ofNat 20 12]
  operators := [.ofNat 20 14, .ofNat 20 15]
  stakes := [20, 30]
  candidates := [true, true]
  cursor := 5

def vacant : Page :=
  ⟨[], [.ofNat 20 16], [], [true], 0⟩

def published (page : Page) : Except CallError Bytes :=
  .ok (Layout.sequence Contracts.validators.outputs page.values)

def listening : Session CallQueue :=
  ⟨⟨[opening, closing, vacant, opening].map published, []⟩, .empty⟩

theorem two_pages_list_four_candidates :
    [opening, closing].length < (Config.standard 1 (.genesis 3 200)).maxPages.toNat ∧
    Page.Advancing 0 [opening, closing] ∧ vacant.owners = [] ∧ ∃ next,
      nextValidators CallQueue.call (.standard 1 (.genesis 3 200)) .pending 7 listening =
        (.ok ⟨[.ofNat 20 1, .ofNat 20 3, .ofNat 20 11, .ofNat 20 12],
          [.ofNat 20 4, .ofNat 20 6, .ofNat 20 14, .ofNat 20 15], [70, 90, 20, 30]⟩, next) ∧
      next.caller.responses = [published opening] ∧ next.caller.requests.length = 3 := by
  have few : [opening, closing].length < (Config.standard 1 (.genesis 3 200)).maxPages.toNat := by
    decide
  have advancing : Page.Advancing 0 [opening, closing] :=
    ⟨nofun, by decide, by decide, nofun, by decide, by decide, trivial⟩
  have answered : Page.Answered ([opening, closing] ++ [vacant]) listening.caller.responses :=
    ⟨Page.answers_layout (by decide +kernel), Page.answers_layout (by decide +kernel),
      Page.answers_layout (by decide +kernel), trivial⟩
  refine ⟨few, advancing, rfl,
    listening.afterPages (.standard 1 (.genesis 3 200)) .pending 7 [0, 3, 5], ?_, rfl, rfl⟩
  exact (nextValidators_eq_ok_iff _ .pending 7 listening _ _).mpr
    ⟨[opening, closing], vacant, Page.rows, few, answered, advancing, rfl,
      fun _ _ _ _ => Page.getElem?_rows_eq_some_iff, ⟨rfl, rfl, rfl, rfl⟩, rfl⟩

end Trial

end Query

end StakedChain.Staking
