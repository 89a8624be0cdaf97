import StakedChain.Octets
import StakedChain.Word

namespace StakedChain.Staking

structure Candidate where
  owner : Address
  operator : Address
  stake : Word256
  candidate : Bool
  deriving DecidableEq, Repr

structure Roster where
  owners : List Address
  operators : List Address
  stakes : List Word256
  deriving DecidableEq, Repr

namespace Roster

def empty : Roster :=
  ⟨[], [], []⟩

def length (roster : Roster) : Nat :=
  roster.owners.length

def isEmpty (roster : Roster) : Bool :=
  roster.owners.isEmpty

def push (roster : Roster) (row : Candidate) : Roster :=
  ⟨roster.owners ++ [row.owner], roster.operators ++ [row.operator], roster.stakes ++ [row.stake]⟩

def rowsOf : List Address → List Address → List Word256 → List Candidate
  | owner :: owners, operator :: operators, stake :: stakes =>
    ⟨owner, operator, stake, true⟩ :: rowsOf owners operators stakes
  | _, _, _ => []

def rows (roster : Roster) : List Candidate :=
  rowsOf roster.owners roster.operators roster.stakes

def extend (roster : Roster) (found : List Candidate) : Roster :=
  (found.filter (·.candidate)).foldl push roster

def Even (roster : Roster) : Prop :=
  roster.operators.length = roster.owners.length ∧ roster.stakes.length = roster.owners.length

theorem even_empty : empty.Even := ⟨rfl, rfl⟩

theorem even_push {roster : Roster} (h : roster.Even) (row : Candidate) :
    (roster.push row).Even := by
  obtain ⟨ho, hs⟩ := h
  exact ⟨by simp [push, ho], by simp [push, hs]⟩

theorem rowsOf_append : ∀ (owners operators : List Address) (stakes : List Word256)
    (owner operator : Address) (stake : Word256),
    operators.length = owners.length → stakes.length = owners.length →
    rowsOf (owners ++ [owner]) (operators ++ [operator]) (stakes ++ [stake]) =
      rowsOf owners operators stakes ++ [⟨owner, operator, stake, true⟩]
  | [], [], [], _, _, _, _, _ => rfl
  | a :: owners, b :: operators, c :: stakes, owner, operator, stake, ho, hs => by
    simp only [List.length_cons, Nat.add_right_cancel_iff] at ho hs
    simp [rowsOf, rowsOf_append owners operators stakes owner operator stake ho hs]

theorem rows_push {roster : Roster} (h : roster.Even) (row : Candidate) :
    (roster.push row).rows = roster.rows ++ [{ row with candidate := true }] :=
  rowsOf_append _ _ _ _ _ _ h.1 h.2

theorem rows_extend {roster : Roster} (h : roster.Even) (found : List Candidate) :
    (roster.extend found).Even ∧
      (roster.extend found).rows = roster.rows ++ found.filter (·.candidate) := by
  induction found generalizing roster with
  | nil => exact ⟨h, by simp [extend]⟩
  | cons row found ih =>
    by_cases hc : row.candidate = true
    · have hrow : ({ row with candidate := true } : Candidate) = row := by rw [← hc]
      obtain ⟨he, hr⟩ := ih (even_push h row)
      rw [rows_push h, hrow] at hr
      simp only [extend] at he hr ⊢
      simp only [List.filter_cons, hc, if_true, List.foldl_cons]
      exact ⟨he, by rw [hr, List.append_assoc, List.singleton_append]⟩
    · simpa [extend, List.filter_cons, hc] using ih h

end Roster

end StakedChain.Staking
