import StakedChain.Word

namespace StakedChain

/-- Counts by label; a label is there once it has been counted. -/
abbrev Counters := List (String × Nat)

namespace Counters

def increment (label : String) : Counters → Counters
  | [] => [(label, 1)]
  | (name, n) :: rest =>
    if name = label then (name, n + 1) :: rest else (name, n) :: increment label rest

def count (label : String) : Counters → Nat
  | [] => 0
  | (name, n) :: rest => if name = label then n else count label rest

theorem count_increment_self (label : String) (c : Counters) :
    count label (increment label c) = count label c + 1 := by
  induction c with
  | nil => simp [increment, count]
  | cons entry rest ih =>
    by_cases h : entry.1 = label <;> simp [increment, count, h, ih]

theorem count_increment_other {label other : String} (h : other ≠ label) (c : Counters) :
    count other (increment label c) = count other c := by
  induction c with
  | nil => simp [increment, count, Ne.symm h]
  | cons entry rest ih =>
    by_cases he : entry.1 = label
    · simp [increment, count, he, Ne.symm h]
    · by_cases ho : entry.1 = other <;> simp [increment, count, he, ho, h, ih]

theorem count_increment (label other : String) (c : Counters) :
    count other (increment label c) = count other c + if other = label then 1 else 0 := by
  by_cases h : other = label
  · rw [h, count_increment_self, if_pos rfl]
  · rw [count_increment_other h, if_neg h, Nat.add_zero]

def lines (series : String) (c : Counters) : List String :=
  c.map fun (name, n) => series ++ "\x7bmethod=\"" ++ name ++ s!"\"\x7d {n}"

end Counters

structure QueryMetrics where
  calls : Counters
  pages : Nat
  deriving DecidableEq, Repr

namespace QueryMetrics

def empty : QueryMetrics :=
  ⟨[], 0⟩

def lines (m : QueryMetrics) : List String :=
  (s!"validator_pages_total {m.pages}" :: m.calls.lines "contract_calls_total").mergeSort
    fun a b => decide (a ≤ b)

end QueryMetrics

/-- The sum of gas starts again at `2 ^ 64`. -/
structure IssueMetrics where
  transactions : Counters
  gas : Word64
  deriving DecidableEq, Repr

namespace IssueMetrics

def empty : IssueMetrics :=
  ⟨[], 0⟩

def lines (m : IssueMetrics) : List String :=
  (("system_gas_total " ++ Word.decimal m.gas)
    :: m.transactions.lines "system_transactions_total").mergeSort fun a b => decide (a ≤ b)

end IssueMetrics

end StakedChain
