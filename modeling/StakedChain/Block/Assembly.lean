import StakedChain.Failure
import StakedChain.Block.Transaction
import StakedChain.Block.Header
import StakedChain.Block.Log

namespace StakedChain.Block

structure Receipt where
  status : Bool
  cumulativeGas : Word64
  transactionHash : Hash
  transactionIndex : Nat
  gasUsed : Word64
  logs : List Log
  bloom : Bloom
  blockHash : Hash
  blockNumber : Word64
  deriving DecidableEq, Repr

structure Assembly where
  transactions : List Transaction
  receipts : List Receipt
  gasUsed : Word64
  deriving DecidableEq, Repr

namespace Assembly

def empty (gasUsed : Word64) : Assembly :=
  ⟨[], [], gasUsed⟩

def receipt (assembly : Assembly) (tx : Transaction) (outcome : Outcome) (header : Header)
    (cumulative : Word64) : Receipt where
  status := true
  cumulativeGas := cumulative
  transactionHash := tx.hash
  transactionIndex := assembly.transactions.length
  gasUsed := outcome.gasUsed
  logs := outcome.logs
  bloom := .ofLogs outcome.logs
  blockHash := header.hash
  blockNumber := header.number

/-- Appends and answers with the receipt; without room for the gas the assembly stays as it is. -/
def push (assembly : Assembly) (tx : Transaction) (outcome : Outcome) (header : Header) :
    Except ExecutionError Receipt × Assembly :=
  match Word.add? assembly.gasUsed outcome.gasUsed with
  | none => (.error .gasOverflow, assembly)
  | some cumulative =>
    let receipt := assembly.receipt tx outcome header cumulative
    (.ok receipt,
      ⟨assembly.transactions ++ [tx], assembly.receipts ++ [receipt], cumulative⟩)

def push? (assembly : Assembly) (tx : Transaction) (outcome : Outcome) (header : Header) :
    Option Assembly :=
  match assembly.push tx outcome header with
  | (.ok _, next) => some next
  | (.error _, _) => none

theorem push?_eq_some_iff {assembly next : Assembly} {tx : Transaction} {outcome : Outcome}
    {header : Header} :
    assembly.push? tx outcome header = some next ↔
      ∃ cumulative : Word64, cumulative.toNat = assembly.gasUsed.toNat + outcome.gasUsed.toNat ∧
        ⟨assembly.transactions ++ [tx],
          assembly.receipts ++ [assembly.receipt tx outcome header cumulative], cumulative⟩
          = next := by
  simp only [← Word.add?_eq_some_iff, push?, push]
  cases Word.add? assembly.gasUsed outcome.gasUsed with
  | none => simp only [reduceCtorEq, false_and, exists_false]
  | some cumulative => simp only [Option.some.injEq, exists_eq_left']

end Assembly

end StakedChain.Block

namespace StakedChain.State

open Block

/-- Accounts that transactions act on. A reading of a nonce may itself change the state. -/
structure Machine (σ : Type) where
  nonce : Address → σ → Word64 × σ
  execute : Transaction → Address → Header → History → σ →
    Except (Stop ExecutionError) Outcome × σ

end StakedChain.State
