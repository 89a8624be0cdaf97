import StakedChain.Failure
import StakedChain.Metrics
import StakedChain.Staking.Config
import StakedChain.Staking.Roster

namespace StakedChain.Staking.Query

open Abi

structure Session (σ : Type) where
  caller : σ
  metrics : QueryMetrics

namespace Session

variable {σ : Type}

def countPage (s : Session σ) : Session σ :=
  { s with metrics.pages := s.metrics.pages + 1 }

end Session

abbrev Reader (α : Type) := List Value → Except ConversionError α

variable {σ α : Type}

/-- One call of a method; it counts as soon as it is made, whatever comes back. -/
def ask (caller : Caller σ) (target : Address) (method : Method) (args : List Value)
    (block : BlockRef) (read : Reader α) (s : Session σ) : Except Failure α × Session σ :=
  match method.encodeCall args with
  | .error e => (.error (.encoding e), s)
  | .ok data =>
    let (response, rest) := caller ⟨none, target, data⟩ block s.caller
    let s := ⟨rest, { s.metrics with calls := s.metrics.calls.increment method.name }⟩
    match response with
    | .error e => (.error (.call e), s)
    | .ok output =>
      match method.decodeOutput output with
      | .error e => (.error (.decoding e), s)
      | .ok vs =>
        match read vs with
        | .error e => (.error (.conversion e), s)
        | .ok x => (.ok x, s)

def next {β : Type} (convert : Value → Except ConversionError β) (vs : List Value) :
    Except ConversionError (β × List Value) :=
  match take convert vs with
  | (.ok x, rest) => .ok (x, rest)
  | (.error e, _) => .error e

structure Page where
  owners : List Address
  operators : List Address
  stakes : List Word256
  candidates : List Bool
  cursor : Word256
  deriving DecidableEq, Repr

namespace Page

def read : Reader Page := fun vs => do
  let (owners, vs) ← next (Value.toArray .address) vs
  let (operators, vs) ← next (Value.toArray .address) vs
  let (stakes, vs) ← next (Value.toArray .uint) vs
  let (candidates, vs) ← next (Value.toArray .bool) vs
  let (cursor, _) ← next (Value.toAtom .uint) vs
  return ⟨owners, operators, stakes, candidates, cursor⟩

def Even (page : Page) : Prop :=
  page.operators.length = page.owners.length ∧ page.stakes.length = page.owners.length ∧
    page.candidates.length = page.owners.length

instance (page : Page) : Decidable page.Even :=
  inferInstanceAs (Decidable (_ ∧ _ ∧ _))

def shapeError (page : Page) : ProtocolError :=
  .pageShape page.owners.length page.operators.length page.stakes.length page.candidates.length

def rowsOf : List Address → List Address → List Word256 → List Bool → List Candidate
  | owner :: owners, operator :: operators, stake :: stakes, candidate :: candidates =>
    ⟨owner, operator, stake, candidate⟩ :: rowsOf owners operators stakes candidates
  | _, _, _, _ => []

def rows (page : Page) : List Candidate :=
  rowsOf page.owners page.operators page.stakes page.candidates

end Page

def askPage (caller : Caller σ) (cfg : Config) (block : BlockRef) (epoch : Word64)
    (cursor : Word256) : Session σ → Except Failure Page × Session σ :=
  ask caller cfg.stakeManager Contracts.validators
    [.uint (Word.widen 256 epoch), .uint cursor, .uint (Word.widen 256 cfg.pageSize)] block Page.read

/-- Reads pages until one is empty; the first argument bounds their number. A page has to be in
shape, and the cursor has to move on. -/
def enumerate (caller : Caller σ) (cfg : Config) (block : BlockRef) (epoch : Word64) :
    Nat → Word256 → Roster → Session σ → Except Failure Roster × Session σ
  | 0, _, _, s => (.error (.protocol (.pageLimit cfg.maxPages)), s)
  | pages + 1, cursor, roster, s =>
    match askPage caller cfg block epoch cursor s with
    | (.error e, s) => (.error e, s)
    | (.ok page, s) =>
      if page.owners = [] then (.ok roster, s.countPage)
      else if ¬page.Even then (.error (.protocol page.shapeError), s.countPage)
      else if page.cursor ≤ cursor then
        (.error (.protocol (.stalledCursor cursor page.cursor)), s.countPage)
      else
        enumerate caller cfg block epoch pages page.cursor (roster.extend page.rows) s.countPage

def nextValidators (caller : Caller σ) (cfg : Config) (block : BlockRef) (epoch : Word64)
    (s : Session σ) : Except Failure Roster × Session σ :=
  enumerate caller cfg block epoch cfg.maxPages.toNat 0 .empty s

def readOwners : Reader (List Address) := fun vs => do
  let (owners, vs) ← next (Value.toArray .address) vs
  let _ ← next (Value.toAtom .uint) vs
  return owners

def readRewards : Reader Word256 := fun vs => do
  return (← next (Value.toAtom .uint) vs).1

def rewards (caller : Caller σ) (cfg : Config) (block : BlockRef) (s : Session σ) :
    Except Failure Word256 × Session σ :=
  match ask caller cfg.stakeManager Contracts.validatorOwners
      [.uint 0, .uint (Word.widen 256 cfg.pageSize)] block readOwners s with
  | (.error e, s) => (.error e, s)
  | (.ok owners, s) =>
    ask caller cfg.stakeManager Contracts.totalRewards [.array .address owners, .uint 1] block
      readRewards s

def readEnvironment : Reader Environment := fun vs => do
  return (← next Environment.ofValue vs).1

def nextEnvironment (caller : Caller σ) (cfg : Config) (block : BlockRef) (s : Session σ) :
    Except Failure Environment × Session σ :=
  ask caller cfg.environment Contracts.nextEnvironment [] block readEnvironment s

end StakedChain.Staking.Query
