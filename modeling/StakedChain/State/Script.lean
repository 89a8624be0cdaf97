import StakedChain.Block.Assembly

namespace StakedChain.State

open Block

inductive Answer where
  | plain
  | fails (e : ExecutionError)
  | gives (outcome : Outcome)
  | alters (gasUsed : Option Word64) (logs : Option (List Log))
  deriving DecidableEq, Repr

/-- Answers that stand before those of a machine, as long as they last. -/
structure Script where
  nonces : List Word64
  answers : List Answer
  deriving DecidableEq, Repr

namespace Script

def empty : Script :=
  ⟨[], []⟩

def alter (gasUsed : Option Word64) (logs : Option (List Log)) (outcome : Outcome) : Outcome :=
  ⟨gasUsed.getD outcome.gasUsed, logs.getD outcome.logs⟩

variable {σ : Type}

def nonce (m : Machine σ) (account : Address) : Script × σ → Word64 × (Script × σ)
  | (⟨n :: rest, answers⟩, s) => (n, (⟨rest, answers⟩, s))
  | (⟨[], answers⟩, s) =>
    let (n, s) := m.nonce account s
    (n, (⟨[], answers⟩, s))

def execute (m : Machine σ) (tx : Transaction) (sender : Address) (header : Header)
    (history : History) : Script × σ → Except (Stop ExecutionError) Outcome × (Script × σ)
  | (script, s) =>
    let rest := { script with answers := script.answers.tail }
    match script.answers.headD .plain with
    | .plain =>
      let (result, s) := m.execute tx sender header history s
      (result, (rest, s))
    | .fails e => (.error (.failed e), (rest, s))
    | .gives outcome => (.ok outcome, (rest, s))
    | .alters gasUsed logs =>
      let (result, s) := m.execute tx sender header history s
      (result.map (alter gasUsed logs), (rest, s))

def machine (m : Machine σ) : Machine (Script × σ) where
  nonce := nonce m
  execute := execute m

end Script

end StakedChain.State
