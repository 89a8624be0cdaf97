import StakedChain.Abi.Value

namespace StakedChain.Staking

open Abi

/-- The parameters of the chain from `startBlock` on, in the order of the contract. -/
structure Environment where
  startBlock : Word256
  startEpoch : Word256
  blockPeriod : Word256
  epochPeriod : Word256
  rewardRate : Word256
  commissionRate : Word256
  validatorThreshold : Word256
  jailThreshold : Word256
  jailPeriod : Word256
  deriving DecidableEq, Repr

namespace Environment

def genesis (blockPeriod epochPeriod : Word64) : Environment where
  startBlock := 0
  startEpoch := 1
  blockPeriod := Word.widen 256 blockPeriod
  epochPeriod := Word.widen 256 epochPeriod
  rewardRate := 10
  commissionRate := 10
  validatorThreshold := 10000000000000000000000000
  jailThreshold := 500
  jailPeriod := 2

def fields (e : Environment) : List Word256 :=
  [e.startBlock, e.startEpoch, e.blockPeriod, e.epochPeriod, e.rewardRate, e.commissionRate,
   e.validatorThreshold, e.jailThreshold, e.jailPeriod]

def toValue (e : Environment) : Value :=
  .tuple (e.fields.map Value.uint)

def ofItems : List Value → Except ConversionError Environment
  | [a, b, c, d, e, f, g, h, i] => do
    return ⟨← a.toAtom .uint, ← b.toAtom .uint, ← c.toAtom .uint, ← d.toAtom .uint,
      ← e.toAtom .uint, ← f.toAtom .uint, ← g.toAtom .uint, ← h.toAtom .uint, ← i.toAtom .uint⟩
  | items => .error (.fieldCount 9 items.length)

def ofValue (v : Value) : Except ConversionError Environment := do
  ofItems (← v.toTuple)

theorem ofValue_toValue (e : Environment) : ofValue e.toValue = .ok e := by
  simp only [ofValue, toValue, Value.toTuple_tuple, fields, List.map_cons, List.map_nil]
  simp only [bind, Except.bind, pure, Except.pure, ofItems, Value.uint, Value.toAtom_atom]

def elapsed? (e : Environment) (number : Word64) : Option Word256 :=
  Word.sub? (Word.widen 256 number) e.startBlock

def epoch? (e : Environment) (number : Word64) : Option Word64 := do
  let epochs ← Word.div? (← e.elapsed? number) e.epochPeriod
  Word.narrow? 64 (← Word.add? e.startEpoch epochs)

def startsEpoch (e : Environment) (number : Word64) : Bool :=
  match (do Word.rem? (← e.elapsed? number) e.epochPeriod) with
  | some rest => rest = 0
  | none => false

def epochStart? (e : Environment) (epoch : Word64) : Option Word64 := do
  let epochs ← Word.sub? (Word.widen 256 epoch) e.startEpoch
  Word.narrow? 64 (← Word.add? e.startBlock (← Word.mul? epochs e.epochPeriod))

end Environment

end StakedChain.Staking
