import StakedChain.Abi.Method

namespace StakedChain.Staking.Contracts

open Abi

def environment : Address := .ofNat 20 0x1000

def stakeManager : Address := .ofNat 20 0x1001

def allowlist : Address := .ofNat 20 0x1002

def environmentTy : Ty := .tuple (List.replicate 9 (.atom .uint))

def environmentSetup : Method := ⟨"initialize", [environmentTy], []⟩

def nextEnvironment : Method := ⟨"nextValue", [], [environmentTy]⟩

def managerSetup : Method := ⟨"initialize", [.atom .address, .atom .address], []⟩

def slash : Method := ⟨"slash", [.atom .address, .atom .uint], []⟩

/-- Owners, operators, stakes, candidate flags and the next cursor of one page. -/
def validators : Method :=
  ⟨"getValidators", [.atom .uint, .atom .uint, .atom .uint],
   [.array .address, .array .address, .array .uint, .array .bool, .atom .uint]⟩

def validatorOwners : Method :=
  ⟨"getValidatorOwners", [.atom .uint, .atom .uint], [.array .address, .atom .uint]⟩

def totalRewards : Method :=
  ⟨"getTotalRewards", [.array .address, .atom .uint], [.atom .uint]⟩

def environmentReady : Event := ⟨"Initialized", []⟩

def managerReady : Event := ⟨"Initialized", []⟩

def slashed : Event := ⟨"Slashed", []⟩

end StakedChain.Staking.Contracts
