import StakedChain.Block.Transaction
import StakedChain.Staking.Contracts
import StakedChain.Staking.Environment

namespace StakedChain.Staking

structure Config where
  chainId : Word64
  environment : Address
  stakeManager : Address
  allowlist : Address
  pageSize : Word64
  maxPages : Word64
  gasLimit : Word64
  initialEnvironment : Environment
  deriving DecidableEq, Repr

namespace Config

def standard (chainId : Word64) (initialEnvironment : Environment) : Config where
  chainId := chainId
  environment := Contracts.environment
  stakeManager := Contracts.stakeManager
  allowlist := Contracts.allowlist
  pageSize := 100
  maxPages := 10000
  gasLimit := 9223372036854775807
  initialEnvironment := initialEnvironment

def fault? (cfg : Config) : Option Fault :=
  if ¬cfg.chainId ≤ Block.maxChainId then some .chainIdRange
  else if cfg.pageSize = 0 then some .zeroPageSize
  else if cfg.maxPages = 0 then some .zeroMaxPages
  else if cfg.gasLimit = 0 then some .zeroGasLimit
  else if cfg.environment = cfg.stakeManager then some .sharedAddress
  else if cfg.initialEnvironment.blockPeriod = 0 then some .zeroBlockPeriod
  else if cfg.initialEnvironment.epochPeriod = 0 then some .zeroEpochPeriod
  else none

def Valid (cfg : Config) : Prop :=
  cfg.fault? = none

instance (cfg : Config) : Decidable cfg.Valid :=
  inferInstanceAs (Decidable (cfg.fault? = none))

def check (cfg : Config) : Except Fault Unit :=
  match cfg.fault? with
  | some fault => .error fault
  | none => .ok ()

theorem valid_iff (cfg : Config) : cfg.Valid ↔
    cfg.chainId ≤ Block.maxChainId ∧ cfg.pageSize ≠ 0 ∧ cfg.maxPages ≠ 0 ∧ cfg.gasLimit ≠ 0 ∧
      cfg.environment ≠ cfg.stakeManager ∧ cfg.initialEnvironment.blockPeriod ≠ 0 ∧
      cfg.initialEnvironment.epochPeriod ≠ 0 := by
  by_cases h : cfg.chainId ≤ Block.maxChainId
  · simp only [Valid, fault?, h, not_true, if_false]
    repeat' split
    all_goals simp_all
  · simp only [Valid, fault?, h, not_false_iff, if_true, false_and, reduceCtorEq]

end Config

end StakedChain.Staking
