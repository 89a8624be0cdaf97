import StakedChain.Issue.SystemCall

namespace StakedChain.Issue

open Abi Block Staking State

inductive Operation where
  | bootstrap
  | slash (validator : Address) (schedule : List (Word64 × Address))
  deriving DecidableEq, Repr

def missed (validator : Address) (schedule : List (Word64 × Address)) : Nat :=
  (schedule.filter fun turn => turn.2 = validator).length

namespace Operation

def calls (cfg : Config) : Operation → List SystemCall
  | .bootstrap =>
    [⟨cfg.environment, Contracts.environmentSetup, [cfg.initialEnvironment.toValue],
      Contracts.environmentReady⟩,
     ⟨cfg.stakeManager, Contracts.managerSetup, [.address cfg.environment, .address cfg.allowlist],
      Contracts.managerReady⟩]
  | .slash validator schedule =>
    [⟨cfg.stakeManager, Contracts.slash,
      [.address validator, .uint (BitVec.ofNat 256 (missed validator schedule))],
      Contracts.slashed⟩]

def run {σ : Type} (m : Machine σ) (cfg : Config) (role : Role) (header : Header)
    (history : History) (op : Operation) (site : Site σ) : Except (Stop Failure) Unit × Site σ :=
  SystemCall.runAll m cfg role header history (op.calls cfg) site

end Operation

def isSystem (cfg : Config) (header : Header) (tx : Transaction) : Bool :=
  (tx.body.target = cfg.environment || tx.body.target = cfg.stakeManager)
    && tx.body.gasPrice = 0 && tx.body.value = 0
    && (match tx.sender cfg.chainId with
      | .ok sender => sender = header.coinbase
      | .error _ => false)

def split (cfg : Config) (header : Header) (txs : List Transaction) :
    List Transaction × List Transaction :=
  txs.partition fun tx => !isSystem cfg header tx

theorem split_eq (cfg : Config) (header : Header) (txs : List Transaction) :
    split cfg header txs =
      (txs.filter fun tx => !isSystem cfg header tx, txs.filter (isSystem cfg header)) := by
  simp [split, List.partition_eq_filter_filter, Function.comp_def]

end StakedChain.Issue
