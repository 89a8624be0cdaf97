import StakedChain.Block.Assembly
import StakedChain.Staking.Contracts

namespace StakedChain.State

open Abi Block Staking

structure Ledger where
  environment : Address
  stakeManager : Address
  nonces : Address → Word64
  storage : Address → Word64 → Word256
  frozen : Bool

namespace Ledger

def empty (environment stakeManager : Address) : Ledger :=
  ⟨environment, stakeManager, fun _ => 0, fun _ _ => 0, false⟩

def setNonce (ledger : Ledger) (account : Address) (nonce : Word64) : Ledger :=
  { ledger with nonces := fun a => if a = account then nonce else ledger.nonces a }

def store (ledger : Ledger) (account : Address) (slot : Word64) (value : Word256) : Ledger :=
  { ledger with
    storage := fun a s => if a = account ∧ s = slot then value else ledger.storage a s }

@[simp] theorem storage_setNonce (ledger : Ledger) (account : Address) (nonce : Word64) :
    (ledger.setNonce account nonce).storage = ledger.storage := rfl

@[simp] theorem nonces_store (ledger : Ledger) (account : Address) (slot : Word64)
    (value : Word256) : (ledger.store account slot value).nonces = ledger.nonces := rfl

theorem nonces_setNonce (ledger : Ledger) (account a : Address) (nonce : Word64) :
    (ledger.setNonce account nonce).nonces a = if a = account then nonce else ledger.nonces a :=
  rfl

theorem storage_store (ledger : Ledger) (account a : Address) (slot s : Word64)
    (value : Word256) : (ledger.store account slot value).storage a s =
      if a = account ∧ s = slot then value else ledger.storage a s := rfl

def freeze (ledger : Ledger) : Ledger :=
  { ledger with frozen := true }

inductive Rejection where
  | nonceMismatch (expected found : Word64)
  | intrinsicGas (available wanted : Nat)
  deriving DecidableEq, Repr

def Rejection.message : Rejection → String
  | .nonceMismatch expected found =>
    "nonce mismatch: expected=" ++ Word.decimal expected ++ ", found=" ++ Word.decimal found
  | .intrinsicGas available wanted =>
    s!"intrinsic gas too low: have={available}, want={wanted}"

inductive Revert where
  | missingSelector
  | invalidArguments
  | alreadyInitialized
  | unknownMethod
  | outOfGas
  deriving DecidableEq, Repr

def Revert.message : Revert → String
  | .missingSelector => "missing selector"
  | .invalidArguments => "invalid arguments"
  | .alreadyInitialized => "already initialized"
  | .unknownMethod => "unknown method"
  | .outOfGas => "out of gas"

structure Effect where
  slot : Word64
  value : Word256
  event : Event

def readySlot : Word64 := 0

def slashSlot : Word64 := 1

def dataGas : Bytes → Nat
  | [] => 0
  | b :: data => (if b = 0 then 4 else 16) + dataGas data

def intrinsicGas (data : Bytes) : Nat :=
  21000 + dataGas data

def callGas (data : Bytes) : Nat :=
  intrinsicGas data + 20000 + 750

def setup (ledger : Ledger) (target : Address) (event : Event) : Except Revert Effect :=
  if ledger.storage target readySlot = 0 then .ok ⟨readySlot, 1, event⟩
  else .error .alreadyInitialized

def dispatch (ledger : Ledger) (target : Address) (data : Bytes) : Except Revert Effect :=
  if data.length < 4 then .error .missingSelector
  else
    let selector := data.take 4
    if target = ledger.environment ∧ selector = Contracts.environmentSetup.selector.bytes then
      match Contracts.environmentSetup.decodeInput data with
      | .ok _ => ledger.setup target Contracts.environmentReady
      | .error _ => .error .invalidArguments
    else if target = ledger.stakeManager ∧ selector = Contracts.managerSetup.selector.bytes then
      match Contracts.managerSetup.decodeInput data with
      | .ok _ => ledger.setup target Contracts.managerReady
      | .error _ => .error .invalidArguments
    else if target = ledger.stakeManager ∧ selector = Contracts.slash.selector.bytes then
      match Contracts.slash.decodeInput data with
      | .ok _ => .ok ⟨slashSlot, 2, Contracts.slashed⟩
      | .error _ => .error .invalidArguments
    else .error .unknownMethod

/-- Writes the slot, then advances the nonce; at the last nonce the slot is already written. -/
def commit (ledger : Ledger) (sender target : Address) (effect : Effect) :
    Except Fault Unit × Ledger :=
  let written := ledger.store target effect.slot effect.value
  if ledger.frozen then (.ok (), written)
  else
    match Word.add? (ledger.nonces sender) 1 with
    | some nonce => (.ok (), written.setNonce sender nonce)
    | none => (.error .addition, written)

def execute (ledger : Ledger) (tx : Transaction) (sender : Address) :
    Except (Stop ExecutionError) Outcome × Ledger :=
  let body := tx.body
  let reject (r : Rejection) := (.error (.failed (.rejected r.message)), ledger)
  let revert (r : Revert) := (.error (.failed (.reverted body.target r.message)), ledger)
  if body.nonce ≠ ledger.nonces sender then
    reject (.nonceMismatch (ledger.nonces sender) body.nonce)
  else if body.gas.toNat < intrinsicGas body.data then
    reject (.intrinsicGas body.gas.toNat (intrinsicGas body.data))
  else
    match ledger.dispatch body.target body.data with
    | .error r => revert r
    | .ok effect =>
      if body.gas.toNat < callGas body.data then revert .outOfGas
      else
        match ledger.commit sender body.target effect with
        | (.ok (), next) =>
          (.ok ⟨BitVec.ofNat 64 (callGas body.data), [⟨body.target, [effect.event.topic], []⟩]⟩, next)
        | (.error fault, next) => (.error (.fault fault), next)

def machine : Machine Ledger where
  nonce account ledger := (ledger.nonces account, ledger)
  execute tx sender _ _ ledger := ledger.execute tx sender

end Ledger

end StakedChain.State
