import StakedChain.Account.Signature
import StakedChain.Abi.Writing
import StakedChain.Abi.Reading
import StakedChain.Call.Queue

namespace StakedChain

open Abi

inductive ProtocolError where
  | stalledCursor (current next : Word256)
  | pageLimit (pages : Word64)
  | pageShape (owners operators stakes candidates : Nat)
  deriving DecidableEq, Repr

def ProtocolError.message : ProtocolError → String
  | .stalledCursor current next =>
    "cursor did not advance: current=" ++ Word.decimal current ++ ", next=" ++ Word.decimal next
  | .pageLimit pages => "validator enumeration exceeded " ++ Word.decimal pages ++ " pages"
  | .pageShape owners operators stakes candidates =>
    s!"page columns differ in length: owners={owners}, operators={operators}, stakes={stakes}, "
      ++ s!"candidates={candidates}"

inductive ExecutionError where
  | reverted (target : Address) (reason : String)
  | rejected (reason : String)
  | nonceNotAdvanced (account : Address) (before after : Word64)
  | missingEvent (name : String)
  | noGasUsed
  | logCount (count : Nat)
  | missingTransaction (name : String)
  | unexpectedTransaction (expected found : Hash)
  | invalidSignature (e : SignatureError)
  | invalidSender (expected found : Address)
  | unauthorizedSigner (expected found : Address)
  | signing (e : SignatureError)
  | gasOverflow
  deriving DecidableEq, Repr

def ExecutionError.message : ExecutionError → String
  | .reverted target reason => "call to " ++ target.checksummed ++ " reverted: " ++ reason
  | .rejected reason => "transaction rejected: " ++ reason
  | .nonceNotAdvanced account before after =>
    "nonce of " ++ account.checksummed ++ " moved from " ++ Word.decimal before ++ " to "
      ++ Word.decimal after
  | .missingEvent name => "missing " ++ name ++ " event"
  | .noGasUsed => "system transaction used no gas"
  | .logCount count => s!"system transaction emitted {count} logs, expected exactly one"
  | .missingTransaction name => "block carries no system transaction for " ++ name
  | .unexpectedTransaction expected found =>
    "unexpected system transaction: expected=" ++ expected.hex ++ ", found=" ++ found.hex
  | .invalidSignature e => "invalid signature: " ++ e.message
  | .invalidSender expected found =>
    "invalid sender: expected=" ++ expected.checksummed ++ ", found=" ++ found.checksummed
  | .unauthorizedSigner expected found =>
    "signer " ++ found.checksummed ++ " cannot sign for " ++ expected.checksummed
  | .signing e => "signing failed: " ++ e.message
  | .gasOverflow => "gas overflow"

inductive Failure where
  | encoding (e : EncodeError)
  | decoding (e : DecodeError)
  | conversion (e : ConversionError)
  | call (e : CallError)
  | protocol (e : ProtocolError)
  | execution (e : ExecutionError)
  deriving Repr

def Failure.message : Failure → String
  | .encoding e => "encoding failed: " ++ e.message
  | .decoding e => "decoding failed: " ++ e.message
  | .conversion e => "decoding failed: " ++ e.message
  | .call e => "call failed: " ++ e.message
  | .protocol e => "protocol violation: " ++ e.message
  | .execution e => "execution failed: " ++ e.message

/-- A broken precondition; it ends an operation without an error of its own. -/
inductive Fault where
  | chainIdRange
  | zeroPageSize
  | zeroMaxPages
  | zeroGasLimit
  | sharedAddress
  | zeroBlockPeriod
  | zeroEpochPeriod
  | addition
  deriving DecidableEq, Repr

def Fault.message : Fault → String
  | .chainIdRange => "chain id out of range"
  | .zeroPageSize => "page size must be greater than zero"
  | .zeroMaxPages => "max pages must be greater than zero"
  | .zeroGasLimit => "gas limit must be greater than zero"
  | .sharedAddress => "environment and stake manager must be distinct"
  | .zeroBlockPeriod => "block period must be greater than zero"
  | .zeroEpochPeriod => "epoch period must be greater than zero"
  | .addition => "attempt to add with overflow"

/-- An operation ends early with an error of its own or with a fault. -/
inductive Stop (ε : Type) where
  | failed (e : ε)
  | fault (f : Fault)
  deriving DecidableEq, Repr

def Stop.map {ε δ : Type} (g : ε → δ) : Stop ε → Stop δ
  | .failed e => .failed (g e)
  | .fault f => .fault f

end StakedChain
