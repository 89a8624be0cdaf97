import StakedChain.Digest.Keccak
import StakedChain.Abi.Writing
import StakedChain.Abi.Reading

namespace StakedChain.Abi

def signature (name : String) (inputs : List Ty) : String :=
  String.ofList (name.toList ++ '(' :: (Ty.joined inputs ++ [')']))

def signatureHash (name : String) (inputs : List Ty) : Hash :=
  keccak (signature name inputs).toUTF8.toList

structure Method where
  name : String
  inputs : List Ty
  outputs : List Ty
  deriving Repr

structure Event where
  name : String
  inputs : List Ty
  deriving Repr

inductive InputError where
  | selector (expected : Octets 4) (found : Bytes)
  | arguments (e : DecodeError)
  deriving DecidableEq, Repr

def InputError.message : InputError → String
  | .selector expected found =>
    "invalid selector: expected " ++ Bytes.listing expected.bytes ++ ", found "
      ++ Bytes.listing found
  | .arguments e => e.message

namespace Method

def signature (m : Method) : String :=
  Abi.signature m.name m.inputs

def selector (m : Method) : Octets 4 :=
  (signatureHash m.name m.inputs).front 4 (by decide)

def encodeCall (m : Method) (args : List Value) : Except EncodeError Bytes :=
  Abi.encodeCall m.selector m.inputs args

def decodeInput (m : Method) (data : Bytes) : Except InputError (List Value) :=
  if data.take 4 = m.selector.bytes then (decode m.inputs (data.drop 4)).mapError .arguments
  else .error (.selector m.selector (data.take 4))

def decodeOutput (m : Method) (data : Bytes) : Except DecodeError (List Value) :=
  decode m.outputs data

end Method

namespace Event

def signature (e : Event) : String :=
  Abi.signature e.name e.inputs

def topic (e : Event) : Hash :=
  signatureHash e.name e.inputs

end Event

end StakedChain.Abi
