import StakedChain.Failure
import StakedChain.Block.Rlp

namespace StakedChain.Block

structure Body where
  nonce : Word64
  gasPrice : Word128
  gas : Word64
  target : Address
  value : Word256
  data : Bytes
  deriving DecidableEq, Repr

structure Transaction where
  body : Body
  v : Word64
  r : Word256
  s : Word256
  deriving DecidableEq, Repr

/-- The largest chain id whose values of `v` are below `2 ^ 64`. -/
def maxChainId : Word64 := 9223372036854775789

namespace Body

def items (body : Body) : List Rlp.Item :=
  [.ofNat body.nonce.toNat, .ofNat body.gasPrice.toNat, .ofNat body.gas.toNat,
   .octets body.target.bytes, .ofNat body.value.toNat, .octets body.data]

/-- The chain id and two zeros stand where a signature will be. -/
def signingBytes (body : Body) (chainId : Word64) : Bytes :=
  Rlp.encode (.list (body.items ++ [.ofNat chainId.toNat, .ofNat 0, .ofNat 0]))

def signingHash (body : Body) (chainId : Word64) : Hash :=
  keccak (body.signingBytes chainId)

def attach (body : Body) (sig : Signature) (chainId : Word64) : Except Fault Transaction :=
  if chainId ≤ maxChainId then
    .ok ⟨body, chainId * 2 + 35 + (if sig.odd then 1 else 0), sig.r, sig.s⟩
  else .error .chainIdRange

end Body

namespace Transaction

def bytes (tx : Transaction) : Bytes :=
  Rlp.encode (.list (tx.body.items ++ [.ofNat tx.v.toNat, .ofNat tx.r.toNat, .ofNat tx.s.toNat]))

def hash (tx : Transaction) : Hash :=
  keccak tx.bytes

def evenV? (chainId : Word64) : Option Word64 := do
  Word.add? (← Word.mul? chainId 2) 35

def parity? (tx : Transaction) (chainId : Word64) : Option Bool := do
  let rest ← Word.sub? tx.v (← evenV? chainId)
  if rest = 0 then some false else if rest = 1 then some true else none

def sender (tx : Transaction) (chainId : Word64) : Except SignatureError Address :=
  match tx.parity? chainId with
  | some odd => Signature.recover (tx.body.signingHash chainId) ⟨tx.r, tx.s, odd⟩
  | none => .error .invalidSignature

end Transaction

end StakedChain.Block
