import StakedChain.Account.Signature
import StakedChain.Random.Drbg
import StakedChain.Random.ChaCha

namespace StakedChain

open Curve

structure PrivateKey where
  secret : Scalar
  secret_ne_zero : secret ≠ 0
  deriving DecidableEq, Repr

namespace PrivateKey

def ofBytes (bs : Bytes) : Except SignatureError PrivateKey :=
  if bs.length = 32 then
    if h : 0 < Bytes.value bs ∧ Bytes.value bs < groupOrder then
      .ok ⟨⟨Bytes.value bs, h.2⟩, fun e => Nat.ne_of_gt h.1 (congrArg Fin.val e)⟩
    else .error .invalidPrivateKey
  else .error .invalidPrivateKey

def bytes (key : PrivateKey) : Bytes :=
  Bytes.ofNat 32 key.secret.val

theorem ofBytes_bytes (key : PrivateKey) : ofBytes key.bytes = .ok key := by
  obtain ⟨⟨d, hd⟩, hne⟩ := key
  have hpos : 0 < d := Nat.pos_of_ne_zero fun h => hne (Fin.ext h)
  have hval : Bytes.value (Bytes.ofNat 32 d) = d := by
    rw [Bytes.value_ofNat]
    exact Nat.mod_eq_of_lt (Nat.lt_trans hd (by decide))
  simp [ofBytes, bytes, hval, hpos, hd]

def address (key : PrivateKey) : Address :=
  (Point.base.times key.secret).account

/-- A value is no scalar less than once in `2 ^ 127` draws. -/
def attempts : Nat := 64

/-- The digest enters as it is, also when it is not below the order of the group. -/
def ephemeral? (key : PrivateKey) (digest : Hash) : Option Scalar :=
  ((Random.Drbg.seeded (key.bytes ++ digest.bytes)).draw? groupOrder attempts).map
    (Fin.ofNat groupOrder)

def sign (key : PrivateKey) (digest : Hash) : Except SignatureError Signature :=
  match (key.ephemeral? digest).bind fun k => Signature.make? key.secret k (Scalar.ofHash digest) with
  | some signature => .ok signature
  | none => .error .signingFailed

/-- Names the account and never the secret. -/
def describe (key : PrivateKey) : String :=
  "PrivateKey(" ++ key.address.checksummed ++ ")"

def drawFrom? : Nat → Bytes → Option PrivateKey
  | 0, _ => none
  | chunks + 1, bs =>
    match ofBytes (bs.take 32) with
    | .ok key => some key
    | .error _ => drawFrom? chunks (bs.drop 32)

def draw? (random : Bytes) : Option PrivateKey :=
  drawFrom? (random.length / 32) random

def ofSeed? (seed : Word64) : Option PrivateKey :=
  draw? (Random.ofSeed seed 8)

end PrivateKey

structure Signer where
  address : Address
  sign : Hash → Except SignatureError Signature

def PrivateKey.signer (key : PrivateKey) : Signer :=
  ⟨key.address, key.sign⟩

end StakedChain
