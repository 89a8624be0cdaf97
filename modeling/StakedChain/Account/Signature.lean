import StakedChain.Word
import StakedChain.Digest.Keccak
import StakedChain.Curve.Point

namespace StakedChain

namespace Address

/-- A letter is upper case where the digest of the lower-case digits has a nibble of at least 8. -/
def checksumDigits (digits : List Char) : List Char :=
  let marks := (keccak (digits.map fun c => UInt8.ofNat c.toNat)).bytes.flatMap
    fun b => [b.toNat / 16, b.toNat % 16]
  digits.zipWith (fun c mark => if 8 ≤ mark then c.toUpper else c) marks

def checksummed (a : Address) : String :=
  String.ofList ('0' :: 'x' :: checksumDigits (Bytes.hexDigits a.bytes))

end Address

open Curve

structure Signature where
  r : Word256
  s : Word256
  odd : Bool
  deriving DecidableEq, Repr

inductive SignatureError where
  | invalidPrivateKey
  | signingFailed
  | invalidSignature
  | recoveryFailed
  deriving DecidableEq, Repr

def SignatureError.message : SignatureError → String
  | .invalidPrivateKey => "invalid private key"
  | .signingFailed => "signing failed"
  | .invalidSignature => "invalid signature"
  | .recoveryFailed => "recovery failed"

def Curve.Point.account (p : Point) : Address :=
  (keccak p.bytes).address

def Curve.Scalar.ofHash (h : Hash) : Scalar :=
  Fin.ofNat groupOrder h.value

namespace Signature

/-- Of the two values of `s` that verify, only the lower one is in use. -/
def Canonical (sig : Signature) : Prop :=
  0 < sig.r.toNat ∧ sig.r.toNat < groupOrder ∧
    0 < sig.s.toNat ∧ sig.s.toNat ≤ groupOrder / 2

instance (sig : Signature) : Decidable sig.Canonical :=
  inferInstanceAs (Decidable (_ ∧ _ ∧ _ ∧ _))

/-- Signs with secret key `d` and ephemeral key `k`. -/
def make? (d k z : Scalar) : Option Signature :=
  let (x, y) := (Point.base.times k).affine
  let r : Scalar := Fin.ofNat groupOrder x.val
  let s := inverse k * (z + r * d)
  let odd := y.val % 2 == 1
  if r = 0 ∨ s = 0 then none
  else if groupOrder / 2 < s.val then
    some ⟨BitVec.ofNat 256 r.val, BitVec.ofNat 256 (-s).val, !odd⟩
  else
    some ⟨BitVec.ofNat 256 r.val, BitVec.ofNat 256 s.val, odd⟩

def publicKey? (sig : Signature) (z : Scalar) : Option Point := do
  let point ← Point.lift? (Fin.ofNat fieldOrder sig.r.toNat) sig.odd
  let r : Scalar := Fin.ofNat groupOrder sig.r.toNat
  let s : Scalar := Fin.ofNat groupOrder sig.s.toNat
  let i := inverse r
  let key := (Point.base.times (-(z * i))).add (point.times (s * i))
  if key.z = 0 then none else some key

def recover (digest : Hash) (sig : Signature) : Except SignatureError Address :=
  if sig.Canonical then
    match sig.publicKey? (Scalar.ofHash digest) with
    | some key => .ok key.account
    | none => .error .recoveryFailed
  else .error .invalidSignature

theorem canonical_of_recover {digest : Hash} {sig : Signature} {a : Address}
    (h : sig.recover digest = .ok a) : sig.Canonical := by
  unfold recover at h
  split at h
  · assumption
  · cases h

end Signature

end StakedChain
