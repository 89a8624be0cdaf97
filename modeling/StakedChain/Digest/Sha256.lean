import StakedChain.Octets

namespace StakedChain.Digest.Sha256

def rotate (x n : UInt32) : UInt32 :=
  x >>> n ||| x <<< (32 - n)

structure State where
  a : UInt32
  b : UInt32
  c : UInt32
  d : UInt32
  e : UInt32
  f : UInt32
  g : UInt32
  h : UInt32
  deriving DecidableEq, Repr

def State.add (x y : State) : State :=
  ⟨x.a + y.a, x.b + y.b, x.c + y.c, x.d + y.d, x.e + y.e, x.f + y.f, x.g + y.g, x.h + y.h⟩

def start : State :=
  ⟨0x6a09e667, 0xbb67ae85, 0x3c6ef372, 0xa54ff53a, 0x510e527f, 0x9b05688c, 0x1f83d9ab, 0x5be0cd19⟩

def constants : List UInt32 :=
  [0x428a2f98, 0x71374491, 0xb5c0fbcf, 0xe9b5dba5, 0x3956c25b, 0x59f111f1, 0x923f82a4, 0xab1c5ed5,
   0xd807aa98, 0x12835b01, 0x243185be, 0x550c7dc3, 0x72be5d74, 0x80deb1fe, 0x9bdc06a7, 0xc19bf174,
   0xe49b69c1, 0xefbe4786, 0x0fc19dc6, 0x240ca1cc, 0x2de92c6f, 0x4a7484aa, 0x5cb0a9dc, 0x76f988da,
   0x983e5152, 0xa831c66d, 0xb00327c8, 0xbf597fc7, 0xc6e00bf3, 0xd5a79147, 0x06ca6351, 0x14292967,
   0x27b70a85, 0x2e1b2138, 0x4d2c6dfc, 0x53380d13, 0x650a7354, 0x766a0abb, 0x81c2c92e, 0x92722c85,
   0xa2bfe8a1, 0xa81a664b, 0xc24b8b70, 0xc76c51a3, 0xd192e819, 0xd6990624, 0xf40e3585, 0x106aa070,
   0x19a4c116, 0x1e376c08, 0x2748774c, 0x34b0bcb5, 0x391c0cb3, 0x4ed8aa4a, 0x5b9cca4f, 0x682e6ff3,
   0x748f82ee, 0x78a5636f, 0x84c87814, 0x8cc70208, 0x90befffa, 0xa4506ceb, 0xbef9a3f7, 0xc67178f2]

def choice (x y z : UInt32) : UInt32 :=
  (x &&& y) ^^^ (~~~x &&& z)

def majority (x y z : UInt32) : UInt32 :=
  (x &&& y) ^^^ (x &&& z) ^^^ (y &&& z)

def State.round (x : State) (constant word : UInt32) : State :=
  let s₁ := rotate x.e 6 ^^^ rotate x.e 11 ^^^ rotate x.e 25
  let s₀ := rotate x.a 2 ^^^ rotate x.a 13 ^^^ rotate x.a 22
  let t₁ := x.h + s₁ + choice x.e x.f x.g + constant + word
  let t₂ := s₀ + majority x.a x.b x.c
  ⟨t₁ + t₂, x.a, x.b, x.c, x.d + t₁, x.e, x.f, x.g⟩

def next (window : List UInt32) : UInt32 :=
  let w (i : Nat) := window.getD i 0
  let s₀ := rotate (w 1) 7 ^^^ rotate (w 1) 18 ^^^ w 1 >>> 3
  let s₁ := rotate (w 14) 17 ^^^ rotate (w 14) 19 ^^^ w 14 >>> 10
  w 0 + s₀ + w 9 + s₁

def rounds : List UInt32 → List UInt32 → State → State
  | [], _, x => x
  | constant :: rest, window, x =>
    rounds rest (window.tail ++ [next window]) (x.round constant (window.headD 0))

def words : Nat → Bytes → List UInt32
  | 0, _ => []
  | n + 1, bs => UInt32.ofNat (Bytes.value (bs.take 4)) :: words n (bs.drop 4)

def compress (x : State) (block : Bytes) : State :=
  x.add (rounds constants (words 16 block) x)

def padding (length : Nat) : Bytes :=
  0x80 :: (List.replicate ((119 - length % 64) % 64) 0 ++ Bytes.ofNat 8 (8 * length))

def absorb : Nat → Bytes → State → State
  | 0, _, x => x
  | blocks + 1, bs, x => absorb blocks (bs.drop 64) (compress x (bs.take 64))

def State.toBytes (x : State) : Bytes :=
  [x.a, x.b, x.c, x.d, x.e, x.f, x.g, x.h].flatMap fun w => Bytes.ofNat 4 w.toNat

def hash (bs : Bytes) : Octets 32 :=
  ⟨(absorb ((bs.length + 72) / 64) (bs ++ padding bs.length) start).toBytes,
   by simp [State.toBytes]⟩

theorem length_padding (n : Nat) : (n + (padding n).length) % 64 = 0 := by
  simp [padding]
  omega

end StakedChain.Digest.Sha256

namespace StakedChain.Digest

/-- A key longer than a block is replaced by its digest, a shorter one is filled with zeros. -/
def hmacBlock (key : Bytes) : Bytes :=
  let short := if key.length ≤ 64 then key else (Sha256.hash key).bytes
  short ++ List.replicate (64 - short.length) 0

@[irreducible] def hmac (key message : Bytes) : Octets 32 :=
  let block := hmacBlock key
  let inner := Sha256.hash (block.map (· ^^^ 0x36) ++ message)
  Sha256.hash (block.map (· ^^^ 0x5c) ++ inner.bytes)

end StakedChain.Digest
