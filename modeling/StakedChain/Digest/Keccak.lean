import StakedChain.Octets

namespace StakedChain.Digest.Keccak

abbrev Lane := UInt64

def rotate (x n : Lane) : Lane :=
  x <<< n ||| x >>> (64 - n)

structure Plane where
  a : Lane
  b : Lane
  c : Lane
  d : Lane
  e : Lane
  deriving DecidableEq, Repr

namespace Plane

def zero : Plane :=
  ⟨0, 0, 0, 0, 0⟩

def combine (f : Lane → Lane → Lane) (p q : Plane) : Plane :=
  ⟨f p.a q.a, f p.b q.b, f p.c q.c, f p.d q.d, f p.e q.e⟩

def add (p q : Plane) : Plane :=
  combine (· ^^^ ·) p q

def left (p : Plane) : Plane :=
  ⟨p.b, p.c, p.d, p.e, p.a⟩

def right (p : Plane) : Plane :=
  ⟨p.e, p.a, p.b, p.c, p.d⟩

def chi (p : Plane) : Plane :=
  p.add (combine (fun x y => ~~~x &&& y) p.left p.left.left)

end Plane

structure State where
  p : Plane
  q : Plane
  r : Plane
  s : Plane
  t : Plane
  deriving DecidableEq, Repr

namespace State

def zero : State :=
  ⟨.zero, .zero, .zero, .zero, .zero⟩

def add (x y : State) : State :=
  ⟨x.p.add y.p, x.q.add y.q, x.r.add y.r, x.s.add y.s, x.t.add y.t⟩

def theta (x : State) : State :=
  let parity := x.p.add (x.q.add (x.r.add (x.s.add x.t)))
  let mix := parity.right.add (parity.left.combine rotate ⟨1, 1, 1, 1, 1⟩)
  x.add ⟨mix, mix, mix, mix, mix⟩

def rho (x : State) : State :=
  ⟨x.p.combine rotate ⟨0, 1, 62, 28, 27⟩,
   x.q.combine rotate ⟨36, 44, 6, 55, 20⟩,
   x.r.combine rotate ⟨3, 10, 43, 25, 39⟩,
   x.s.combine rotate ⟨41, 45, 15, 21, 8⟩,
   x.t.combine rotate ⟨18, 2, 61, 56, 14⟩⟩

def pi (x : State) : State :=
  ⟨⟨x.p.a, x.q.b, x.r.c, x.s.d, x.t.e⟩,
   ⟨x.p.d, x.q.e, x.r.a, x.s.b, x.t.c⟩,
   ⟨x.p.b, x.q.c, x.r.d, x.s.e, x.t.a⟩,
   ⟨x.p.e, x.q.a, x.r.b, x.s.c, x.t.d⟩,
   ⟨x.p.c, x.q.d, x.r.e, x.s.a, x.t.b⟩⟩

def chi (x : State) : State :=
  ⟨x.p.chi, x.q.chi, x.r.chi, x.s.chi, x.t.chi⟩

def iota (constant : Lane) (x : State) : State :=
  { x with p := { x.p with a := x.p.a ^^^ constant } }

def round (x : State) (constant : Lane) : State :=
  x.theta.rho.pi.chi.iota constant

end State

def constants : List Lane :=
  [0x0000000000000001, 0x0000000000008082, 0x800000000000808a, 0x8000000080008000,
   0x000000000000808b, 0x0000000080000001, 0x8000000080008081, 0x8000000000008009,
   0x000000000000008a, 0x0000000000000088, 0x0000000080008009, 0x000000008000000a,
   0x000000008000808b, 0x800000000000008b, 0x8000000000008089, 0x8000000000008003,
   0x8000000000008002, 0x8000000000000080, 0x000000000000800a, 0x800000008000000a,
   0x8000000080008081, 0x8000000000008080, 0x0000000080000001, 0x8000000080008008]

def permute (x : State) : State :=
  constants.foldl State.round x

/-- Octets absorbed between two permutations. -/
def rate : Nat := 136

/-- A lane is stored with its least significant octet first. -/
def Lane.ofBytes (bs : Bytes) : Lane :=
  UInt64.ofNat (Bytes.value (bs.take 8).reverse)

def Lane.toBytes (x : Lane) : Bytes :=
  (Bytes.ofNat 8 x.toNat).reverse

def Plane.ofBytes (bs : Bytes) : Plane :=
  ⟨Lane.ofBytes bs, Lane.ofBytes (bs.drop 8), Lane.ofBytes (bs.drop 16),
   Lane.ofBytes (bs.drop 24), Lane.ofBytes (bs.drop 32)⟩

def State.ofBytes (bs : Bytes) : State :=
  ⟨.ofBytes bs, .ofBytes (bs.drop 40), .ofBytes (bs.drop 80), .ofBytes (bs.drop 120),
   .ofBytes (bs.drop 160)⟩

/-- What follows the message in its last block: a one bit first, a one bit last. -/
def padding (length : Nat) : Bytes :=
  match rate - length % rate with
  | 0 | 1 => [0x81]
  | n + 2 => 0x01 :: (List.replicate n 0 ++ [0x80])

def absorb : Nat → Bytes → State → State
  | 0, _, x => x
  | blocks + 1, bs, x =>
    absorb blocks (bs.drop rate) (permute (x.add (.ofBytes (bs.take rate))))

def squeeze (x : State) : Hash :=
  ⟨Lane.toBytes x.p.a ++ Lane.toBytes x.p.b ++ Lane.toBytes x.p.c ++ Lane.toBytes x.p.d,
   by simp [Lane.toBytes]⟩

def hash (bs : Bytes) : Hash :=
  squeeze (absorb (bs.length / rate + 1) (bs ++ padding bs.length) .zero)

theorem length_padding (n : Nat) : (padding n).length = rate - n % rate := by
  have h : n % rate < rate := Nat.mod_lt n (by decide)
  unfold padding
  split
  · omega
  · simp [*]
  · simp [*]

end StakedChain.Digest.Keccak

namespace StakedChain

@[irreducible] def keccak (bs : Bytes) : Hash :=
  Digest.Keccak.hash bs

end StakedChain
