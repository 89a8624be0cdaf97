import StakedChain.Octets
import StakedChain.Word

namespace StakedChain.Random.ChaCha

def rotate (x n : UInt32) : UInt32 :=
  x <<< n ||| x >>> (32 - n)

structure Quad where
  a : UInt32
  b : UInt32
  c : UInt32
  d : UInt32
  deriving DecidableEq, Repr

namespace Quad

def half (m n : UInt32) (x : Quad) : Quad :=
  let a := x.a + x.b
  let d := rotate (x.d ^^^ a) m
  let c := x.c + d
  ⟨a, rotate (x.b ^^^ c) n, c, d⟩

def quarter (x : Quad) : Quad :=
  (x.half 16 12).half 8 7

def add (x y : Quad) : Quad :=
  ⟨x.a + y.a, x.b + y.b, x.c + y.c, x.d + y.d⟩

def toList (x : Quad) : List UInt32 :=
  [x.a, x.b, x.c, x.d]

end Quad

structure State where
  p : Quad
  q : Quad
  r : Quad
  s : Quad
  deriving DecidableEq, Repr

namespace State

def transpose (x : State) : State :=
  ⟨⟨x.p.a, x.q.a, x.r.a, x.s.a⟩, ⟨x.p.b, x.q.b, x.r.b, x.s.b⟩,
   ⟨x.p.c, x.q.c, x.r.c, x.s.c⟩, ⟨x.p.d, x.q.d, x.r.d, x.s.d⟩⟩

def columns (x : State) : State :=
  let y := x.transpose
  transpose ⟨y.p.quarter, y.q.quarter, y.r.quarter, y.s.quarter⟩

/-- Turns row `i` left by `i` words, so that the diagonals become columns. -/
def slant (x : State) : State :=
  ⟨x.p, ⟨x.q.b, x.q.c, x.q.d, x.q.a⟩, ⟨x.r.c, x.r.d, x.r.a, x.r.b⟩, ⟨x.s.d, x.s.a, x.s.b, x.s.c⟩⟩

def unslant (x : State) : State :=
  ⟨x.p, ⟨x.q.d, x.q.a, x.q.b, x.q.c⟩, ⟨x.r.c, x.r.d, x.r.a, x.r.b⟩, ⟨x.s.b, x.s.c, x.s.d, x.s.a⟩⟩

theorem unslant_slant (x : State) : x.slant.unslant = x := rfl

def doubleRound (x : State) : State :=
  x.columns.slant.columns.unslant

def add (x y : State) : State :=
  ⟨x.p.add y.p, x.q.add y.q, x.r.add y.r, x.s.add y.s⟩

def toBytes (x : State) : Bytes :=
  (x.p.toList ++ x.q.toList ++ x.r.toList ++ x.s.toList).flatMap
    fun w => (Bytes.ofNat 4 w.toNat).reverse

end State

def State.initial (key : Nat → UInt32) (counter : Nat) : State :=
  ⟨⟨0x61707865, 0x3320646e, 0x79622d32, 0x6b206574⟩,
   ⟨key 0, key 1, key 2, key 3⟩,
   ⟨key 4, key 5, key 6, key 7⟩,
   ⟨UInt32.ofNat counter, UInt32.ofNat (counter >>> 32), 0, 0⟩⟩

def iterate (f : State → State) : Nat → State → State
  | 0, x => x
  | n + 1, x => iterate f n (f x)

def block (key : Nat → UInt32) (counter : Nat) : Bytes :=
  let x := State.initial key counter
  ((iterate State.doubleRound 6 x).add x).toBytes

def keystream (key : Nat → UInt32) (blocks : Nat) : Bytes :=
  (List.range blocks).flatMap (block key)

end StakedChain.Random.ChaCha

namespace StakedChain.Random

/-- Stretches a number to words: the output of a permuted congruential generator. -/
def seedWords : Nat → UInt64 → List UInt32
  | 0, _ => []
  | n + 1, state =>
    let state := state * 6364136223846793005 + 11634580027462260723
    let x := (((state >>> 18) ^^^ state) >>> 27).toUInt32
    let turn := (state >>> 59).toUInt32
    (x >>> turn ||| x <<< (32 - turn)) :: seedWords n state

def ofSeed (seed : Word64) (blocks : Nat) : Bytes :=
  let words := seedWords 8 (UInt64.ofNat seed.toNat)
  ChaCha.keystream (fun i => words.getD i 0) blocks

end StakedChain.Random
