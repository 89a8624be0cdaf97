import StakedChain.Word
import StakedChain.Digest.Keccak

namespace StakedChain.Block

structure Log where
  address : Address
  topics : List Hash
  data : Bytes
  deriving DecidableEq, Repr

structure Outcome where
  gasUsed : Word64
  logs : List Log
  deriving DecidableEq, Repr

def Log.marks (log : Log) : List Bytes :=
  log.address.bytes :: log.topics.map Octets.bytes

abbrev Bloom := BitVec 2048

namespace Bloom

/-- Three bits stand for a mark: the first three pairs of octets of its digest, modulo 2048. -/
def indices (mark : Bytes) : List Nat :=
  let digest := (keccak mark).bytes
  [0, 2, 4].map fun i => Bytes.value ((digest.drop i).take 2) % 2048

def set (bloom : Bloom) (i : Nat) : Bloom :=
  bloom ||| BitVec.twoPow 2048 i

def insert (bloom : Bloom) (mark : Bytes) : Bloom :=
  (indices mark).foldl set bloom

def ofLogs (logs : List Log) : Bloom :=
  (logs.flatMap Log.marks).foldl insert 0

def contains (bloom : Bloom) (mark : Bytes) : Bool :=
  insert 0 mark &&& bloom == insert 0 mark

theorem getLsbD_set (bloom : Bloom) (i j : Nat) :
    (bloom.set i).getLsbD j = (bloom.getLsbD j || (decide (i < 2048) && decide (i = j))) := by
  simp [set, BitVec.getLsbD_twoPow]

def bytes (bloom : Bloom) : Bytes :=
  Bytes.ofNat 256 bloom.toNat

end Bloom

end StakedChain.Block
