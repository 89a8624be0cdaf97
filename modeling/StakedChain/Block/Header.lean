import StakedChain.Word
import StakedChain.Digest.Keccak
import StakedChain.Block.Rlp

namespace StakedChain.Block

structure Header where
  parentHash : Hash
  coinbase : Address
  number : Word64
  gasLimit : Word64
  timestamp : Word64
  extra : Bytes
  deriving DecidableEq, Repr

namespace Header

def empty : Header :=
  ⟨.zero 32, .zero 20, 0, 0, 0, []⟩

def items (header : Header) : List Rlp.Item :=
  [.octets header.parentHash.bytes, .octets header.coinbase.bytes, .ofNat header.number.toNat,
   .ofNat header.gasLimit.toNat, .ofNat header.timestamp.toNat, .octets header.extra]

def bytes (header : Header) : Bytes :=
  Rlp.encode (.list header.items)

def hash (header : Header) : Hash :=
  keccak header.bytes

end Header

abbrev History := Word64 → Option Header

namespace History

def empty : History :=
  fun _ => none

def insert (history : History) (header : Header) : History :=
  fun number => if number = header.number then some header else history number

theorem insert_same (history : History) (header : Header) :
    history.insert header header.number = some header := by
  simp [insert]

theorem insert_other (history : History) (header : Header) {number : Word64}
    (h : number ≠ header.number) : history.insert header number = history number := by
  simp [insert, h]

end History

end StakedChain.Block
