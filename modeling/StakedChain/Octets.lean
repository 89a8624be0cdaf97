import StakedChain.Bytes

namespace StakedChain

structure Octets (n : Nat) where
  bytes : Bytes
  length_bytes : bytes.length = n
  deriving DecidableEq, Repr

abbrev Address := Octets 20

abbrev Hash := Octets 32

namespace Octets

variable {n : Nat}

attribute [local instance (2000)] instPowNat

@[ext] theorem ext {a b : Octets n} (h : a.bytes = b.bytes) : a = b := by
  cases a; cases b; cases h; rfl

def ofBytes? (n : Nat) (bs : Bytes) : Option (Octets n) :=
  if h : bs.length = n then some ⟨bs, h⟩ else none

theorem ofBytes?_bytes (a : Octets n) : ofBytes? n a.bytes = some a := by
  simp [ofBytes?, a.length_bytes]

theorem bytes_of_ofBytes? {bs : Bytes} {a : Octets n} (h : ofBytes? n bs = some a) :
    a.bytes = bs := by
  unfold ofBytes? at h
  split at h
  · cases h; rfl
  · cases h

def value (a : Octets n) : Nat :=
  Bytes.value a.bytes

def ofNat (n v : Nat) : Octets n :=
  ⟨Bytes.ofNat n v, Bytes.length_ofNat n v⟩

theorem value_lt (a : Octets n) : a.value < 256 ^ n := by
  have := Bytes.value_lt a.bytes
  rwa [a.length_bytes] at this

theorem value_ofNat (v : Nat) : (ofNat n v).value = v % 256 ^ n :=
  Bytes.value_ofNat n v

theorem ofNat_value (a : Octets n) : ofNat n a.value = a := by
  apply ext
  have := Bytes.ofNat_value a.bytes
  rwa [a.length_bytes] at this

theorem value_inj {a b : Octets n} (h : a.value = b.value) : a = b := by
  rw [← ofNat_value a, ← ofNat_value b, h]

def zero (n : Nat) : Octets n :=
  ⟨List.replicate n 0, List.length_replicate⟩

def front (a : Octets n) (k : Nat) (h : k ≤ n) : Octets k :=
  ⟨a.bytes.take k, by rw [List.length_take, a.length_bytes]; omega⟩

def suffix (a : Octets n) (k : Nat) (h : k ≤ n) : Octets k :=
  ⟨a.bytes.drop (n - k), by rw [List.length_drop, a.length_bytes]; omega⟩

def address (w : Octets 32) : Address :=
  w.suffix 20 (by decide)

end Octets

def Hash.hex (h : Hash) : String :=
  Bytes.hex h.bytes

end StakedChain
