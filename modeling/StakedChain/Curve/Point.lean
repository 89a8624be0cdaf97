import StakedChain.Octets

namespace StakedChain.Curve

-- A modulus is compared with the zero that numerals of `Fin` are about.
attribute [local instance (2000)] Zero.ofOfNat0

section

variable {m : Nat} [NeZero m]

def powerBits (x : Fin m) : Nat → Nat → Fin m
  | 0, _ => 1
  | bits + 1, e =>
    let root := powerBits x bits (e / 2)
    if e % 2 = 1 then root * root * x else root * root

def power (x : Fin m) (e : Nat) : Fin m :=
  powerBits x (e.log2 + 1) e

/-- The inverse modulo a prime; the inverse of zero is zero. -/
def inverse (x : Fin m) : Fin m :=
  power x (m - 2)

end

def fieldOrder : Nat :=
  0xfffffffffffffffffffffffffffffffffffffffffffffffffffffffefffffc2f

def groupOrder : Nat :=
  0xfffffffffffffffffffffffffffffffebaaedce6af48a03bbfd25e8cd0364141

instance : NeZero fieldOrder := ⟨by decide⟩

instance : NeZero groupOrder := ⟨by decide⟩

abbrev Coordinate := Fin fieldOrder

abbrev Scalar := Fin groupOrder

/-- A point of `y² = x³ + 7` in Jacobian coordinates: `(x / z², y / z³)`, or infinity at `z = 0`. -/
structure Point where
  x : Coordinate
  y : Coordinate
  z : Coordinate
  deriving DecidableEq, Repr

namespace Point

def infinity : Point :=
  ⟨1, 1, 0⟩

def base : Point :=
  ⟨0x79be667ef9dcbbac55a06295ce870b07029bfcdb2dce28d959f2815b16f81798,
   0x483ada7726a3c4655da4fbfc0e1108a8fd17b448a68554199c47d08ffb10d4b8, 1⟩

def double (p : Point) : Point :=
  let yy := p.y * p.y
  let s := 4 * (p.x * yy)
  let m := 3 * (p.x * p.x)
  let x := m * m - 2 * s
  ⟨x, m * (s - x) - 8 * (yy * yy), 2 * (p.y * p.z)⟩

def add (p q : Point) : Point :=
  if p.z = 0 then q
  else if q.z = 0 then p
  else
    let pp := p.z * p.z
    let qq := q.z * q.z
    let u := p.x * qq
    let s := p.y * qq * q.z
    let h := q.x * pp - u
    let r := q.y * pp * p.z - s
    if h = 0 then if r = 0 then p.double else infinity
    else
      let hh := h * h
      let v := u * hh
      let x := r * r - hh * h - 2 * v
      ⟨x, r * (v - x) - s * (hh * h), p.z * q.z * h⟩

def timesBits (p : Point) : Nat → Nat → Point
  | 0, _ => infinity
  | bits + 1, k =>
    let twice := (timesBits p bits (k / 2)).double
    if k % 2 = 1 then twice.add p else twice

def times (k : Scalar) (p : Point) : Point :=
  timesBits p 256 k.val

/-- The affine coordinates; infinity has none and gives zeros. -/
def affine (p : Point) : Coordinate × Coordinate :=
  let i := inverse p.z
  (p.x * (i * i), p.y * (i * i * i))

/-- The point with a given abscissa and parity of its ordinate, if there is one. The order of the
field leaves remainder 3 by 4, so a square has the root below. -/
def lift? (x : Coordinate) (odd : Bool) : Option Point :=
  let c := x * x * x + 7
  let y := power c ((fieldOrder + 1) / 4)
  if y * y = c then some ⟨x, if (y.val % 2 == 1) = odd then y else -y, 1⟩ else none

def bytes (p : Point) : Bytes :=
  let (x, y) := p.affine
  Bytes.ofNat 32 x.val ++ Bytes.ofNat 32 y.val

end Point

end StakedChain.Curve
