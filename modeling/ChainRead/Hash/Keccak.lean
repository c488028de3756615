import ChainRead.Word.Basic

/-! # The Keccak-256 hash

The sponge absorbs blocks of 136 bytes into 25 lanes of 64 bits and permutes them in 24 rounds.
A message is padded with the bit pattern 1 0 … 0 1, and the first four lanes are the hash.
-/

namespace ChainRead.Keccak

/-- Five lanes with one vertical coordinate. -/
structure Row where
  x0 : UInt64
  x1 : UInt64
  x2 : UInt64
  x3 : UInt64
  x4 : UInt64

/-- The lanes of the sponge, one row for each vertical coordinate. -/
structure Lanes where
  y0 : Row
  y1 : Row
  y2 : Row
  y3 : Row
  y4 : Row

def rotate (lane : UInt64) (places : UInt64) : UInt64 :=
  (lane <<< places) ||| (lane >>> (64 - places))

namespace Row

def zero : Row := ⟨0, 0, 0, 0, 0⟩

def xor (r s : Row) : Row :=
  ⟨r.x0 ^^^ s.x0, r.x1 ^^^ s.x1, r.x2 ^^^ s.x2, r.x3 ^^^ s.x3, r.x4 ^^^ s.x4⟩

def rotateBy (r places : Row) : Row :=
  ⟨rotate r.x0 places.x0, rotate r.x1 places.x1, rotate r.x2 places.x2, rotate r.x3 places.x3,
    rotate r.x4 places.x4⟩

/-- What the column parities `c` add to every row. -/
def parityEffect (c : Row) : Row :=
  ⟨c.x4 ^^^ rotate c.x1 1, c.x0 ^^^ rotate c.x2 1, c.x1 ^^^ rotate c.x3 1,
    c.x2 ^^^ rotate c.x4 1, c.x3 ^^^ rotate c.x0 1⟩

def mix (r : Row) : Row :=
  ⟨r.x0 ^^^ (~~~r.x1 &&& r.x2), r.x1 ^^^ (~~~r.x2 &&& r.x3), r.x2 ^^^ (~~~r.x3 &&& r.x4),
    r.x3 ^^^ (~~~r.x4 &&& r.x0), r.x4 ^^^ (~~~r.x0 &&& r.x1)⟩

end Row

namespace Lanes

def zero : Lanes := ⟨.zero, .zero, .zero, .zero, .zero⟩

def xor (s t : Lanes) : Lanes :=
  ⟨s.y0.xor t.y0, s.y1.xor t.y1, s.y2.xor t.y2, s.y3.xor t.y3, s.y4.xor t.y4⟩

/-- Add to every lane the parities of two neighbouring columns. -/
def theta (s : Lanes) : Lanes :=
  let d := ((((s.y0.xor s.y1).xor s.y2).xor s.y3).xor s.y4).parityEffect
  ⟨s.y0.xor d, s.y1.xor d, s.y2.xor d, s.y3.xor d, s.y4.xor d⟩

def rho (s : Lanes) : Lanes :=
  ⟨s.y0.rotateBy ⟨0, 1, 62, 28, 27⟩, s.y1.rotateBy ⟨36, 44, 6, 55, 20⟩,
    s.y2.rotateBy ⟨3, 10, 43, 25, 39⟩, s.y3.rotateBy ⟨41, 45, 15, 21, 8⟩,
    s.y4.rotateBy ⟨18, 2, 61, 56, 14⟩⟩

def pi (s : Lanes) : Lanes :=
  ⟨⟨s.y0.x0, s.y1.x1, s.y2.x2, s.y3.x3, s.y4.x4⟩,
    ⟨s.y0.x3, s.y1.x4, s.y2.x0, s.y3.x1, s.y4.x2⟩,
    ⟨s.y0.x1, s.y1.x2, s.y2.x3, s.y3.x4, s.y4.x0⟩,
    ⟨s.y0.x4, s.y1.x0, s.y2.x1, s.y3.x2, s.y4.x3⟩,
    ⟨s.y0.x2, s.y1.x3, s.y2.x4, s.y3.x0, s.y4.x1⟩⟩

def chi (s : Lanes) : Lanes := ⟨s.y0.mix, s.y1.mix, s.y2.mix, s.y3.mix, s.y4.mix⟩

def iota (constant : UInt64) (s : Lanes) : Lanes :=
  { s with y0 := { s.y0 with x0 := s.y0.x0 ^^^ constant } }

def round (s : Lanes) (constant : UInt64) : Lanes := s.theta.rho.pi.chi.iota constant

def roundConstants : List UInt64 :=
  [0x0000000000000001, 0x0000000000008082, 0x800000000000808a, 0x8000000080008000,
    0x000000000000808b, 0x0000000080000001, 0x8000000080008081, 0x8000000000008009,
    0x000000000000008a, 0x0000000000000088, 0x0000000080008009, 0x000000008000000a,
    0x000000008000808b, 0x800000000000008b, 0x8000000000008089, 0x8000000000008003,
    0x8000000000008002, 0x8000000000000080, 0x000000000000800a, 0x800000008000000a,
    0x8000000080008081, 0x8000000000008080, 0x0000000080000001, 0x8000000080008008]

def permute (s : Lanes) : Lanes := roundConstants.foldl round s

end Lanes

/-- The number of bytes absorbed between two permutations. -/
def rate : Nat := 136

def lanesOf : Nat → Bytes → List UInt64
  | 0, _ => []
  | count + 1, bytes => UInt64.ofNat (ofLittleEndian (bytes.take 8)) :: lanesOf count (bytes.drop 8)

/-- A block of the message as lanes; those that the block does not reach are zero. -/
def blockLanes (block : Bytes) : Lanes :=
  match lanesOf 17 block with
  | [a, b, c, d, e, f, g, h, i, j, k, l, m, n, o, p, q] =>
    ⟨⟨a, b, c, d, e⟩, ⟨f, g, h, i, j⟩, ⟨k, l, m, n, o⟩, ⟨p, q, 0, 0, 0⟩, .zero⟩
  | _ => .zero

/-- The bytes that complete a message to whole blocks. -/
def padding (length : Nat) : Bytes :=
  match rate - length % rate with
  | 1 => [0x81]
  | missing => 0x01 :: List.replicate (missing - 2) 0 ++ [0x80]

def absorb : Nat → Lanes → Bytes → Lanes
  | 0, s, _ => s
  | blocks + 1, s, bytes =>
    absorb blocks (s.xor (blockLanes (bytes.take rate))).permute (bytes.drop rate)

end ChainRead.Keccak

namespace ChainRead

/-- The Keccak-256 hash of a byte string, as a word. -/
def keccak256 (bytes : Bytes) : Word :=
  let s := Keccak.absorb (bytes.length / Keccak.rate + 1) .zero
    (bytes ++ Keccak.padding bytes.length)
  Word.ofBytes ([s.y0.x0, s.y0.x1, s.y0.x2, s.y0.x3].flatMap fun lane => littleEndian 8 lane.toNat)

end ChainRead
