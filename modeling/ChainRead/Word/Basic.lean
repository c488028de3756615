/-! # Words, addresses and byte strings

A word is a 256-bit unsigned integer and an address has 160 bits. Byte strings spell numbers with
the most significant byte first. A size counts bytes or entries and fits in 64 bits.
-/

namespace ChainRead

abbrev Bytes := List UInt8

abbrev Word := BitVec 256

abbrev Address := BitVec 160

/-- The low `width` bytes of a number, least significant first. -/
def littleEndian : Nat → Nat → Bytes
  | 0, _ => []
  | width + 1, n => UInt8.ofNat n :: littleEndian width (n / 256)

def ofLittleEndian : Bytes → Nat
  | [] => 0
  | b :: bs => b.toNat + 256 * ofLittleEndian bs

def bigEndian (width n : Nat) : Bytes := (littleEndian width n).reverse

def ofBigEndian (bytes : Bytes) : Nat := ofLittleEndian bytes.reverse

namespace Word

def toBytes (w : Word) : Bytes := bigEndian 32 w.toNat

/-- The bytes of a word without leading zero bytes; zero has none. -/
def trimmed (w : Word) : Bytes := (toBytes w).dropWhile (· == 0)

/-- The word that a byte string spells, modulo 2^256. -/
def ofBytes (bytes : Bytes) : Word := BitVec.ofNat 256 (ofBigEndian bytes)

def ofBool (b : Bool) : Word := if b then 1 else 0

def toAddress (w : Word) : Address := w.setWidth 160

end Word

namespace Address

def toBytes (a : Address) : Bytes := bigEndian 20 a.toNat

def toWord (a : Address) : Word := a.setWidth 256

end Address

def maxSize : Nat := 18446744073709551615

def clampSize (n : Nat) : Nat := min n maxSize

end ChainRead
