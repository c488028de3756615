import ChainRead.Hash.Keccak
import ChainRead.Word.Operand

/-! # Storage layout

Dynamic values have a header slot. Short byte strings lie in the header itself; longer ones and
array elements lie in consecutive slots from the hash of the header's slot. Mapping entries lie at
the hash of the key followed by the slot.
-/

namespace ChainRead

inductive BytesHeader
  /-- At most 31 bytes, in the header itself. -/
  | inline (bytes : Bytes)
  /-- A length alone; the bytes are in the data slots. -/
  | spilled (len : Nat)
  deriving DecidableEq, Repr

namespace BytesHeader

/-- Read a header. A length beyond any size reads as the largest one, which no budget passes. -/
def decode (header : Word) : Except EncodingError BytesHeader :=
  if header.toNat % 2 = 0 then
    let len := header.toNat % 256 / 2
    if len ≤ 31 then .ok (inline (header.toBytes.take len)) else .error (.invalidShortBytes len)
  else .ok (spilled (clampSize (header.toNat / 2)))

end BytesHeader

/-- The first data slot of a dynamic value whose header is at `slot`. -/
def dataSlot (slot : Word) : Word := keccak256 slot.toBytes

def followSlot (key : Bytes) (slot : Word) : Word := keccak256 (key ++ slot.toBytes)

/-- The number of slots that hold `len` elements of `step` bytes. Elements narrower than a word
share one; wider elements take whole words. -/
def arraySlots (len step : Nat) : Except EncodingError Nat :=
  if step = 0 then .error .invalidArrayStep
  else if step < 32 then
    let perSlot := 32 / step
    .ok ((len + perSlot - 1) / perSlot)
  else .ok (clampSize (len * ((step + 31) / 32)))

/-- The `len` bytes from `start` on, with zero bytes past the end. -/
def slicePadded (start len : Nat) (bytes : Bytes) : Bytes :=
  let part := (bytes.drop start).take len
  part ++ List.replicate (len - part.length) 0

end ChainRead
