import ChainRead.Source.Basic
import ChainRead.Storage
import ChainRead.Text.Utf8

/-! # Chains in memory

A chain in memory answers from fixed data. Its proofs are labels with the address and slot that
they stand for. Its state is a clock in milliseconds, which every call moves by the chain's latency.
-/

namespace ChainRead

structure Chain where
  contracts : List Address := []
  /-- Written storage, latest first. -/
  storage : List ((Address × Word) × Word) := []
  supplied : List (Word × Bytes) := []
  latency : Nat := 0

namespace Chain

def withContract (c : Chain) (target : Address) : Chain :=
  { c with contracts := target :: c.contracts }

/-- Write a slot. An address with storage is a contract. -/
def withStorage (c : Chain) (target : Address) (slot value : Word) : Chain :=
  { c.withContract target with storage := ((target, slot), value) :: c.storage }

/-- The word that starts with the given bytes, of which there are at most 32. -/
def leftAligned (bytes : Bytes) : Word :=
  Word.ofBytes (bytes ++ List.replicate (32 - bytes.length) 0)

/-- Write a byte string in pieces of 32 bytes to `count` slots from `slot` on. -/
def withPieces (target : Address) : Nat → Word → Bytes → Chain → Chain
  | 0, _, _, c => c
  | count + 1, slot, bytes, c =>
    withPieces target count (slot + 1) (bytes.drop 32)
      (c.withStorage target slot (leftAligned (bytes.take 32)))

/-- Write a byte string the way a dynamic value is laid out in storage. -/
def withBytes (c : Chain) (target : Address) (slot : Word) (bytes : Bytes) : Chain :=
  let length := bytes.length
  if length < 32 then
    c.withStorage target slot (leftAligned bytes ||| BitVec.ofNat 256 (2 * length))
  else
    withPieces target ((length + 31) / 32) (dataSlot slot) bytes
      (c.withStorage target slot (BitVec.ofNat 256 (2 * length + 1)))

def withSupplied (c : Chain) (bytes : Bytes) : Chain :=
  { c with supplied := (keccak256 bytes, bytes) :: c.supplied }

def slotValue (c : Chain) (target : Address) (slot : Word) : Word :=
  (c.storage.lookup (target, slot)).getD 0

def accountProof (target : Address) : Bytes := Utf8.encode "account" ++ target.toBytes

def storageProof (target : Address) (slot : Word) : Bytes :=
  Utf8.encode "storage" ++ target.toBytes ++ slot.toBytes

def answer (c : Chain) : (call : Call) → Except BackingError call.Answer
  | .storage target slot => .ok (c.slotValue target slot)
  | .isContract target => .ok (c.contracts.contains target)
  | .hashedBytes hash =>
    match c.supplied.lookup hash with
    | some bytes => .ok bytes
    | none => .error ⟨"unknown preimage " ++ Hex.ofWord hash⟩
  | .proofs target slots => .ok ⟨accountProof target, slots.map (storageProof target)⟩

def source (c : Chain) : Source Nat where
  answer call := fun clock => (c.answer call, clock + c.latency)

end Chain

end ChainRead
