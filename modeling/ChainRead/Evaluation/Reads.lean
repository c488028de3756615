import ChainRead.Evaluation.State
import ChainRead.Storage

/-! # Reading chain state

A read registers its needs before it puts a value on the stack, and fetches when the value is
used. Only the header of a dynamic value is fetched at once, since its length decides how many
slots there are to read.
-/

namespace ChainRead.Eval

variable {σ : Type}

/-- The value of a slot, not fetched yet. -/
def slotValue (target : Address) (slot : Word) : Eval σ (Value Question) :=
  create (Value.ofQuestion (some 32) (.storage target slot))

def readWords (target : Address) : Nat → Word → Eval σ (List (Value Question))
  | 0, _ => pure []
  | count + 1, start => do
    onTrace (Trace.addStorage target start)
    let word ← slotValue target start
    let rest ← readWords target count (start + 1)
    return word :: rest

def readSlot : Eval σ Unit := do
  let f ← frame
  onTrace (Trace.addStorage f.target f.slot)
  push (← slotValue f.target f.slot)

/-- Whether the selected target has code. This needs an account proof. -/
def readIsContract : Eval σ Unit := do
  let f ← frame
  onTrace (Trace.requireTarget f.target)
  push (← create (Value.ofQuestion (some 32) (.isContract f.target)))

variable (env : Env σ)

/-- Read as many slots as the top says, as one value. -/
def readSlots : Eval σ Unit := do
  let count ← popSize env
  let size ← onTrace (Trace.allocWords count)
  let f ← frame
  let words ← readWords f.target count f.slot
  push (← create (Value.ofParts (some size) words))

/-- Register the selected slot as a header and fetch it. -/
def readHeader : Eval σ Word := do
  let f ← frame
  onTrace (Trace.addStorage f.target f.slot)
  call env (.storage f.target f.slot)

/-- The value of a byte string whose header has been read. -/
def spilledBytes (len : Nat) : Eval σ (Value Question) := do
  onTrace (Trace.alloc len)
  let slots := (len + 31) / 32
  if maxSize < slots * 32 then
    throw (.budget (.allocOverflow env.config.maxAllocBytes.toNat))
  else
    let f ← frame
    let words ← readWords f.target slots (dataSlot f.slot)
    let padded ← create (Value.ofParts (some (slots * 32)) words)
    create (padded.map (some len) fun bytes => .ok (bytes.take len))

def readBytes : Eval σ Unit := do
  let header ← readHeader env
  match BytesHeader.decode header with
  | .error cause => throw (.encoding cause)
  | .ok (.inline bytes) =>
    onTrace (Trace.alloc bytes.length)
    push (.known bytes)
  | .ok (.spilled len) => push (← spilledBytes env len)

/-- Read the dynamic array at the selected slot: its header word and the slots of its elements,
whose width is on the stack. -/
def readArray : Eval σ Unit := do
  let step ← popSize env
  if step = 0 then throw (.encoding .invalidArrayStep)
  else
    let header ← readHeader env
    match arraySlots (clampSize header.toNat) step with
    | .error cause => throw (.encoding cause)
    | .ok count =>
      let size ← onTrace (Trace.allocWords (clampSize (count + 1)))
      let f ← frame
      let words ← readWords f.target count (dataSlot f.slot)
      push (← create (Value.ofParts (some size) (.known header.toBytes :: words)))

def readHashedBytes : Eval σ Unit := do
  let hash ← popWord env
  let value ← create (Value.ofQuestion none (.hashed hash env.config.maxSuppliedBytes.toNat))
  onTrace (Trace.addHashed hash value)
  push value

end ChainRead.Eval
