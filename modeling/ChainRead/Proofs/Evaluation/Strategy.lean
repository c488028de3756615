import ChainRead.Proofs.Evaluation.Stepping

/-! # When values are resolved

An evaluation leaves the values that it makes pending. What is done with a new value is a parameter
here: to leave it as it is gives the evaluation itself, and to resolve it at once gives the eager
evaluation, in which no value is ever pending.
-/

namespace ChainRead

namespace Eval

variable {σ : Type} (env : Env σ)

/-- Make a value and resolve it at once. -/
def force (value : StateM (Session σ) (Value Question)) : Eval σ (Value Question) := do
  let bytes ← resolve env (← create value)
  return .known bytes

variable (make : StateM (Session σ) (Value Question) → Eval σ (Value Question))

def slotValueBy (target : Address) (slot : Word) : Eval σ (Value Question) :=
  make (Value.ofQuestion (some 32) (.storage target slot))

def readWordsBy (target : Address) : Nat → Word → Eval σ (List (Value Question))
  | 0, _ => pure []
  | count + 1, start => do
    onTrace (Trace.addStorage target start)
    let word ← slotValueBy make target start
    let rest ← readWordsBy target count (start + 1)
    return word :: rest

def readSlotBy : Eval σ Unit := do
  let f ← frame
  onTrace (Trace.addStorage f.target f.slot)
  push (← slotValueBy make f.target f.slot)

def readIsContractBy : Eval σ Unit := do
  let f ← frame
  onTrace (Trace.requireTarget f.target)
  push (← make (Value.ofQuestion (some 32) (.isContract f.target)))

def readSlotsBy : Eval σ Unit := do
  let count ← popSize env
  let size ← onTrace (Trace.allocWords count)
  let f ← frame
  let words ← readWordsBy make f.target count f.slot
  push (← make (Value.ofParts (some size) words))

def spilledBytesBy (len : Nat) : Eval σ (Value Question) := do
  onTrace (Trace.alloc len)
  let slots := (len + 31) / 32
  if maxSize < slots * 32 then
    throw (.budget (.allocOverflow env.config.maxAllocBytes.toNat))
  else
    let f ← frame
    let words ← readWordsBy make f.target slots (dataSlot f.slot)
    let padded ← make (Value.ofParts (some (slots * 32)) words)
    make (padded.map (some len) fun bytes => .ok (bytes.take len))

def readBytesBy : Eval σ Unit := do
  let header ← readHeader env
  match BytesHeader.decode header with
  | .error cause => throw (.encoding cause)
  | .ok (.inline bytes) =>
    onTrace (Trace.alloc bytes.length)
    push (.known bytes)
  | .ok (.spilled len) => push (← spilledBytesBy env make len)

def readArrayBy : Eval σ Unit := do
  let step ← popSize env
  if step = 0 then throw (.encoding .invalidArrayStep)
  else
    let header ← readHeader env
    match arraySlots (clampSize header.toNat) step with
    | .error cause => throw (.encoding cause)
    | .ok count =>
      let size ← onTrace (Trace.allocWords (clampSize (count + 1)))
      let f ← frame
      let words ← readWordsBy make f.target count (dataSlot f.slot)
      push (← make (Value.ofParts (some size) (.known header.toBytes :: words)))

def readHashedBytesBy : Eval σ Unit := do
  let hash ← popWord env
  let value ← make (Value.ofQuestion none (.hashed hash env.config.maxSuppliedBytes.toNat))
  onTrace (Trace.addHashed hash value)
  push value

def concatBy : Eval σ Unit := do
  let b ← pop
  let a ← pop
  let s ← state
  match a.length? s.session, b.length? s.session with
  | some m, some n =>
    onTrace (Trace.alloc (clampSize (m + n)))
    match a.peek s.session, b.peek s.session with
    | some x, some y => push (.known (x ++ y))
    | _, _ => push (← make (Value.ofParts (some (clampSize (m + n))) [a, b]))
  | _, _ =>
    let x ← resolve env a
    let y ← resolve env b
    onTrace (Trace.alloc (clampSize (x.length + y.length)))
    push (.known (x ++ y))

def sliceBy : Eval σ Unit := do
  let len ← popSize env
  let start ← popSize env
  let value ← pop
  onTrace (Trace.alloc len)
  push (← make (value.map (some len) fun bytes => .ok (slicePadded start len bytes)))

def lengthBy : Eval σ Unit := do
  let value ← pop
  let s ← state
  match value.length? s.session with
  | some n => push (.known (lengthWord n))
  | none => push (← make (value.map (some 32) fun bytes => .ok (lengthWord bytes.length)))

def executeBy : Op → Eval σ Unit
  | .isContract => readIsContractBy make
  | .readSlot => readSlotBy make
  | .readBytes => readBytesBy env make
  | .readArray => readArrayBy env make
  | .readHashedBytes => readHashedBytesBy env make
  | .readSlots => readSlotsBy env make
  | .concat => concatBy env make
  | .slice => sliceBy env make
  | .length => lengthBy make
  | op => execute env op

theorem readWordsBy_create (target : Address) (count : Nat) (start : Word) :
    readWordsBy create target count start = (readWords target count start : Eval σ _) := by
  induction count generalizing start with
  | zero => rfl
  | succ count ih =>
    simp only [readWordsBy, ih]
    rfl

theorem executeBy_create : executeBy env create = execute env := by
  funext op
  cases op with
  | readSlots => simp only [executeBy, readSlotsBy, readWordsBy_create]; rfl
  | readBytes => simp only [executeBy, readBytesBy, spilledBytesBy, readWordsBy_create]; rfl
  | readArray => simp only [executeBy, readArrayBy, readWordsBy_create]; rfl
  | _ => rfl

end Eval

namespace Env

variable {σ : Type} (env : Env σ)

/-- Run a program that resolves every value as soon as it is made. -/
def runEagerly (program : Program) (session : Session σ) : Except EvalError UInt8 × State σ :=
  env.runBy (Eval.stepBy env (Eval.executeBy env (Eval.force env))) program session

theorem runBy_create (program : Program) (session : Session σ) :
    env.runBy (Eval.stepBy env (Eval.executeBy env Eval.create)) program session =
      env.run program session := by
  rw [Eval.executeBy_create, Eval.stepBy_execute, runBy_step]

end Env

end ChainRead
