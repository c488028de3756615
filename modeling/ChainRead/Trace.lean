import ChainRead.Config
import ChainRead.Value.Session

/-! # Needs and budgets

A trace records what an evaluation relies on, in order. A storage read belongs to the target
selected last before it, so the reads are kept in sections, one for each selection, behind those
made before any target was selected. Two budgets go down with the trace: distinct proofs and
allocated bytes.
-/

namespace ChainRead

variable {Q : Type}

/-- Something read that a proof has to back: a slot of the selected target, or bytes supplied for
their hash. -/
inductive Read (Q : Type) where
  | storage (slot : Word)
  | hashed (hash : Word) (value : Value Q)

/-- A requirement of an evaluation. A required target needs an account proof even if no slot of
it is read. -/
inductive Need (Q : Type) where
  | target (address : Address) (required : Bool)
  | read (read : Read Q)

/-- A selected target and the reads made under it, latest first. -/
structure Section (Q : Type) where
  address : Address
  required : Bool
  reads : List (Read Q) := []

namespace Section

def needs (s : Section Q) : List (Need Q) :=
  .target s.address s.required :: s.reads.reverse.map .read

end Section

structure Trace (Q : Type) where
  /-- Reads made before any target was selected, latest first. -/
  unselected : List (Read Q) := []
  /-- Selected targets, latest first. -/
  sections : List (Section Q) := []
  /-- Proofs that may still be registered; below zero once that failed. -/
  proofsLeft : Int
  allocLeft : Nat
  proofLimit : Nat
  allocLimit : Nat
  requireTargetBeforeSlot : Bool
  /-- Targets, slots and the slots of no target for which a proof was charged. -/
  targets : List Address := []
  slots : List (Address × Word) := []
  noTarget : Bool := false

namespace Trace

def new (c : Config) : Trace Q where
  proofsLeft := c.proofLimit
  allocLeft := c.maxAllocBytes.toNat
  proofLimit := c.proofLimit
  allocLimit := c.maxAllocBytes.toNat
  requireTargetBeforeSlot := c.requireTargetBeforeSlot

/-- The needs in the order in which they were registered. -/
def needs (t : Trace Q) : List (Need Q) :=
  t.unselected.reverse.map .read ++ t.sections.reverse.flatMap Section.needs

def uniqueProofs (t : Trace Q) : Nat := t.proofLimit - t.proofsLeft.toNat

def lastTarget? (t : Trace Q) : Option Address := t.sections.head?.map Section.address

def debitProof : Fallible EvalError (Trace Q) Unit := fun t =>
  let t := { t with proofsLeft := t.proofsLeft - 1 }
  if t.proofsLeft < 0 then (.error (.budget (.tooManyProofs t.proofLimit)), t) else (.ok (), t)

/-- Charge `bytes` to the allocation budget. A charge that fails takes nothing. -/
def alloc (bytes : Nat) : Fallible EvalError (Trace Q) Unit := fun t =>
  if bytes ≤ t.allocLeft then (.ok (), { t with allocLeft := t.allocLeft - bytes })
  else (.error (.budget (.allocOverflow t.allocLimit)), t)

/-- Charge `count` words and give their size in bytes. -/
def allocWords (count : Nat) : Fallible EvalError (Trace Q) Nat := do
  if count * 32 ≤ maxSize then
    alloc (count * 32)
    return count * 32
  else
    throw (.budget (.allocOverflow (← get).allocLimit))

def record (read : Read Q) (t : Trace Q) : Trace Q :=
  match t.sections with
  | [] => { t with unselected := read :: t.unselected }
  | s :: rest => { t with sections := { s with reads := read :: s.reads } :: rest }

/-- Select a target. Its first selection is charged a proof. -/
def addTarget (address : Address) (required : Bool) : Fallible EvalError (Trace Q) Unit := do
  unless (← get).targets.contains address do
    modify fun t => { t with targets := address :: t.targets }
    debitProof
  modify fun t => { t with sections := ⟨address, required, []⟩ :: t.sections }

/-- Make an account proof of `address` required, selecting it if it is not the target selected
last. -/
def requireTarget (address : Address) : Fallible EvalError (Trace Q) Unit := do
  match (← get).sections with
  | s :: rest =>
    if s.address = address then
      modify fun t => { t with sections := { s with required := true } :: rest }
    else addTarget address true
  | [] => addTarget address true

/-- Register a slot of `target`, which is the target selected last; the slot's first read is
charged a proof. -/
def addSlot (target : Address) (slot : Word) : Fallible EvalError (Trace Q) Unit := do
  unless (← get).slots.contains (target, slot) do
    modify fun t => { t with slots := (target, slot) :: t.slots }
    debitProof
  modify (record (.storage slot))

/-- Register a slot while no target is selected. All such slots share one proof. -/
def addUnselected (slot : Word) : Fallible EvalError (Trace Q) Unit := do
  unless (← get).noTarget do
    modify fun t => { t with noTarget := true }
    debitProof
  modify (record (.storage slot))

/-- Register a storage read of `target`, selecting it if a frame left another one selected. -/
def addStorage (target : Address) (slot : Word) : Fallible EvalError (Trace Q) Unit := do
  let t ← get
  match t.lastTarget? with
  | some last =>
    if last = target then
      if t.requireTargetBeforeSlot then requireTarget target
    else addTarget target t.requireTargetBeforeSlot
    addSlot target slot
  | none =>
    if t.requireTargetBeforeSlot then
      addTarget target true
      addSlot target slot
    else addUnselected slot

def addHashed (hash : Word) (value : Value Q) : Fallible EvalError (Trace Q) Unit := do
  debitProof
  modify (record (.hashed hash value))

end Trace

end ChainRead
