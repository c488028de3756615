import ChainRead.Config
import ChainRead.Value.Session
import ChainRead.Word.Operand

/-! # Frames

A frame has a target and a slot register, a bounded stack of values and the code it stopped with.
A machine is a frame in a session, so that operands can be resolved as they are popped.
-/

namespace ChainRead

structure Frame (Q : Type) where
  target : Address := 0
  slot : Word := 0
  /-- The code that the frame stopped with; zero while it runs and after success. -/
  exitCode : UInt8 := 0
  /-- The stack, top first. -/
  stack : List (Value Q) := []
  maxStack : Nat

variable {Q σ : Type}

namespace Frame

/-- A new frame with the registers of `f` and one value on its stack. -/
def child (f : Frame Q) (seed : Value Q) : Frame Q := { f with exitCode := 0, stack := [seed] }

/-- Select an address and reset the slot. -/
def select (f : Frame Q) (a : Address) : Frame Q := { f with target := a, slot := 0 }

def size (f : Frame Q) : Nat := f.stack.length

def push (v : Value Q) : Fallible EvalError (Frame Q) Unit := fun f =>
  if f.size < f.maxStack then (.ok (), { f with stack := v :: f.stack })
  else (.error (.stack (.overflow f.maxStack)), f)

/-- Push values in order. Those before the first that does not fit stay. -/
def extend : List (Value Q) → Fallible EvalError (Frame Q) Unit
  | [] => pure ()
  | v :: vs => do
    push v
    extend vs

def pop : Fallible EvalError (Frame Q) (Value Q) := fun f =>
  match f.stack with
  | [] => (.error (.stack .underflow), f)
  | v :: rest => (.ok v, { f with stack := rest })

/-- The entry `back` places below the top. -/
def peek (back : Nat) : Fallible EvalError (Frame Q) (Value Q) := fun f =>
  match f.stack[back]? with
  | some v => (.ok v, f)
  | none => (.error (.index (.stack back f.size)), f)

/-- The entry `index` places above the bottom. -/
def get (index : Nat) : Fallible EvalError (Frame Q) (Value Q) := fun f =>
  match f.stack.reverse[index]? with
  | some v => (.ok v, f)
  | none => (.error (.index (.stack index f.size)), f)

/-- Exchange the top with the entry `back` places below it. -/
def swap (back : Nat) : Fallible EvalError (Frame Q) Unit := fun f =>
  match f.stack[0]?, f.stack[back]? with
  | some top, some other => (.ok (), { f with stack := (f.stack.set 0 other).set back top })
  | _, _ => (.error (.index (.stack back f.size)), f)

/-- Remove the top `count` entries, or all there are. They are given bottom first. -/
def splitTop (count : Nat) (f : Frame Q) : List (Value Q) × Frame Q :=
  ((f.stack.take count).reverse, { f with stack := f.stack.drop count })

end Frame

structure Machine (Q σ : Type) where
  frame : Frame Q
  session : Session σ

namespace Machine

def onFrame {α : Type} (action : Fallible EvalError (Frame Q) α) :
    Fallible EvalError (Machine Q σ) α :=
  action.zoom Machine.frame fun frame m => { m with frame }

def onSession {α : Type} (action : Fallible EvalError (Session σ) α) :
    Fallible EvalError (Machine Q σ) α :=
  action.zoom Machine.session fun session m => { m with session }

def pushWord (w : Word) : Fallible EvalError (Machine Q σ) Unit :=
  onFrame (Frame.push (.known w.toBytes))

variable (answers : Answers Q σ)

/-- Remove the top and resolve it. It stays removed if that fails. -/
def popBytes : Fallible EvalError (Machine Q σ) Bytes := do
  let v ← onFrame Frame.pop
  onSession (v.resolve answers)

def popWord : Fallible EvalError (Machine Q σ) Word := do
  let bytes ← popBytes answers
  .ofExcept ((Word.ofOperand bytes).mapError .encoding)

def popSize : Fallible EvalError (Machine Q σ) Nat := do
  let w ← popWord answers
  .ofExcept (w.toSize.mapError .encoding)

def popBool : Fallible EvalError (Machine Q σ) Bool := do
  return isTruthy (← popBytes answers)

end Machine

end ChainRead
