import ChainRead.Frame
import ChainRead.Program.Basic
import ChainRead.Source.Basic
import ChainRead.Text.Checksum
import ChainRead.Trace

/-! # The state of an evaluation

All frames of an evaluation share its outputs, its trace and its session. The state holds these
with the running frame and the events that diagnostics report.
-/

namespace ChainRead

/-- What diagnostics report: a snapshot at a label, or the end of a loop's iteration. -/
inductive Event
  | snapshot (label : String) (depth : Nat) (target : Address) (slot : Word)
      (stack : List String) (needs : Nat)
  | iteration (index : Nat) (exitCode : UInt8) (stopped : Bool)
  deriving DecidableEq, Repr

structure State (σ : Type) extends Machine Question σ where
  outputs : List (Value Question)
  trace : Trace Question
  /-- The events, latest first. -/
  events : List Event := []

abbrev Eval (σ α : Type) := Fallible EvalError (State σ) α

structure Env (σ : Type) where
  source : Source σ
  config : Config

namespace Eval

variable {σ α : Type}

def onMachine (action : Fallible EvalError (Machine Question σ) α) : Eval σ α :=
  action.zoom State.toMachine fun machine s => { s with toMachine := machine }

def onFrame (action : Fallible EvalError (Frame Question) α) : Eval σ α :=
  onMachine (Machine.onFrame action)

def onSession (action : Fallible EvalError (Session σ) α) : Eval σ α :=
  onMachine (Machine.onSession action)

def onTrace (action : Fallible EvalError (Trace Question) α) : Eval σ α :=
  action.zoom State.trace fun trace s => { s with trace }

def create (value : StateM (Session σ) (Value Question)) : Eval σ (Value Question) :=
  onSession (.ofState value)

def state : Eval σ (State σ) := fun s => (.ok s, s)

def frame : Eval σ (Frame Question) := fun s => (.ok s.frame, s)

def setFrame (frame : Frame Question) : Eval σ Unit := fun s => (.ok (), { s with frame })

def modifyFrame (f : Frame Question → Frame Question) : Eval σ Unit := fun s =>
  (.ok (), { s with frame := f s.frame })

def report (e : Event) : Eval σ Unit := fun s => (.ok (), { s with events := e :: s.events })

def push (v : Value Question) : Eval σ Unit := onFrame (Frame.push v)

def pushWord (w : Word) : Eval σ Unit := onMachine (Machine.pushWord w)

def pop : Eval σ (Value Question) := onFrame Frame.pop

variable (env : Env σ)

def resolve (v : Value Question) : Eval σ Bytes := onSession (v.resolve env.source.answers)

def popBytes : Eval σ Bytes := onMachine (Machine.popBytes env.source.answers)

def popWord : Eval σ Word := onMachine (Machine.popWord env.source.answers)

def popSize : Eval σ Nat := onMachine (Machine.popSize env.source.answers)

def popBool : Eval σ Bool := onMachine (Machine.popBool env.source.answers)

def call (c : Call) : Eval σ c.Answer :=
  onSession ((env.source.call c).zoom Session.source fun source s => { s with source })

def output (index : Nat) : Eval σ (Value Question) := fun s =>
  match s.outputs[index]? with
  | some v => (.ok v, s)
  | none => (.error (.index (.output index s.outputs.length)), s)

def setOutput (index : Nat) (v : Value Question) : Eval σ Unit := fun s =>
  if index < s.outputs.length then (.ok (), { s with outputs := s.outputs.set index v })
  else (.error (.index (.output index s.outputs.length)), s)

end Eval

end ChainRead
