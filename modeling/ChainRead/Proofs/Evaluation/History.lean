import ChainRead.Proofs.Evaluation.Stepping
import ChainRead.Proofs.Source.Beside

/-! # The history of a run

A run may be watched: every instruction that it completes, in whatever frame, is noted with the
states before and after it. What is noted lies beside the source, where nothing looks at it.
-/

namespace ChainRead

variable {σ τ : Type}

def State.plain (s : State (σ × τ)) : State σ := { s with session := s.session.plain }

/-- An instruction that completed, with the states before and after it. -/
structure Moment (σ : Type) where
  instruction : Instruction
  before : State σ
  after : State σ

def State.note (m : Moment σ) (s : State (σ × List (Moment σ))) : State (σ × List (Moment σ)) :=
  { s with session := s.session.plain.beside (m :: s.session.source.2) }

namespace Env

variable (env : Env σ)

def watched : Env (σ × List (Moment σ)) := ⟨env.source.beside _, env.config⟩

/-- Execute an instruction and note it if it completes. -/
def watch : Eval.Stepper (σ × List (Moment σ)) := fun nested depth i s =>
  match Eval.step env.watched nested depth i s with
  | (.ok stop, t) => (.ok stop, t.note ⟨i, s.plain, t.plain⟩)
  | (.error cause, t) => (.error cause, t)

def runWatched (program : Program) (session : Session σ) :
    Except EvalError UInt8 × State (σ × List (Moment σ)) :=
  env.watched.runBy env.watch program (session.beside [])

/-- The instructions that a run completes, latest first. -/
def history (program : Program) (session : Session σ) : List (Moment σ) :=
  (env.runWatched program session).2.session.source.2

end Env

/-- The length of a value's bytes when it is resolved, or the one that it declares if that fails. -/
def Value.size {Q : Type} (answers : Answers Q σ) (s : Session σ) (v : Value Q) : Nat :=
  match (v.resolve answers s).1 with
  | .ok bytes => bytes.length
  | .error _ => v.hint?.getD 0

namespace Moment

/-- The value that an instruction charges for: the one that it pushed, or the key that it took. -/
def subject (m : Moment σ) : Option (Value Question) :=
  match m.instruction with
  | .plain .readSlots | .plain .readBytes | .plain .readArray | .plain .concat | .plain .slice =>
    m.after.frame.stack.head?
  | .plain .follow => m.before.frame.stack.head?
  | _ => none

/-- The bytes that an instruction charges for besides: a key is hashed with a slot. -/
def overhead (m : Moment σ) : Nat :=
  match m.instruction with
  | .plain .follow => 32
  | _ => 0

/-- The bytes to account for at a moment if values are resolved in the session `s`. -/
def bytes (answers : Answers Question σ) (s : Session σ) (m : Moment σ) : Nat :=
  (m.subject.map (Value.size answers s)).getD 0 + m.overhead

end Moment

end ChainRead
