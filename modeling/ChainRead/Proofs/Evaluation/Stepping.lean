import ChainRead.Evaluation.Run

/-! # Other ways to step

A run executes its instructions one by one. How one of them is executed is a parameter here, so that
runs can be compared in which operations work differently or in which every step is observed.
-/

namespace ChainRead

namespace Eval

variable {σ : Type}

/-- How to execute an instruction, given how nested programs run and the depth of the frame. -/
abbrev Stepper (σ : Type) := (Bytes → Eval σ UInt8) → Nat → Instruction → Eval σ (Option UInt8)

/-- Execute an instruction whose operation is executed by `exec`. -/
def stepBy (env : Env σ) (exec : Op → Eval σ Unit) : Stepper σ := fun nested depth i =>
  match i with
  | .plain op => do
    exec op
    return none
  | i => step env nested depth i

theorem stepBy_execute (env : Env σ) : stepBy env (execute env) = step env := by
  funext nested depth i
  cases i <;> rfl

def runListBy (st : Stepper σ) (nested : Bytes → Eval σ UInt8) (depth : Nat)
    (fault : Option EncodingError) : List Instruction → Eval σ UInt8
  | [] => match fault with
    | none => pure 0
    | some cause => throw (.encoding cause)
  | i :: rest => do
    match ← st nested depth i with
    | some exitCode =>
      modifyFrame fun f => { f with exitCode }
      return exitCode
    | none => runListBy st nested depth fault rest

def runFrameBy (st : Stepper σ) (limit : Nat) : Nat → Bytes → Eval σ UInt8
  | 0, program => runListBy st (fun _ => throw (.budget (.maxEvalDepth limit))) limit
    (Listing.ofBytes program).fault (Listing.ofBytes program).instructions
  | levels + 1, program => runListBy st (runFrameBy st limit levels) (limit - (levels + 1))
    (Listing.ofBytes program).fault (Listing.ofBytes program).instructions

variable (env : Env σ)

theorem runListBy_step (nested : Bytes → Eval σ UInt8) (depth : Nat) (fault : Option EncodingError)
    (is : List Instruction) :
    runListBy (step env) nested depth fault is = runList env nested depth fault is := by
  induction is with
  | nil => rfl
  | cons i rest ih =>
    rw [runListBy, ih]
    rfl

theorem runFrameBy_step (levels : Nat) :
    runFrameBy (step env) env.config.maxEvalDepth.toNat levels = runFrame env levels := by
  induction levels with
  | zero =>
    funext program
    exact runListBy_step env _ _ _ _
  | succ levels ih =>
    funext program
    rw [runFrameBy, ih]
    exact runListBy_step env _ _ _ _

end Eval

namespace Env

variable {σ : Type} (env : Env σ)

def runBy (st : Eval.Stepper σ) (program : Program) (session : Session σ) :
    Except EvalError UInt8 × State σ :=
  Eval.runFrameBy st env.config.maxEvalDepth.toNat env.config.maxEvalDepth.toNat program.toBytes
    (env.start program session)

theorem runBy_step (program : Program) (session : Session σ) :
    env.runBy (Eval.step env) program session = env.run program session := by
  rw [runBy, Eval.runFrameBy_step, run]

end Env

end ChainRead
