import ChainRead.Proofs.Evaluation.Loop

/-! # Codes that frames return

A frame returns the exit code that it is left with. So a loop, which reads the code of an iteration
from its frame, decides and reports as if it took the code that the iteration returned.
-/

namespace ChainRead.Eval

variable {σ : Type}

/-- `iterate`, deciding by the codes that the iterations return. -/
def iterateReturned (nested : Bytes → Eval σ UInt8) (flags : LoopFlags) (program : Bytes) :
    Nat → List (Value Question) → Eval σ (List (Value Question) × List (Value Question))
  | _, [] => pure ([], [])
  | index, seed :: seeds => do
    let parent ← frame
    setFrame (parent.child seed)
    let exitCode ← nested program
    let child ← frame
    let stopped := flags.stopsOn exitCode
    report (.iteration index exitCode stopped)
    let acquires := flags.acquires stopped
    setFrame (if acquires then { parent with target := child.target, slot := child.slot }
      else parent)
    let taken := if acquires then child.stack.reverse else []
    if stopped then return (seeds, taken)
    else
      let (unused, acquired) ← iterateReturned nested flags program (index + 1) seeds
      return (unused, taken ++ acquired)

theorem iterate_returned {nested : Bytes → Eval σ UInt8} (H : ∀ program, Tells (nested program))
    (flags : LoopFlags) (program : Bytes) (index : Nat) (seeds : List (Value Question)) :
    iterate nested flags program index seeds =
      iterateReturned nested flags program index seeds := by
  induction seeds generalizing index with
  | nil => rfl
  | cons seed seeds ih =>
    funext s
    rw [iterate, iterateReturned, ih, frame_bind, frame_bind, setFrame_bind, setFrame_bind,
      Fallible.bind_apply, Fallible.bind_apply]
    rcases run : nested program _ with ⟨e | exitCode, t⟩
    · rfl
    -- A child starts with exit code zero, whatever its parent has.
    have told : t.frame.exitCode = exitCode := H program _ _ _ run rfl
    dsimp only
    rw [frame_bind, frame_bind, told]

/-- A frame that starts with exit code zero ends with the code that it returns, whatever ran in
place or in loops in between. So every loop decides by the codes that its iterations return. -/
theorem exitCode_returned (env : Env σ) :
    (∀ levels program s c t, s.frame.exitCode = 0 → runFrame env levels program s = (.ok c, t) →
      t.frame.exitCode = c) ∧
    ∀ depth flags program index seeds, iterate (below env depth) flags program index seeds =
      iterateReturned (below env depth) flags program index seeds :=
  ⟨fun levels program s c t hs h => runFrame_tells env levels program s c t h hs,
    fun depth => iterate_returned (below_tells env depth)⟩

/-- A program runs in place and stops early with code zero, a loop goes on after an iteration that
failed, and then a program that runs in place inside another stops all of them. -/
theorem exitCode_returned_nested :
    let env : Env Nat := ⟨Chain.source {}, {}⟩
    let program (is : List Instruction) : Bytes := 0 :: Instruction.encodeAll is
    let leaves := program [.push 0, .assert 0, .push 5]
    let inner := program [.push 0, .assert 9, .push 6]
    let outer := program [.push 1, .pushBytes inner, .eval, .push 7]
    let failing := program [.assert 3]
    let main := program [.push 1, .pushBytes leaves, .eval, .push 0, .pushBytes failing, .push 1,
      .evalLoop {}, .push 1, .pushBytes outer, .eval, .push 8]
    let s := env.start ⟨0, []⟩ { source := 0 }
    ∃ t, s.frame.exitCode = 0 ∧ runFrame env 2 main s = (.ok 9, t) ∧ t.frame.exitCode = 9 ∧
      t.events = [.iteration 0 3 false] ∧ t.frame.stack.length = 0 := by
  intro env program leaves inner outer failing main s
  have run : runFrame env 2 main s = (.ok 9, (runFrame env 2 main s).2) :=
    Prod.ext (by decide +kernel) rfl
  have told := (exitCode_returned env).1 2 main s 9 _ rfl run
  exact ⟨_, rfl, run, told, by decide +kernel, by decide +kernel⟩

end ChainRead.Eval
