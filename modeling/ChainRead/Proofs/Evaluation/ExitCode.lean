import ChainRead.Proofs.Evaluation.Invariance

/-! # Exit codes of frames

No operation changes the exit code or the stack limit of the running frame, and a loop gives its
frame back with both. So a frame that starts with exit code zero ends with the code that its run
returns.
-/

namespace ChainRead

def Frame.fixed (f : Frame Question) : UInt8 × Nat := (f.exitCode, f.maxStack)

theorem Frame.extend_append {Q : Type} (vs ws : List (Value Q)) :
    extend (vs ++ ws) = extend vs >>= fun _ => extend ws := by
  induction vs with
  | nil => rfl
  | cons v vs ih =>
    simp only [List.cons_append, extend, ih, bind_assoc]

namespace Eval

variable {σ α β : Type}

theorem frame_bind (f : Frame Question → Eval σ β) (s : State σ) :
    (frame >>= f) s = f s.frame s := rfl

theorem setFrame_bind (g : Frame Question) (f : Unit → Eval σ β) (s : State σ) :
    (setFrame g >>= f) s = f () { s with frame := g } := rfl

theorem report_bind (e : Event) (f : Unit → Eval σ β) (s : State σ) :
    (report e >>= f) s = f () { s with events := e :: s.events } := rfl

def overSeeds (nested : Bytes → Eval σ UInt8) (flags : LoopFlags) (cap : Nat) (program : Bytes) :
    Eval σ Unit := fun s =>
  let split := s.frame.splitTop (min cap s.frame.size)
  (iterate nested flags program 0 split.1 >>= fun r =>
    onFrame (Frame.extend ((if flags.keepArgs then r.1 else []) ++ r.2)))
    { s with frame := split.2 }

theorem evalLoop_eq (env : Env σ) (nested : Bytes → Eval σ UInt8) (flags : LoopFlags) :
    evalLoop env nested flags = popWord env >>= fun cap => popBytes env >>= fun program =>
      overSeeds nested flags cap.toNat program := by
  apply bind_congr
  intro cap
  apply bind_congr
  intro program
  funext s
  rw [frame_bind]
  show (setFrame _ >>= _) s = _
  rw [setFrame_bind, overSeeds]
  refine congrFun (bind_congr fun r => ?_) _
  rw [Frame.extend_append, onFrame_bind]
  rcases flags.keepArgs with _ | _ <;> rfl

end Eval

namespace Invariant

variable {σ α : Type}

def fixing (fixed : UInt8 × Nat) : Invariant σ where
  holds s := s.frame.fixed = fixed
  remains _ := True

variable {fixed : UInt8 × Nat}

theorem fixing_onTrace (x : Fallible EvalError (Trace Question) α) :
    (fixing fixed : Invariant σ).Stays (Eval.onTrace x) := by
  intro s h
  rw [Eval.onTrace, Fallible.zoom_apply]
  rcases (x s.trace).1 with e | a
  · trivial
  · exact h

theorem fixing_lawful : (fixing fixed : Invariant σ).Lawful where
  fails _ := trivial
  session _ h := h
  events _ h := h
  outputs _ _ h := h
  frame hf h := (Prod.ext hf.exitCode hf.maxStack).trans h
  trace _ := fixing_onTrace _

variable (nested : Bytes → Eval σ UInt8) (flags : LoopFlags)

/-- A loop gives the registers of a seed's frame to the frame that it runs on, and nothing else. -/
theorem fixing_iterate (program : Bytes) (index : Nat) (seeds : List (Value Question)) :
    (fixing fixed).Stays (Eval.iterate nested flags program index seeds) := by
  induction seeds generalizing index with
  | nil => exact .pure _
  | cons seed seeds ih =>
    intro s h
    rw [Eval.iterate, Eval.frame_bind, Eval.setFrame_bind, Fallible.bind_apply]
    rcases nested program _ with ⟨e | exitCode, t⟩
    · trivial
    dsimp only
    rw [Eval.frame_bind, Eval.report_bind, Eval.setFrame_bind]
    generalize flags.acquires _ = acquires
    have hs : (if acquires then { s.frame with target := t.frame.target, slot := t.frame.slot }
        else s.frame).fixed = fixed := by
      split <;> exact h
    split
    · exact hs
    · exact ((ih _).bind fun _ => .pure _) _ hs

theorem fixing_evalLoop (env : Env σ) : (fixing fixed).Stays (Eval.evalLoop env nested flags) := by
  rw [Eval.evalLoop_eq]
  refine .bind (fixing_lawful.popWord env) fun cap => .bind (fixing_lawful.popBytes env) fun _ => ?_
  intro s h
  exact ((fixing_iterate nested flags _ _ _).bind fun _ => fixing_lawful.extend _)
    { s with frame := (s.frame.splitTop (min cap.toNat s.frame.size)).2 } h

end Invariant

namespace Eval

variable {σ : Type} (env : Env σ) {nested : Bytes → Eval σ UInt8}

/-- A run returns the exit code that it leaves in its frame. -/
def Tells (x : Eval σ UInt8) : Prop :=
  ∀ s c t, x s = (.ok c, t) → s.frame.exitCode = 0 → t.frame.exitCode = c

/-- A frame that goes on after an instruction has exit code zero. -/
theorem step_goes_on (H : ∀ program, Tells (nested program)) (depth : Nat) (i : Instruction)
    {s t : State σ} (h : step env nested depth i s = (.ok none, t)) (hs : s.frame.exitCode = 0) :
    t.frame.exitCode = 0 := by
  have kept {x : Eval σ (Option UInt8)} (hx : (Invariant.fixing s.frame.fixed).Stays x)
      (h : x s = (.ok none, t)) : t.frame.exitCode = 0 :=
    (congrArg Prod.fst ((hx s rfl).of_ok h)).trans hs
  cases i with
  | eval =>
    -- only a program that runs in place may leave a code on the frame
    obtain ⟨program, s₁, hp, h⟩ := Fallible.bind_ok h
    obtain ⟨condition, s₂, hc, h⟩ := Fallible.bind_ok h
    have hf : s₁.frame.fixed = s.frame.fixed :=
      (Invariant.fixing_lawful.popBytes env s rfl).of_ok hp
    have hf : s₂.frame.fixed = s.frame.fixed :=
      (Invariant.fixing_lawful.popBool env s₁ hf).of_ok hc
    have hs : s₂.frame.exitCode = 0 := (congrArg Prod.fst hf).trans hs
    split at h
    · obtain ⟨code, s₃, hn, h⟩ := Fallible.bind_ok h
      have hc := H program s₂ code s₃ hn hs
      split at h
      · cases h
        exact hc.trans ‹_›
      · cases h
    · cases h
      exact hs
  | evalLoop flags =>
    exact kept ((Invariant.fixing_evalLoop nested flags env).bind fun _ => .pure _) h
  | _ =>
    refine kept ?_ h
    exact Invariant.fixing_lawful.step env nested depth rfl

theorem runList_tells (H : ∀ program, Tells (nested program)) (depth : Nat)
    (fault : Option EncodingError) (is : List Instruction) :
    Tells (runList env nested depth fault is) := by
  induction is with
  | nil =>
    intro s c t h hs
    cases fault with
    | none =>
      cases h
      exact hs
    | some cause => cases h
  | cons i rest ih =>
    intro s c t h hs
    obtain ⟨stop, u, hu, h⟩ := Fallible.bind_ok h
    cases stop with
    | none => exact ih u c t h (step_goes_on env H depth i hu hs)
    | some exitCode =>
      cases h
      rfl

theorem runFrame_tells (levels : Nat) (program : Bytes) : Tells (runFrame env levels program) := by
  induction levels generalizing program with
  | zero =>
    refine runList_tells env (fun _ s c t h => ?_) _ _ _
    cases h
  | succ levels ih => exact runList_tells env ih _ _ _

end Eval

end ChainRead
