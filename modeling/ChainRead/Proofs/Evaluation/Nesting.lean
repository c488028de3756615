import ChainRead.Proofs.Evaluation.Creation
import ChainRead.Proofs.Evaluation.Stepping
import ChainRead.Proofs.Program.Encoding

/-! # Simulated runs

Under a fair simulation an instruction gives related results if its operation and nested programs
do. A run then gives related results by induction on how deep its frames nest.
-/

namespace ChainRead

namespace Simulation.Fair

variable {W σ τ : Type} [Preorder W] {S : Simulation W σ τ} {P : Fact W}

open Coupling

section Seeds

variable {f g c d : Frame Question} {seed seed' : Value Question}
  {seeds seeds' : List (Value Question)}

theorem frame_child : S.values (seed :: seeds) (seed' :: seeds') ⊓ S.frame f g ≤
    S.frame (f.child seed) (g.child seed') := by
  rintro w ⟨hs, hf⟩
  exact { hf with exitCode := rfl, stack := .cons (List.forall₂_cons.mp hs).1 .nil }

theorem frame_acquire (hf : P ≤ S.frame f g) (hc : P ≤ S.frame c d) (acquires : Bool) :
    P ≤ S.frame (if acquires then { f with target := c.target, slot := c.slot } else f)
      (if acquires then { g with target := d.target, slot := d.slot } else g) := by
  intro w hw
  have hc := hc w hw
  split
  · exact { hf w hw with target := hc.target, selected := hc.selected, slot := hc.slot }
  · exact hf w hw

theorem stack_acquire (hc : P ≤ S.frame c d) (acquires : Bool) :
    P ≤ S.values (if acquires then c.stack.reverse else [])
      (if acquires then d.stack.reverse else []) := by
  intro w hw
  split
  · exact List.forall₂_reverse_iff.mpr (hc w hw).stack
  · exact .nil

end Seeds

theorem snapshot (label : String) (depth : Nat) :
    S.whole.Follows P (Eval.snapshot label depth) (Eval.snapshot label depth) any where
  run _ hi := .both _ () () le_rfl rfl rfl trivial ⟨hi.frame, hi.outputs, hi.memory⟩
  stays h := h

variable {nested : Bytes → Eval σ UInt8} {nested' : Bytes → Eval τ UInt8}
  (H : ∀ program, S.whole.Follows ⊤ (nested program) (nested' program) same)
include H

theorem iterate (flags : LoopFlags) (program : Bytes) (index : Nat)
    {seeds seeds' : List (Value Question)} (hl : seeds.length = seeds'.length) :
    S.whole.Follows (S.values seeds seeds') (Eval.iterate nested flags program index seeds)
      (Eval.iterate nested' flags program index seeds')
      fun a b => S.values a.1 b.1 ⊓ S.values a.2 b.2 := by
  induction seeds generalizing index seeds' with
  | nil =>
    cases seeds' with
    | nil => exact .pure fun _ _ => ⟨.nil, .nil⟩
    | cons => simp at hl
  | cons seed seeds ih =>
    cases seeds' with
    | nil => simp at hl
    | cons seed' seeds' =>
      have hl : seeds.length = seeds'.length := by simpa using hl
      simp only [Eval.iterate]
      apply onFrameRead
      intro f g r
      apply (setFrame frame_child).bind_any
      intro _ _
      apply ((H program).before le_top).bind_same
      intro _
      apply onFrameRead
      intro c d r'
      rw [r'.exitCode]
      apply (report _ _).bind_any
      intro _ _
      generalize flags.stopsOn d.exitCode = stopped
      have rest : S.values (seed :: seeds) (seed' :: seeds') ⊓ S.frame f g ⊓ S.frame c d ≤
          S.values seeds seeds' := fun _ hw => (List.forall₂_cons.mp hw.1.1).2
      have taken : S.values (seed :: seeds) (seed' :: seeds') ⊓ S.frame f g ⊓ S.frame c d ≤ _ :=
        stack_acquire inf_le_right (flags.acquires stopped)
      apply (setFrame (frame_acquire (inf_le_left.trans inf_le_right) inf_le_right _)).bind_any
      intro _ _
      refine .ite (.pure fun w hw => ⟨rest w hw, taken w hw⟩) ?_
      refine ((ih (index + 1) hl).before rest).bind fun a b => .pure fun w hw => ?_
      exact ⟨hw.2.1, List.rel_append (taken w hw.1) hw.2.2⟩

theorem evalLoop (L : S.Fair) (flags : LoopFlags) :
    S.whole.Follows P (Eval.evalLoop S.env₁ nested flags) (Eval.evalLoop S.env₂ nested' flags)
      any := by
  apply L.popWord.bind_same
  intro cap
  apply L.popBytes.bind_same
  intro program
  apply onFrameRead
  intro f g r
  rw [r.size]
  have hl : (f.splitTop (min cap.toNat g.size)).1.length =
      (g.splitTop (min cap.toNat g.size)).1.length := by
    have hs : f.stack.length = g.stack.length := r.size
    simp only [Frame.splitTop, List.length_reverse, List.length_take, hs]
  have rest : P ⊓ S.frame f g ≤ S.frame (f.splitTop (min cap.toNat g.size)).2
      (g.splitTop (min cap.toNat g.size)).2 :=
    fun _ hw => { hw.2 with stack := List.forall₂_drop _ hw.2.stack }
  have seeds : P ⊓ S.frame f g ≤ S.values (f.splitTop (min cap.toNat g.size)).1
      (g.splitTop (min cap.toNat g.size)).1 :=
    fun _ hw => List.forall₂_reverse_iff.mpr (List.forall₂_take _ hw.2.stack)
  apply (setFrame rest).bind_any
  intro _ _
  apply ((iterate H flags program 0 hl).before seeds).bind
  intro a b
  have acquired : P ⊓ S.frame f g ⊓ (S.values a.1 b.1 ⊓ S.values a.2 b.2) ≤ S.values a.2 b.2 :=
    inf_le_right.trans inf_le_right
  refine .ite (.bind_any (L.extend ?_) fun _ _ => L.extend acquired) (L.extend acquired)
  exact inf_le_right.trans inf_le_left

theorem evalInline (L : S.Fair) :
    S.whole.Follows P (Eval.evalInline S.env₁ nested) (Eval.evalInline S.env₂ nested') same := by
  apply L.popBytes.bind_same
  intro program
  apply L.popBool.bind_same
  intro condition
  refine .ite ?_ (.pure fun _ _ => rfl)
  exact ((H program).before le_top).bind_same fun _ => .pure fun _ _ => rfl

/-- Instructions that are not operations give related results if nested programs do. -/
theorem step (L : S.Fair) (depth : Nat) (i : Instruction) (hi : i.Encodable)
    (hp : ∀ op, i ≠ .plain op) :
    S.whole.Follows P (Eval.step S.env₁ nested depth i) (Eval.step S.env₂ nested' depth i)
      same := by
  have done : S.whole.Follows P (pure none : Eval σ (Option UInt8)) (pure none) same :=
    .pure fun _ _ => rfl
  cases i with
  | push value => exact (L.pushWord value).bind_any fun _ _ => done
  | pushBytes bytes => exact (L.pushShort hi).bind_any fun _ _ => done
  | evalLoop flags => exact (evalLoop H L flags).bind_any fun _ _ => done
  | assert exitCode => exact L.popBool.bind_same fun _ => .pure fun _ _ => rfl
  | debug label => exact (snapshot label depth).bind_any fun _ _ => done
  | eval => exact evalInline H L
  | plain op => exact (hp op rfl).elim

theorem stepBy (L : S.Fair) {exec : Op → Eval σ Unit} {exec' : Op → Eval τ Unit}
    (E : ∀ op, S.whole.Follows ⊤ (exec op) (exec' op) any) (depth : Nat) (i : Instruction)
    (hi : i.Encodable) :
    S.whole.Follows P (Eval.stepBy S.env₁ exec nested depth i)
      (Eval.stepBy S.env₂ exec' nested' depth i) same := by
  cases i with
  | plain op => exact ((E op).before le_top).bind_any fun _ _ => .pure fun _ _ => rfl
  | _ => exact step H L depth _ hi fun _ h => nomatch h

end Simulation.Fair

namespace Simulation

variable {W σ τ : Type} [Preorder W] {S : Simulation W σ τ} {st : Eval.Stepper σ}
  {st' : Eval.Stepper τ}

open Coupling

def Steps (S : Simulation W σ τ) (st : Eval.Stepper σ) (st' : Eval.Stepper τ) : Prop :=
  ∀ {nested : Bytes → Eval σ UInt8} {nested' : Bytes → Eval τ UInt8},
    (∀ program, S.whole.Follows ⊤ (nested program) (nested' program) same) →
    ∀ (depth : Nat) (i : Instruction), i.Encodable →
      S.whole.Follows ⊤ (st nested depth i) (st' nested' depth i) same

theorem Lawful.steps (L : S.Lawful) : S.Steps (Eval.step S.env₁) (Eval.step S.env₂) := by
  intro nested nested' H depth i hi
  rw [← Eval.stepBy_execute, ← Eval.stepBy_execute]
  exact L.toFair.stepBy H (fun op => L.execute op) depth i hi

namespace Fair

variable (L : S.Fair) (H : S.Steps st st')
include L H

theorem runListBy {nested : Bytes → Eval σ UInt8} {nested' : Bytes → Eval τ UInt8}
    (hn : ∀ program, S.whole.Follows ⊤ (nested program) (nested' program) same) (depth : Nat)
    (fault : Option EncodingError) (is : List Instruction) (hi : ∀ i ∈ is, i.Encodable) :
    S.whole.Follows ⊤ (Eval.runListBy st nested depth fault is)
      (Eval.runListBy st' nested' depth fault is) same := by
  induction is with
  | nil =>
    cases fault with
    | none => exact .pure fun _ _ => rfl
    | some cause => exact L.throw _
  | cons i rest ih =>
    rw [List.forall_mem_cons] at hi
    apply (H hn depth i hi.1).bind_same
    intro stop
    cases stop with
    | none => exact ih hi.2
    | some exitCode =>
      refine (modifyFrame fun _ hf => ?_).bind_any fun _ _ => .pure fun _ _ => rfl
      exact { hf with exitCode := rfl }

/-- On the right frames at the same depth may have `more` levels left than on the left. -/
theorem runFrameBy (limit levels more : Nat) (hm : more = 0 ∨ S.OneSided) (program : Bytes) :
    S.whole.Follows ⊤ (Eval.runFrameBy st limit levels program)
      (Eval.runFrameBy st' (limit + more) (levels + more) program) same := by
  have hi := Listing.encodable program
  induction levels generalizing program with
  | zero =>
    rcases more with _ | more
    · rw [Nat.add_zero, Nat.add_zero]
      exact L.runListBy H (fun _ => L.throw _) _ _ _ hi
    · have ended : S.OneSided := hm.resolve_left (Nat.succ_ne_zero more)
      have hd : limit + (more + 1) - (more + 1) = limit := Nat.add_sub_cancel ..
      rw [Nat.zero_add, Eval.runFrameBy, Eval.runFrameBy, hd]
      exact L.runListBy H (fun _ => ended.throw _ _) _ _ _ hi
  | succ levels ih =>
    have hd : limit + more - (levels + more + 1) = limit - (levels + 1) := by omega
    rw [Nat.succ_add, Eval.runFrameBy, Eval.runFrameBy, hd]
    exact L.runListBy H (fun p => ih p (Listing.encodable p)) _ _ _ hi

omit H in
theorem levels : ∃ more, (more = 0 ∨ S.OneSided) ∧
    S.config'.maxEvalDepth.toNat = S.config.maxEvalDepth.toNat + more := by
  rcases L.limits with he | ⟨hl, ended⟩
  · exact ⟨0, Or.inl rfl, by rw [he, Nat.add_zero]⟩
  · have h := UInt64.le_iff_toNat_le.mp hl.maxEvalDepth
    exact ⟨_, Or.inr ended, (Nat.add_sub_of_le h).symm⟩

omit H in
theorem start {s : Session σ} {t : Session τ} {w : W} (program : Program)
    (hi : S.inv (s, Trace.new S.config) (t, Trace.new S.config') w) :
    S.StateRel (S.env₁.start program s) (S.env₂.start program t) w := by
  have hv : S.values (List.replicate program.outputs.toNat (.known []))
      (List.replicate program.outputs.toNat (.known [])) w :=
    List.forall₂_same.mpr fun v hv => (List.mem_replicate.mp hv).2 ▸ L.short [] w (by decide)
  exact ⟨⟨rfl, L.origin w, rfl, rfl, rfl, rfl, .nil⟩, hv, hi⟩

theorem runBy {s : Session σ} {t : Session τ} {w : W} (program : Program)
    (hi : S.inv (s, Trace.new S.config) (t, Trace.new S.config') w) :
    S.whole.Result w same (S.env₁.runBy st program s) (S.env₂.runBy st' program t) := by
  obtain ⟨more, hm, hl⟩ := L.levels
  have hd : S.env₂.config.maxEvalDepth.toNat = _ := hl
  rw [Env.runBy, Env.runBy, hd]
  exact (L.runFrameBy H _ _ more hm program.toBytes).run trivial (L.start program hi)

end Fair

theorem Lawful.run (L : S.Lawful) {s : Session σ} {t : Session τ} {w : W} (program : Program)
    (hi : S.inv (s, Trace.new S.config) (t, Trace.new S.config') w) :
    S.whole.Result w same (S.env₁.run program s) (S.env₂.run program t) := by
  rw [← Env.runBy_step, ← Env.runBy_step]
  exact L.toFair.runBy L.steps program hi

end Simulation

end ChainRead
