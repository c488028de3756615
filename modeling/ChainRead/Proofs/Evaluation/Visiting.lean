import ChainRead.Proofs.Evaluation.Control
import ChainRead.Proofs.Evaluation.Nesting

/-! # Simulations of an evaluation with itself

When a simulation compares an evaluation with itself, it says something of the values in one state.
It says so at every step: of the running frame, of the outputs, and of the values that the frames
that wait will use again.
-/

namespace ChainRead

variable {W σ α : Type} [Preorder W]

open Coupling

namespace Simulation

/-- Both sides of a simulation are the evaluations with `env`, and it ends only when they fail. -/
structure Diagonal (S : Simulation W σ σ) (env : Env σ) : Prop extends S.Fair where
  env_left : S.env₁ = env
  env_right : S.env₂ = env
  failed_of_ended {p q} : S.ended p q → ∃ e, p.1 = .error e
  execute (op : Op) : S.whole.Follows ⊤ (Eval.execute S.env₁ op) (Eval.execute S.env₂ op) any

namespace Diagonal

variable {S : Simulation W σ σ} {env : Env σ} (D : S.Diagonal env)
include D

theorem returns {P : Fact W} {Q : α → α → Fact W} {x : Eval σ α} (hx : S.whole.Follows P x x Q)
    {s t : State σ} {w : W} {a : α} (hP : P w) (hs : S.StateRel s s w) (h : x s = (.ok a, t)) :
    ∃ v, w ≤ v ∧ S.StateRel t t v ∧ Q a a v := by
  have hr := hx.run hP hs
  rw [h] at hr
  cases hr with
  | both v b c le left right post inv =>
    cases left
    cases right
    exact ⟨v, le, inv, post⟩
  | halted ended =>
    obtain ⟨e, he⟩ := D.failed_of_ended ended
    cases he

theorem popBytes {P : Fact W} : S.whole.Follows P (Eval.popBytes env) (Eval.popBytes env) same := by
  have h := D.toFair.popBytes (P := P)
  rwa [D.env_left, D.env_right] at h

theorem popBool {P : Fact W} : S.whole.Follows P (Eval.popBool env) (Eval.popBool env) same := by
  have h := D.toFair.popBool (P := P)
  rwa [D.env_left, D.env_right] at h

theorem popWord {P : Fact W} : S.whole.Follows P (Eval.popWord env) (Eval.popWord env) same := by
  have h := D.toFair.popWord (P := P)
  rwa [D.env_left, D.env_right] at h

theorem step (depth : Nat) {i : Instruction} (hi : i.Encodable) :
    S.whole.Follows ⊤ (Eval.step env (fun _ => pure 0) depth i)
      (Eval.step env (fun _ => pure 0) depth i) same := by
  have h : S.whole.Follows ⊤
      (Eval.stepBy S.env₁ (Eval.execute S.env₁) (fun _ => pure 0) depth i)
      (Eval.stepBy S.env₂ (Eval.execute S.env₂) (fun _ => pure 0) depth i) same :=
    D.toFair.stepBy (fun _ => .pure fun _ _ => rfl) D.execute depth i hi
  rwa [D.env_left, D.env_right, Eval.stepBy_execute] at h

theorem executes {s t : State σ} {w : W} {op : Op} {a : Unit} (hs : S.StateRel s s w)
    (h : Eval.execute env op s = (.ok a, t)) : ∃ v, w ≤ v ∧ S.StateRel t t v := by
  have hx := D.execute op
  rw [D.env_left, D.env_right] at hx
  obtain ⟨v, hw, ht, -⟩ := D.returns hx trivial hs h
  exact ⟨v, hw, ht⟩

end Diagonal

end Simulation

/-- What a simulation says of the values that a frame that waits will use again. -/
def Waiting.Related (S : Simulation W σ σ) (w : W) : Waiting → Prop
  | inline _ => True
  | loop _ parent l =>
    S.frame parent parent w ∧ S.values l.seeds l.seeds w ∧ S.values l.taken l.taken w

theorem Waiting.Related.mono {S : Simulation W σ σ} {w v : W} {k : Waiting} (h : k.Related S w)
    (hw : w ≤ v) : k.Related S v := by
  cases k with
  | inline => exact trivial
  | loop rest parent l =>
    exact ⟨(S.frame _ _).monotone hw h.1, (S.values _ _).monotone hw h.2.1,
      (S.values _ _).monotone hw h.2.2⟩

/-- A simulation relates an evaluation that goes on to itself. -/
structure Execution.Related (S : Simulation W σ σ) (w : W) (x : Execution σ) : Prop where
  state : S.StateRel x.state x.state w
  waiting : ∀ k ∈ x.waiting, k.Related S w

def Stage.Related (S : Simulation W σ σ) (w : W) : Stage σ → Prop :=
  All (fun x => ∃ v, w ≤ v ∧ x.Related S v) fun _ => True

theorem Stage.Related.since {S : Simulation W σ σ} {w v : W} {p : Stage σ} (h : p.Related S v)
    (hw : w ≤ v) : p.Related S w := by
  cases p with
  | running =>
    obtain ⟨u, hu, hx⟩ := h
    exact ⟨u, hw.trans hu, hx⟩
  | finished => exact trivial

theorem Execution.Related.stage {S : Simulation W σ σ} {w : W} {x : Execution σ}
    (h : x.Related S w) : (Stage.running x).Related S w := ⟨w, le_rfl, h⟩

namespace Env

open Simulation

variable {S : Simulation W σ σ} {env : Env σ} (D : S.Diagonal env) {K : List Waiting}
  {rest : Cursor} {s : State σ} {w : W}

section

include D

theorem related_bind {P : Fact W} {Q : α → α → Fact W} {x : Eval σ α} {f : α → State σ → Stage σ}
    (hx : S.whole.Follows P x x Q) (hP : P w) (hs : S.StateRel s s w)
    (hf : ∀ a t v, w ≤ v → S.StateRel t t v → Q a a v → (f a t).Related S v) :
    (Stage.bind (x s) f).Related S w := by
  rcases hr : x s with ⟨e | a, t⟩
  · exact trivial
  · obtain ⟨v, hw, ht, hQ⟩ := D.returns hx hP hs hr
    exact (hf a t v hw ht hQ).since hw

theorem related_next {P : Fact W} {x : Eval σ (Option UInt8)}
    {Q : Option UInt8 → Option UInt8 → Fact W} (hx : S.whole.Follows P x x Q) (hP : P w)
    (hs : S.StateRel s s w) (hK : ∀ k ∈ K, k.Related S w) :
    (Stage.next rest K (x s)).Related S w := by
  refine related_bind D hx hP hs fun stop t v hw ht _ => ?_
  have hK : ∀ k ∈ K, k.Related S v := fun k hk => (hK k hk).mono hw
  cases stop with
  | none => exact Execution.Related.stage ⟨ht, hK⟩
  | some exitCode =>
    exact Execution.Related.stage
      ⟨⟨{ ht.frame with exitCode := rfl }, ht.outputs, ht.memory⟩, hK⟩

omit D in
theorem related_enter (program : Bytes) (hs : S.StateRel s s w) (hK : ∀ k ∈ K, k.Related S w) :
    (env.enter program K s).Related S w := by
  rw [enter]
  split
  · exact Execution.Related.stage ⟨hs, hK⟩
  · exact trivial

theorem related_leaveLoop (hs : S.StateRel s s w) (hK : ∀ k ∈ K, k.Related S w) {l : Looping}
    (hl : (Waiting.loop rest s.frame l).Related S w) : (leaveLoop rest l K s).Related S w := by
  obtain ⟨-, hseeds, htaken⟩ := hl
  let kept := (if l.flags.keepArgs then l.seeds else []) ++ l.taken
  have hkept : S.values kept kept w := by
    refine List.rel_append ?_ htaken
    split
    · exact hseeds
    · exact .nil
  have h : S.whole.Follows (S.values kept kept)
      (Eval.onFrame (Frame.extend kept) >>= fun _ => pure none)
      (Eval.onFrame (Frame.extend kept) >>= fun _ => pure (none : Option UInt8)) same :=
    (D.toFair.extend le_rfl).bind_any fun _ _ => .pure fun _ _ => rfl
  exact related_next D h hkept hs hK

theorem related_nextSeed (hs : S.StateRel s s w) (hK : ∀ k ∈ K, k.Related S w) {l : Looping}
    (hl : (Waiting.loop rest s.frame l).Related S w) : (env.nextSeed rest l K s).Related S w := by
  obtain ⟨flags, program, index, seeds, taken⟩ := l
  cases seeds with
  | nil => exact related_leaveLoop D hs hK hl
  | cons seed seeds =>
    obtain ⟨hf, hseeds, htaken⟩ := hl
    have child : S.StateRel { s with frame := s.frame.child seed }
        { s with frame := s.frame.child seed } w :=
      ⟨Fair.frame_child w ⟨hseeds, hf⟩, hs.outputs, hs.memory⟩
    refine related_enter program child (List.forall_mem_cons.mpr ⟨?_, hK⟩)
    exact ⟨hs.frame, (List.forall₂_cons.mp hseeds).2, htaken⟩

theorem related_endIteration (hs : S.StateRel s s w) (hK : ∀ k ∈ K, k.Related S w)
    {parent : Frame Question} {l : Looping} (hl : (Waiting.loop rest parent l).Related S w) :
    (env.endIteration rest parent l K s).Related S w := by
  obtain ⟨hf, hseeds, htaken⟩ := hl
  have frame := Fair.frame_acquire (P := S.frame parent parent ⊓ S.frame s.frame s.frame)
    inf_le_left inf_le_right (decide (l.flags.Acquires s.frame.exitCode)) w ⟨hf, hs.frame⟩
  have acquired := Fair.stack_acquire (P := S.frame s.frame s.frame) le_rfl
    (decide (l.flags.Acquires s.frame.exitCode)) w hs.frame
  simp only [decide_eq_true_eq] at frame acquired
  have leave : S.StateRel (s.leave l.flags parent l.index s.frame.exitCode)
      (s.leave l.flags parent l.index s.frame.exitCode) w :=
    ⟨frame, hs.outputs, hs.memory⟩
  have taken := List.rel_append htaken acquired
  rw [endIteration]
  split
  · exact related_leaveLoop D leave hK ⟨frame, hseeds, taken⟩
  · exact related_nextSeed D leave hK ⟨frame, hseeds, taken⟩

theorem related_perform (hs : S.StateRel s s w) (hK : ∀ k ∈ K, k.Related S w) {i : Instruction}
    (hi : i.Encodable) : (env.perform rest K s i).Related S w := by
  cases i with
  | eval =>
    have operands : S.whole.Follows ⊤ (Eval.inlineOperands env) (Eval.inlineOperands env) same :=
      D.popBytes.bind_same fun _ => D.popBool.bind_same fun _ => .pure fun _ _ => rfl
    refine related_bind D operands trivial hs fun r t v hw ht _ => ?_
    have hK : ∀ k ∈ K, k.Related S v := fun k hk => (hK k hk).mono hw
    obtain ⟨program, _ | _⟩ := r
    · exact Execution.Related.stage ⟨ht, hK⟩
    · exact related_enter program ht (List.forall_mem_cons.mpr ⟨trivial, hK⟩)
  | evalLoop flags =>
    have operands : S.whole.Follows ⊤ (Eval.loopOperands env) (Eval.loopOperands env) same :=
      D.popWord.bind_same fun _ => D.popBytes.bind_same fun _ => .pure fun _ _ => rfl
    refine related_bind D operands trivial hs fun r t v hw ht _ => ?_
    have hK : ∀ k ∈ K, k.Related S v := fun k hk => (hK k hk).mono hw
    obtain ⟨cap, program⟩ := r
    let count := min cap.toNat t.frame.size
    have split : S.StateRel { t with frame := (t.frame.splitTop count).2 }
        { t with frame := (t.frame.splitTop count).2 } v :=
      ⟨{ ht.frame with stack := List.forall₂_drop _ ht.frame.stack }, ht.outputs, ht.memory⟩
    have seeds : S.values (t.frame.splitTop count).1 (t.frame.splitTop count).1 v :=
      List.forall₂_reverse_iff.mpr (List.forall₂_take _ ht.frame.stack)
    exact related_nextSeed D split hK ⟨split.frame, seeds, .nil⟩
  | _ => exact related_next D (D.step K.length hi) trivial hs hK

theorem related_advance {x : Execution σ} (h : (Stage.running x).Related S w) :
    (env.advance x).Related S w := by
  obtain ⟨s, c | exitCode, K⟩ := x <;> obtain ⟨v, hw, hs, hK⟩ := h <;>
    refine Stage.Related.since ?_ hw
  · show (env.read c K s).Related S v
    rw [read]
    rcases hn : c.next with _ | ⟨cause | i, rest⟩
    · exact Execution.Related.stage ⟨hs, hK⟩
    · exact trivial
    · obtain ⟨wire, fits, rfl, -⟩ := Cursor.next_ok hn
      exact related_perform D hs hK (wire.encodable fits)
  · cases K with
    | nil => exact trivial
    | cons k K =>
      obtain ⟨hk, hK'⟩ : k.Related S v ∧ ∀ k ∈ K, k.Related S v := List.forall_mem_cons.mp hK
      show (env.resume k K exitCode s).Related S v
      cases k with
      | inline rest =>
        have done : S.whole.Follows ⊤ (pure (if exitCode = 0 then none else some exitCode))
            (pure (if exitCode = 0 then none else some exitCode)) same := .pure fun _ _ => rfl
        exact related_next D done trivial hs hK'
      | loop rest parent l => exact related_endIteration D hs hK' hk

/-- An evaluation stays related to itself, and the world only grows. -/
theorem related_leads {x y : Execution σ} (h : env.Leads (.running x) (.running y))
    (hx : x.Related S w) : ∃ v, w ≤ v ∧ y.Related S v :=
  h.preserves (fun _ => related_advance D) hx.stage

/-- At every step of a program's evaluation all that is there is related to itself, if the session
was at the beginning. -/
theorem visits_related {program : Program} {session : Session σ} {x : Execution σ}
    (h : env.Visits program session (.running x))
    (hi : S.inv (session, Trace.new env.config) (session, Trace.new env.config) w) :
    ∃ v, x.Related S v := by
  obtain rfl := D.env_left
  have hc : S.config' = S.config := congrArg Env.config D.env_right
  have start := D.toFair.start program (s := session) (t := session) (w := w) (by rwa [hc])
  rw [D.env_right] at start
  obtain ⟨v, -, hx⟩ := related_leads D h ⟨start, nofun⟩
  exact ⟨v, hx⟩

end

end Env

end ChainRead
