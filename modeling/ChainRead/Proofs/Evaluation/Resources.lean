import ChainRead.Proofs.Evaluation.Control
import ChainRead.Source.Chain

/-! # What an evaluation may use

The limits hold at every step of an evaluation and for every frame that is live then, be it the
running one or one that waits. A frame for a seed holds one value from the start, for which there is
room since the seed had a place on the stack of its parent.
-/

namespace ChainRead

variable {σ : Type}

theorem Trace.aside_proofLimit {Q : Type} : Aside (proofLimit (Q := Q)) where
  pay k t := by
    rcases h : t.charged k with _ | _
    · rw [pay_of_not_charged h]
      cases k <;> rfl
    · rw [pay_of_charged h]
  select _ _ _ := rfl
  slot s _ := (SameCharges.record (.storage s)).bound
  require _ := SameCharges.require.bound

/-- No call changes the limit on proofs, whether or not it fails. -/
theorem TraceCall.run_proofLimit {Q : Type} (c : TraceCall Q) (t : Trace Q) :
    (c.run t).2.proofLimit = t.proofLimit := by
  cases c with
  | addTarget a r => exact Trace.aside_proofLimit.addTarget a r t
  | requireTarget a => exact Trace.aside_proofLimit.requireTarget a t
  | addStorage a s => exact Trace.aside_proofLimit.addStorage a s t
  | addHashed hash v =>
    rw [run, Trace.addHashed_eq]
    exact Trace.aside_proofLimit.register _ (fun _ => (Trace.SameCharges.record _).bound) t
  | alloc n => exact (Trace.silent_alloc n t).charges.bound
  | allocWords n =>
    have h := (Trace.silent_allocWords n t).charges.bound
    rw [run, Fallible.bind_apply]
    rcases hr : Trace.allocWords n t with ⟨_ | _, _⟩ <;> rw [hr] at h <;> exact h

/-- What holds of a state while no limit is exceeded. -/
structure State.Within (config : Config) (outputs : Nat) (s : State σ) : Prop where
  maxStack : s.frame.maxStack = config.maxStackSize.toNat
  size : s.frame.size ≤ config.maxStackSize.toNat
  outputs : s.outputs.length = outputs
  proofs : s.trace.Balanced config.proofLimit

/-- What holds of the last state even if a limit was exceeded: a proof that is not left is counted
but does not raise the limit. -/
structure State.Bounded (config : Config) (outputs : Nat) (s : State σ) : Prop where
  size : s.frame.size ≤ config.maxStackSize.toNat
  outputs : s.outputs.length = outputs
  proofLimit : s.trace.proofLimit = config.proofLimit

namespace Invariant

def resources (config : Config) (outputs : Nat) : Invariant σ where
  holds := State.Within config outputs
  remains := State.Bounded config outputs

variable {config : Config} {outputs : Nat}

theorem resources_lawful : (resources config outputs : Invariant σ).Lawful where
  fails h := ⟨h.size, h.outputs, h.proofs.bound⟩
  session _ h := ⟨h.maxStack, h.size, h.outputs, h.proofs⟩
  events _ h := ⟨h.maxStack, h.size, h.outputs, h.proofs⟩
  outputs _ hl h := ⟨h.maxStack, h.size, hl.trans h.outputs, h.proofs⟩
  frame hf h := by
    have hm := h.maxStack
    refine ⟨hf.maxStack.trans hm, ?_, h.outputs, h.proofs⟩
    exact hf.size.trans (Nat.max_le.mpr ⟨h.size, Nat.le_of_eq hm⟩)
  trace c := by
    intro s h
    rw [Eval.onTrace, Fallible.zoom_apply]
    rcases hr : c.run s.trace with ⟨e | _, t⟩
    · have hl := c.run_proofLimit s.trace
      rw [hr] at hl
      exact ⟨h.size, h.outputs, hl.trans h.proofs.bound⟩
    · have hb := TraceCall.run_balanced (c := c) (fun _ => by rw [hr]) h.proofs
      rw [hr] at hb
      exact ⟨h.maxStack, h.size, h.outputs, hb⟩

end Invariant

def Waiting.Within (config : Config) : Waiting → Prop
  | inline _ => True
  | loop _ parent _ => parent.maxStack = config.maxStackSize.toNat ∧
    parent.size ≤ config.maxStackSize.toNat ∧ 0 < config.maxStackSize.toNat

/-- The frames that wait are not too many, and each is within its limit. -/
structure Held (config : Config) (K : List Waiting) : Prop where
  deep : K.length ≤ config.maxEvalDepth.toNat
  waiting : ∀ w ∈ K, w.Within config

def Stage.Within (config : Config) (outputs : Nat) : Stage σ → Prop :=
  All (fun x => x.state.Within config outputs ∧ Held config x.waiting)
    fun p => p.2.Bounded config outputs

namespace Env

open Invariant

variable {env : Env σ} {outputs : Nat} {K : List Waiting} {rest : Cursor} {s : State σ}

theorem lawful (env : Env σ) (outputs : Nat) :
    (resources env.config outputs : Invariant σ).Lawful :=
  resources_lawful

theorem within_bind {α : Type} {f : α → State σ → Stage σ} {x : Eval σ α}
    (hx : (resources env.config outputs).Stays x) (hs : s.Within env.config outputs)
    (hf : ∀ a t, t.Within env.config outputs → (f a t).Within env.config outputs) :
    (Stage.bind (x s) f).Within env.config outputs := by
  have hp := hx s hs
  rcases hr : x s with ⟨e | a, t⟩
  · exact hp.of_error hr
  · exact hf a t (hp.of_ok hr)

theorem within_next {x : Eval σ (Option UInt8)} (hx : (resources env.config outputs).Stays x)
    (hs : s.Within env.config outputs) (hK : Held env.config K) :
    (Stage.next rest K (x s)).Within env.config outputs := by
  refine within_bind hx hs fun stop t ht => ?_
  cases stop with
  | none => exact ⟨ht, hK⟩
  | some exitCode => exact ⟨⟨ht.maxStack, ht.size, ht.outputs, ht.proofs⟩, hK⟩

theorem within_enter (hs : s.Within env.config outputs) (hK : ∀ w ∈ K, w.Within env.config)
    (program : Bytes) : (env.enter program K s).Within env.config outputs := by
  rw [enter]
  split
  · next deep => exact ⟨hs, deep, hK⟩
  · exact (lawful env outputs).fails hs

theorem within_leaveLoop (hs : s.Within env.config outputs) (hK : Held env.config K)
    (loop : Looping) : (leaveLoop rest loop K s).Within env.config outputs := by
  refine within_next ?_ hs hK
  exact ((lawful env outputs).extend _).bind fun _ => .pure _

theorem within_nextSeed (hs : s.Within env.config outputs) (hK : Held env.config K) {loop : Looping}
    (hl : loop.seeds ≠ [] → 0 < env.config.maxStackSize.toNat) :
    (env.nextSeed rest loop K s).Within env.config outputs := by
  obtain ⟨flags, program, index, seeds, taken⟩ := loop
  cases seeds with
  | nil => exact within_leaveLoop hs hK _
  | cons seed seeds =>
    have room := hl (List.cons_ne_nil seed seeds)
    have child : State.Within env.config outputs { s with frame := s.frame.child seed } :=
      ⟨hs.maxStack, room, hs.outputs, hs.proofs⟩
    refine within_enter child ?_ program
    exact List.forall_mem_cons.mpr ⟨⟨hs.maxStack, hs.size, room⟩, hK.waiting⟩

/-- The parent of a frame for a seed takes over its registers and has its own stack. -/
theorem within_endIteration (hs : s.Within env.config outputs) (hK : Held env.config K)
    {parent : Frame Question} {loop : Looping}
    (hp : (Waiting.loop rest parent loop).Within env.config) :
    (env.endIteration rest parent loop K s).Within env.config outputs := by
  obtain ⟨maxStack, size, room⟩ := hp
  have leave : (s.leave loop.flags parent loop.index s.frame.exitCode).Within env.config
      outputs := by
    refine ⟨?_, ?_, hs.outputs, hs.proofs⟩
    · unfold State.leave
      dsimp only
      split <;> exact maxStack
    · unfold State.leave
      dsimp only
      split <;> exact size
  rw [endIteration]
  split
  · exact within_leaveLoop leave hK _
  · exact within_nextSeed leave hK fun _ => room

theorem within_perform (hs : s.Within env.config outputs) (hK : Held env.config K)
    (i : Instruction) : (env.perform rest K s i).Within env.config outputs := by
  have L := lawful env outputs
  cases i with
  | eval =>
    refine within_bind (.bind (L.popBytes env) fun _ => .bind (L.popBool env) fun _ => .pure _) hs
      ?_
    rintro ⟨program, _ | _⟩ t ht
    · exact ⟨ht, hK⟩
    · have hw : (Waiting.inline rest).Within env.config := trivial
      exact within_enter ht (List.forall_mem_cons.mpr ⟨hw, hK.waiting⟩) program
  | evalLoop flags =>
    refine within_bind (.bind (L.popWord env) fun _ => .bind (L.popBytes env) fun _ => .pure _) hs
      ?_
    rintro ⟨cap, program⟩ t ht
    have split : State.Within env.config outputs
        { t with frame := (t.frame.splitTop (min cap.toNat t.frame.size)).2 } :=
      ⟨ht.maxStack, (List.drop_sublist _ _).length_le.trans ht.size, ht.outputs, ht.proofs⟩
    refine within_nextSeed split hK fun hl => ?_
    -- a seed had a place on the stack, so the limit is above zero
    have hst : t.frame.stack ≠ [] := fun he => hl (by simp [he])
    exact (List.length_pos_iff.mpr hst).trans_le ht.size
  | _ => exact within_next (L.step env _ _ rfl) hs hK

theorem within_advance {x : Execution σ}
    (h : (Stage.running x).Within env.config outputs) :
    (env.advance x).Within env.config outputs := by
  obtain ⟨s, c | exitCode, K⟩ := x
  · obtain ⟨hs, hK⟩ := h
    show (env.read c K s).Within env.config outputs
    rw [read]
    rcases c.next with _ | ⟨cause | i, rest⟩
    · exact ⟨hs, hK⟩
    · exact (lawful env outputs).fails hs
    · exact within_perform hs hK i
  · obtain ⟨hs, hK⟩ := h
    cases K with
    | nil => exact (lawful env outputs).fails hs
    | cons w K =>
      have hK' : Held env.config K :=
        ⟨Nat.le_of_succ_le hK.deep, fun w hw => hK.waiting w (List.mem_cons_of_mem _ hw)⟩
      have hw := hK.waiting w List.mem_cons_self
      show (env.resume w K exitCode s).Within env.config outputs
      cases w with
      | inline rest => exact within_next (x := pure _) (.pure _) hs hK'
      | loop rest parent loop => exact within_endIteration hs hK' hw

theorem within_begin (env : Env σ) (program : Program) (session : Session σ) :
    (env.begin program session).Within env.config program.outputs.toNat :=
  ⟨⟨rfl, Nat.zero_le _, List.length_replicate, Trace.new_balanced _⟩, Nat.zero_le _, nofun⟩

end Env

/-! ## Live frames -/

namespace Execution

/-- The live frames with their depths, innermost first, if `f` is the running one. A program that
runs in place has the frame of the one that runs it. -/
def framesFrom (f : Frame Question) : List Waiting → List (Nat × Frame Question)
  | [] => [(0, f)]
  | .inline _ :: K => (K.length + 1, f) :: framesFrom f K
  | .loop _ parent _ :: K => (K.length + 1, f) :: framesFrom parent K

def frames (x : Execution σ) : List (Nat × Frame Question) := framesFrom x.state.frame x.waiting

theorem framesFrom_within {config : Config} {f : Frame Question} {K : List Waiting}
    (hf : f.size ≤ config.maxStackSize.toNat) (hK : Held config K) :
    ∀ p ∈ framesFrom f K, p.1 ≤ config.maxEvalDepth.toNat ∧
      p.2.size ≤ config.maxStackSize.toNat := by
  obtain ⟨deep, waiting⟩ := hK
  induction K generalizing f with
  | nil => simpa [framesFrom] using hf
  | cons w K ih =>
    rw [List.forall_mem_cons] at waiting
    have first : K.length + 1 ≤ config.maxEvalDepth.toNat ∧
        f.size ≤ config.maxStackSize.toNat := ⟨deep, hf⟩
    cases w with
    | inline rest =>
      exact List.forall_mem_cons.mpr ⟨first, ih hf (Nat.le_of_succ_le deep) waiting.2⟩
    | loop rest parent loop =>
      exact List.forall_mem_cons.mpr
        ⟨first, ih waiting.1.2.1 (Nat.le_of_succ_le deep) waiting.2⟩

end Execution

theorem State.Bounded.uniqueProofs {config : Config} {outputs : Nat} {s : State σ}
    (h : s.Bounded config outputs) :
    s.trace.uniqueProofs ≤ min config.maxUniqueProofs.toNat 256 := by
  have hl : s.trace.proofLimit = min config.maxUniqueProofs.toNat 256 := h.proofLimit
  unfold Trace.uniqueProofs
  omega

/-- At every step of a program's evaluation the live frames stand no deeper and hold no more values
than the limits say, there are as many outputs as the program declares, whatever the programs that
it runs declare, and the trace counts the distinct proofs that its needs want, which are within
their limit. The stack, the outputs and the count also keep to that in the last state, whether or
not the evaluation failed. -/
theorem evaluation_within (env : Env σ) (program : Program) (session : Session σ) :
    (∀ x, env.Visits program session (.running x) →
      (∀ p ∈ x.frames, p.1 ≤ env.config.maxEvalDepth.toNat ∧
        p.2.size ≤ env.config.maxStackSize.toNat) ∧
      x.state.outputs.length = program.outputs.toNat ∧
      x.state.trace.uniqueProofs = (ProofKey.keys x.state.trace.needs).eraseDups.length ∧
      x.state.trace.uniqueProofs ≤ min env.config.maxUniqueProofs.toNat 256) ∧
    let s := (env.run program session).2
    s.frame.size ≤ env.config.maxStackSize.toNat ∧ s.outputs.length = program.outputs.toNat ∧
      s.trace.uniqueProofs ≤ min env.config.maxUniqueProofs.toNat 256 := by
  have visited {p : Stage σ} (h : env.Visits program session p) :
      p.Within env.config program.outputs.toNat :=
    h.preserves (fun _ => Env.within_advance) (env.within_begin program session)
  refine ⟨fun x hx => ?_, ?_⟩
  · obtain ⟨state, held⟩ := visited hx
    obtain ⟨count, _⟩ := state.proofs.uniqueProofs
    have bounded := (Env.lawful env program.outputs.toNat).fails state
    exact ⟨Execution.framesFrom_within state.size held, state.outputs, count.symm,
      State.Bounded.uniqueProofs bounded⟩
  · have bounded : (env.run program session).2.Bounded env.config program.outputs.toNat :=
      visited (env.visits_run program session)
    exact ⟨bounded.size, bounded.outputs, bounded.uniqueProofs⟩

/-- Below a frame with a full stack a loop's program runs another one in place, which stands as deep
as the limit allows. -/
theorem evaluation_within_nested :
    let env : Env Nat := ⟨Chain.source {}, ⟨3, 2, 1, 0, 0, true⟩⟩
    let inner : Bytes := 7 :: Instruction.encodeAll [.plain .stackSize]
    let body : Bytes := 8 :: Instruction.encodeAll [.push 1, .pushBytes inner, .eval]
    let program : Program := ⟨2, Instruction.encodeAll
      [.push 9, .pushBytes body, .push 1, .evalLoop {}]⟩
    ∃ x, env.Visits program { source := 0 } (.running x) ∧ x.waiting.length = 2 ∧
      (∀ p ∈ x.frames, p.1 ≤ 2 ∧ p.2.size ≤ 3) ∧ x.state.outputs.length = 2 ∧
      x.state.trace.uniqueProofs ≤ 1 := by
  intro env inner body program
  have hd : (env.tick^[7] (env.begin program { source := 0 })).depth? = some 2 := by
    decide +kernel
  obtain ⟨x, hx, deep⟩ := Stage.exists_of_depth? hd
  have visits : env.Visits program { source := 0 } (.running x) := ⟨7, hx⟩
  obtain ⟨frames, outputs, _, proofs⟩ := (evaluation_within env program { source := 0 }).1 x visits
  exact ⟨x, visits, deep, frames, outputs, proofs⟩

end ChainRead
