import ChainRead.Proofs.Evaluation.Frames

/-! # Simulated instructions

Under a fair simulation an operation that makes no pending value and charges no bytes gives related
results. Two frames with the same registers are read in the same way, so nothing depends on what
their values are.
-/

namespace ChainRead

/-- Two frames that programs cannot tell apart without looking at their values. -/
structure SameRegisters (f g : Frame Question) : Prop where
  target : f.target = g.target
  slot : f.slot = g.slot
  exitCode : f.exitCode = g.exitCode
  size : f.size = g.size

theorem SameRegisters.rfl {f : Frame Question} : SameRegisters f f :=
  ⟨.refl _, .refl _, .refl _, .refl _⟩

def Op.creates : Op → Bool
  | .isContract | .readSlot | .readBytes | .readArray | .readHashedBytes | .readSlots | .concat
  | .slice | .length => true
  | _ => false

def Op.charges : Op → Bool
  | .readBytes | .readArray | .readSlots | .follow | .concat | .slice => true
  | _ => false

namespace Simulation.Fair

variable {W σ τ : Type} [Preorder W] {S : Simulation W σ τ} (L : S.Fair) {P : Fact W}
include L

open Coupling

omit L in
theorem onFrameRead {α : Type} {Q : α → α → Fact W} {x : Frame Question → Eval σ α}
    {y : Frame Question → Eval τ α}
    (h : ∀ f g, SameRegisters f g → S.whole.Follows (P ⊓ S.frame f g) (x f) (y g) Q) :
    S.whole.Follows P (Eval.frame >>= x) (Eval.frame >>= y) Q := by
  refine frameRead.bind fun f g => ⟨fun {w s t} hw hi => ?_, (h f f .rfl).stays⟩
  have hf : S.FrameRel f g w := hw.2
  exact (h f g ⟨hf.target, hf.slot, hf.exitCode, hf.stack.length_eq⟩).run hw hi

omit L in
theorem frame_le_target (f g : Frame Question) : P ⊓ S.frame f g ≤ S.target g.target :=
  fun _ hw => hw.2.selected

theorem readHeader : S.whole.Follows P (Eval.readHeader S.env₁) (Eval.readHeader S.env₂) same := by
  apply onFrameRead
  intro f g r
  rw [r.target, r.slot]
  have h := lift (L.slotCall g.target g.slot) (.bind (.onTrace _) fun _ => .onSession _)
    (.bind (.onTrace _) fun _ => .onSession _)
  exact h.before (frame_le_target f g)

omit L in
theorem moveSlot (m : Word → Word) : S.whole.Follows P
    (Eval.modifyFrame fun f => { f with slot := m f.slot })
    (Eval.modifyFrame fun f => { f with slot := m f.slot }) any :=
  modifyFrame fun _ hf => ⟨hf.target, hf.selected, congrArg m hf.slot, hf.exitCode, hf.maxStack,
    hf.maxStack', hf.stack⟩

theorem binary (op : BinaryOp) :
    S.whole.Follows P (Eval.binary S.env₁ op) (Eval.binary S.env₂ op) any := by
  apply L.pop.bind
  intro b b'
  apply L.pop.bind
  intro a a'
  apply ((L.resolved a a').before inf_le_right).bind_same
  intro x
  apply ((L.resolved b b').before (inf_le_left.trans inf_le_right)).bind_same
  intro y
  exact (L.ofExcept _).bind_same fun m => (L.ofExcept _).bind_same fun n => L.pushWord _

theorem unary (op : UnaryOp) :
    S.whole.Follows P (Eval.unary S.env₁ op) (Eval.unary S.env₂ op) any :=
  L.popWord.bind_same fun _ => L.pushWord _

theorem selectTarget (a : Address) :
    S.whole.Follows P
      (do Eval.modifyFrame fun f => f.select a; Eval.onTrace (Trace.addTarget a false))
      (do Eval.modifyFrame fun f => f.select a; Eval.onTrace (Trace.addTarget a false)) any where
  run {w s t} _ hi := by
    have hm : S.memory.inv { s with frame := s.frame.select a } { t with frame := t.frame.select a }
      w := hi.memory
    cases (L.select a).run trivial hm with
    | both v _ _ le left right post inv =>
      have hf := (S.frame _ _).monotone le hi.frame
      refine .both v () () le left right trivial ⟨?_, ?_, inv⟩
      · exact { hf with target := rfl, selected := post, slot := rfl }
      · exact (S.values _ _).monotone le hi.outputs
    | halted h => exact .halted h
  stays h := (L.select a).stays h

/-- Operations that make no value but known ones and charge nothing give related results. -/
theorem execute (op : Op) (hm : op.creates = false) (hc : op.charges = false) :
    S.whole.Follows P (Eval.execute S.env₁ op) (Eval.execute S.env₂ op) any := by
  cases op with
  | getSlot => exact onFrameRead fun f g r => by rw [r.slot]; exact L.pushWord _
  | getTarget => exact onFrameRead fun f g r => by rw [r.target]; exact L.pushWord _
  | stackSize => exact onFrameRead fun f g r => by rw [r.size]; exact L.pushWord _
  | pushStack =>
    apply L.popSize.bind_same
    intro index
    exact (L.getStack index).bind fun _ _ => L.push inf_le_right
  | pushOutput =>
    apply L.popSize.bind_same
    intro index
    exact (L.output index).bind fun _ _ => L.push inf_le_right
  | setTarget => exact L.popWord.bind_same fun w => L.selectTarget _
  | setOutput =>
    apply L.popSize.bind_same
    intro index
    exact L.pop.bind fun _ _ => L.setOutput index inf_le_right
  | setSlot => exact L.popWord.bind_same fun slot => moveSlot fun _ => slot
  | addSlot => exact L.popWord.bind_same fun offset => moveSlot fun slot => slot + offset
  | follow => cases hc
  | dup =>
    apply L.popSize.bind_same
    intro back
    exact (L.peekStack back).bind fun _ _ => L.push inf_le_right
  | pop => exact L.pop.bind fun _ _ => .pure fun _ _ => trivial
  | swap => exact L.popSize.bind_same fun back => L.swap back
  | keccak => exact L.popBytes.bind_same fun bytes => L.pushWord _
  | binary op => exact L.binary op
  | unary op => exact L.unary op
  | _ => cases hm

end Simulation.Fair

end ChainRead
