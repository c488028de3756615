import ChainRead.Proofs.Evaluation.Simulation
import ChainRead.Proofs.Word.Digits

/-! # Simulated frames

What an evaluation does to its running frame keeps the frames of a simulation related, and so does
popping operands, which resolves them.
-/

namespace ChainRead

namespace Eval

variable {σ α β : Type}

theorem onMachine_bind (x : Fallible EvalError (Machine Question σ) α)
    (f : α → Fallible EvalError (Machine Question σ) β) :
    onMachine (x >>= f) = onMachine x >>= fun a => onMachine (f a) := by
  unfold onMachine
  apply Fallible.zoom_bind
  · intro _ _
    rfl
  · intro _ _ _
    rfl

theorem onFrame_apply (x : Fallible EvalError (Frame Question) α) (s : State σ) :
    onFrame x s = ((x s.frame).1, { s with frame := (x s.frame).2 }) := rfl

theorem onFrame_bind (x : Fallible EvalError (Frame Question) α)
    (f : α → Fallible EvalError (Frame Question) β) :
    (onFrame (x >>= f) : Eval σ β) = onFrame x >>= fun a => onFrame (f a) := by
  funext s
  rw [onFrame_apply, Fallible.bind_apply, Fallible.bind_apply, onFrame_apply]
  rcases x s.frame with ⟨_ | a, f'⟩ <;> rfl

variable (env : Env σ)

theorem popBytes_eq : popBytes env = pop >>= resolve env := onMachine_bind _ _

theorem popWord_eq : popWord env = popBytes env >>= fun bytes =>
    .ofExcept ((Word.ofOperand bytes).mapError .encoding) := onMachine_bind _ _

theorem popSize_eq : popSize env = popWord env >>= fun w =>
    .ofExcept (w.toSize.mapError .encoding) := onMachine_bind _ _

theorem popBool_eq : popBool env = popBytes env >>= fun bytes => pure (isTruthy bytes) :=
  onMachine_bind _ _

def look (f : Session σ → α) : Eval σ α := fun s => (.ok (f s.session), s)

end Eval

namespace Simulation

variable {W σ τ : Type} [Preorder W] {S : Simulation W σ τ} {α β : Type} {P : Fact W}
  {Q : α → α → Fact W}

open Coupling Eval

inductive FrameResult (S : Simulation W σ τ) (w : W) (Q : α → α → Fact W)
    (p q : Except EvalError α × Frame Question) : Prop
  | both (a b : α) (left : p.1 = .ok a) (right : q.1 = .ok b) (post : Q a b w)
      (frame : S.frame p.2 q.2 w)
  | failed (e : EvalError) (left : p.1 = .error e) (right : q.1 = .error e)
  | stopped (e : EvalError) (left : p.1 = .error e) (ended : S.OneSided)

theorem entry {vs ws : List (Value Question)} {w : W} (h : S.values vs ws w) (i : Nat) :
    (∃ v v', vs[i]? = some v ∧ ws[i]? = some v' ∧ S.value v v' w) ∨
      vs[i]? = none ∧ ws[i]? = none := by
  rcases Nat.lt_or_ge i vs.length with hi | hi
  · have hi' : i < ws.length := h.length_eq ▸ hi
    exact Or.inl ⟨vs[i], ws[i], List.getElem?_eq_getElem hi, List.getElem?_eq_getElem hi',
      h.get hi hi'⟩
  · exact Or.inr ⟨List.getElem?_eq_none hi, List.getElem?_eq_none (h.length_eq ▸ hi)⟩

theorem values_set {vs ws : List (Value Question)} {w : W} (h : S.values vs ws w) {v v'}
    (hv : S.value v v' w) (i : Nat) : S.values (vs.set i v) (ws.set i v') w := by
  induction h generalizing i with
  | nil => exact .nil
  | cons h₁ h₂ ih =>
    cases i with
    | zero => exact .cons hv h₂
    | succ i => exact .cons h₁ (ih i)

theorem OneSided.throw (h : S.OneSided) (e : EvalError) (y : Eval τ α) :
    S.whole.Follows P (MonadExcept.throw e) y Q where
  run _ _ := .halted (h e _ _)
  stays h := S.ended_left e h

namespace Fair

variable (L : S.Fair)
include L

theorem onFrame {x y : Fallible EvalError (Frame Question) α}
    (h : ∀ {w f g}, P w → S.frame f g w → S.FrameResult w Q (x f) (y g)) :
    S.whole.Follows P (Eval.onFrame x) (Eval.onFrame y) Q where
  run {w s t} hP hi := by
    cases h hP hi.frame with
    | both a b left right post frame =>
      exact .both w a b le_rfl left right post ⟨frame, hi.outputs, hi.memory⟩
    | failed e left right =>
      refine .halted ?_
      rw [onFrame_apply, onFrame_apply, left, right]
      exact L.failed e hi.memory
    | stopped e left ended =>
      refine .halted ?_
      rw [onFrame_apply, left]
      exact ended e _ _
  stays {s q} h := by
    rw [onFrame_apply]
    rcases (x s.frame).1 with e | a
    · exact S.ended_left e h
    · exact h

theorem pushFrame {f g : Frame Question} {w : W} (hi : S.frame f g w) {v v' : Value Question}
    (hv : S.value v v' w) : S.FrameResult w any (Frame.push v f) (Frame.push v' g) := by
  have hs : f.size = g.size := hi.stack.length_eq
  have hm := hi.maxStack
  have hm' := hi.maxStack'
  by_cases hf : f.size < f.maxStack
  · have hg : g.size < g.maxStack := by
      rcases L.limits with he | ⟨hl, _⟩
      · rw [← he] at hm'
        omega
      · have := UInt64.le_iff_toNat_le.mp hl.maxStackSize
        omega
    simp only [Frame.push, if_pos hf, if_pos hg]
    exact .both () () rfl rfl trivial { hi with stack := .cons hv hi.stack }
  · rcases L.limits with he | ⟨_, ended⟩
    · rw [← he, ← hm] at hm'
      have hg : ¬ g.size < g.maxStack := by omega
      simp only [Frame.push, if_neg hf, if_neg hg]
      exact .failed _ rfl (by rw [hm'])
    · exact .stopped _ (by rw [Frame.push, if_neg hf]) ended

theorem push {v v' : Value Question} (h : P ≤ S.value v v') :
    S.whole.Follows P (Eval.push v) (Eval.push v') any := by
  apply L.onFrame
  intro w f g hP hi
  exact L.pushFrame hi (h _ hP)

theorem pop : S.whole.Follows P Eval.pop Eval.pop S.value := by
  apply L.onFrame
  intro w f g _ hi
  have hst := hi.stack
  rcases hf : f.stack with _ | ⟨v, vs⟩ <;> rcases hg : g.stack with _ | ⟨v', vs'⟩ <;>
    rw [hf, hg] at hst
  · simp only [Frame.pop, hf, hg]
    exact .failed _ rfl rfl
  · cases hst
  · cases hst
  · obtain ⟨hv, hvs⟩ := List.forall₂_cons.mp hst
    simp only [Frame.pop, hf, hg]
    exact .both v v' rfl rfl hv { hi with stack := hvs }

theorem peekStack (back : Nat) : S.whole.Follows P (Eval.onFrame (Frame.peek back))
    (Eval.onFrame (Frame.peek back)) S.value := by
  apply L.onFrame
  intro w f g _ hi
  have hs : f.size = g.size := hi.stack.length_eq
  rcases entry hi.stack back with ⟨v, v', hf, hg, hv⟩ | ⟨hf, hg⟩
  · simp only [Frame.peek, hf, hg]
    exact .both v v' rfl rfl hv hi
  · simp only [Frame.peek, hf, hg, hs]
    exact .failed _ rfl rfl

theorem getStack (index : Nat) : S.whole.Follows P (Eval.onFrame (Frame.get index))
    (Eval.onFrame (Frame.get index)) S.value := by
  apply L.onFrame
  intro w f g _ hi
  have hs : f.size = g.size := hi.stack.length_eq
  have hr : S.values f.stack.reverse g.stack.reverse w :=
    List.forall₂_reverse_iff.mpr hi.stack
  rcases entry hr index with ⟨v, v', hf, hg, hv⟩ | ⟨hf, hg⟩
  · simp only [Frame.get, hf, hg]
    exact .both v v' rfl rfl hv hi
  · simp only [Frame.get, hf, hg, hs]
    exact .failed _ rfl rfl

theorem swap (back : Nat) : S.whole.Follows P (Eval.onFrame (Frame.swap back))
    (Eval.onFrame (Frame.swap back)) any := by
  apply L.onFrame
  intro w f g _ hi
  have hs : f.size = g.size := hi.stack.length_eq
  rcases entry hi.stack 0 with ⟨v, v', hf, hg, hv⟩ | ⟨hf, hg⟩
  · rcases entry hi.stack back with ⟨u, u', hf', hg', hu⟩ | ⟨hf', hg'⟩
    · simp only [Frame.swap, hf, hg, hf', hg']
      exact .both () () rfl rfl trivial
        { hi with stack := values_set (values_set hi.stack hu 0) hv back }
    · simp only [Frame.swap, hf, hg, hf', hg', hs]
      exact .failed _ rfl rfl
  · simp only [Frame.swap, hf, hg, hs]
    exact .failed _ rfl rfl

theorem extend {vs ws : List (Value Question)} (h : P ≤ S.values vs ws) :
    S.whole.Follows P (Eval.onFrame (Frame.extend vs)) (Eval.onFrame (Frame.extend ws)) any := by
  apply L.onFrame
  intro w f g hP hi
  have hv := h _ hP
  clear h
  induction hv generalizing f g with
  | nil => exact .both () () rfl rfl trivial hi
  | @cons v v' vs ws hv _ ih =>
    simp only [Frame.extend, Fallible.bind_apply]
    have hp := L.pushFrame hi hv
    rcases hx : Frame.push v f with ⟨e | _, f'⟩ <;>
      rcases hy : Frame.push v' g with ⟨e' | _, g'⟩ <;> rw [hx, hy] at hp
    · cases hp with
      | both _ _ left => cases left
      | failed e left right => exact .failed e left right
      | stopped e left ended => exact .stopped e left ended
    · cases hp with
      | both _ _ left => cases left
      | failed _ _ right => cases right
      | stopped e left ended => exact .stopped e left ended
    · cases hp with
      | both _ _ _ right => cases right
      | failed _ left => cases left
      | stopped _ left => cases left
    · cases hp with
      | both _ _ _ _ _ frame => exact ih frame
      | failed _ left => cases left
      | stopped _ left => cases left

theorem ofExcept (r : Except EvalError α) :
    S.whole.Follows P (.ofExcept r) (.ofExcept r) same where
  run {w s t} _ hi := by
    rcases r with e | a
    · exact .halted (L.failed e hi.memory)
    · exact .both w a a le_rfl rfl rfl rfl hi
  stays h := by
    rcases r with e | a
    · exact S.ended_left e h
    · exact h

theorem resolved (v v' : Value Question) : S.whole.Follows (S.value v v')
    (Eval.resolve S.env₁ v) (Eval.resolve S.env₂ v') same :=
  lift (L.resolve v v') (.onSession _) (.onSession _)

theorem popBytes : S.whole.Follows P (Eval.popBytes S.env₁) (Eval.popBytes S.env₂) same := by
  rw [popBytes_eq, popBytes_eq]
  exact L.pop.bind fun v v' => (L.resolved v v').before fun _ h => h.2

theorem popWord : S.whole.Follows P (Eval.popWord S.env₁) (Eval.popWord S.env₂) same := by
  rw [popWord_eq, popWord_eq]
  exact L.popBytes.bind_same fun bytes => L.ofExcept _

theorem popSize : S.whole.Follows P (Eval.popSize S.env₁) (Eval.popSize S.env₂) same := by
  rw [popSize_eq, popSize_eq]
  exact L.popWord.bind_same fun w => L.ofExcept _

theorem popBool : S.whole.Follows P (Eval.popBool S.env₁) (Eval.popBool S.env₂) same := by
  rw [popBool_eq, popBool_eq]
  exact L.popBytes.bind_same fun bytes => .pure fun _ _ => rfl

theorem pushShort {bytes : Bytes} (h : bytes.length < 2 ^ 32) :
    S.whole.Follows P (Eval.push (.known bytes)) (Eval.push (.known bytes)) any :=
  L.push fun w _ => L.short bytes w h

theorem word (v : Word) (w : W) : S.value (.known v.toBytes) (.known v.toBytes) w :=
  L.short _ w (by rw [Word.length_toBytes]; decide)

theorem pushWord (v : Word) : S.whole.Follows P (Eval.pushWord v) (Eval.pushWord v) any :=
  L.push fun w _ => L.word v w

theorem throw (e : EvalError) :
    S.whole.Follows P (MonadExcept.throw e : Eval σ α) (MonadExcept.throw e) Q :=
  .throw fun hi => L.failed e hi.memory

theorem throwLimit (e : Config → EvalError) : S.whole.Follows P
    (MonadExcept.throw (e S.config) : Eval σ α) (MonadExcept.throw (e S.config')) Q where
  run _ hi := by
    refine .halted ?_
    rcases L.limits with he | ⟨_, ended⟩
    · rw [← he]
      exact L.failed (e S.config) hi.memory
    · exact ended _ _ _
  stays h := S.ended_left _ h

theorem output (index : Nat) :
    S.whole.Follows P (Eval.output index) (Eval.output index) S.value where
  run {w s t} _ hi := by
    rcases entry hi.outputs index with ⟨v, v', hs, ht, hv⟩ | ⟨hs, ht⟩
    · simp only [Eval.output, hs, ht]
      exact .both w v v' le_rfl rfl rfl hv hi
    · simp only [Eval.output, hs, ht, hi.outputs.length_eq]
      exact .halted (L.failed _ hi.memory)
  stays {s q} h := by
    rcases hs : s.outputs[index]? with _ | v
    · simp only [Eval.output, hs]
      exact S.ended_left _ h
    · simp only [Eval.output, hs]
      exact h

theorem setOutput (index : Nat) {v v' : Value Question} (h : P ≤ S.value v v') :
    S.whole.Follows P (Eval.setOutput index v) (Eval.setOutput index v') any where
  run {w s t} hP hi := by
    have hl : s.outputs.length = t.outputs.length := hi.outputs.length_eq
    by_cases ht : index < t.outputs.length
    · have hs : index < s.outputs.length := hl ▸ ht
      simp only [Eval.setOutput, if_pos hs, if_pos ht]
      exact .both w () () le_rfl rfl rfl trivial
        ⟨hi.frame, values_set hi.outputs (h _ hP) index, hi.memory⟩
    · have hs : ¬ index < s.outputs.length := hl ▸ ht
      simp only [Eval.setOutput, if_neg ht, hl]
      exact .halted (L.failed _ hi.memory)
  stays {s q} h' := by
    by_cases hs : index < s.outputs.length
    · simp only [Eval.setOutput, if_pos hs]
      exact h'
    · simp only [Eval.setOutput, if_neg hs]
      exact S.ended_left _ h'

end Fair

theorem frameRead : S.whole.Follows P Eval.frame Eval.frame S.frame where
  run _ hi := .both _ _ _ le_rfl rfl rfl hi.frame hi
  stays h := h

theorem setFrame {f g : Frame Question} (h : P ≤ S.frame f g) :
    S.whole.Follows P (Eval.setFrame f) (Eval.setFrame g) any where
  run hP hi := .both _ () () le_rfl rfl rfl trivial ⟨h _ hP, hi.outputs, hi.memory⟩
  stays h := h

theorem modifyFrame {m : Frame Question → Frame Question}
    (h : ∀ {w f g}, P w → S.frame f g w → S.frame (m f) (m g) w) :
    S.whole.Follows P (Eval.modifyFrame m) (Eval.modifyFrame m) any where
  run hP hi := .both _ () () le_rfl rfl rfl trivial ⟨h hP hi.frame, hi.outputs, hi.memory⟩
  stays h := h

theorem report (e e' : Event) : S.whole.Follows P (Eval.report e) (Eval.report e') any where
  run _ hi := .both _ () () le_rfl rfl rfl trivial ⟨hi.frame, hi.outputs, hi.memory⟩
  stays h := h

theorem look {f : Session σ → α} {g : Session τ → α}
    (h : ∀ {w m n}, P w → S.inv m n w → Q (f m.1) (g n.1) w) :
    S.whole.Follows P (Eval.look f) (Eval.look g) Q where
  run hP hi := .both _ _ _ le_rfl rfl rfl (h hP hi.memory) hi
  stays h := h

end Simulation

end ChainRead
