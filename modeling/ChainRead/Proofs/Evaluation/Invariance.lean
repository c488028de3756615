import ChainRead.Proofs.Evaluation.Frames
import ChainRead.Proofs.Trace.Calls

/-! # Invariants of evaluations

What holds of a state while an evaluation goes on may be lost in part when it fails. Operations
change a state in few ways: they make values and resolve them, register needs and charge bytes,
replace outputs, and change the registers and the stack of the running frame within its limit. What
is invariant under these is kept by every operation.
-/

namespace ChainRead

def Instruction.nests : Instruction → Bool
  | eval | evalLoop _ => true
  | _ => false

/-- What holds of the state of an evaluation while it goes on, and what remains of that when it
fails. -/
structure Invariant (σ : Type) where
  holds : State σ → Prop
  remains : State σ → Prop

/-- The second frame differs from the first one in its registers and in what its stack holds within
its limit. -/
structure Frame.ChangesTo (f g : Frame Question) : Prop where
  exitCode : g.exitCode = f.exitCode
  maxStack : g.maxStack = f.maxStack
  size : g.size ≤ max f.size f.maxStack

namespace Frame

variable {f g : Frame Question}

theorem ChangesTo.rfl : f.ChangesTo f := ⟨.refl _, .refl _, Nat.le_max_left _ _⟩

def Moves {α : Type} (x : Fallible EvalError (Frame Question) α) : Prop :=
  ∀ f : Frame Question, f.ChangesTo (x f).2

theorem moves_push (v : Value Question) : Moves (push v) := by
  intro f
  unfold push
  split
  · next h => exact ⟨rfl, rfl, Nat.le_trans h (Nat.le_max_right _ _)⟩
  · exact .rfl

theorem moves_pop : Moves (pop : Fallible EvalError (Frame Question) _) := by
  intro f
  unfold pop
  split
  · exact .rfl
  · next v rest h =>
    refine ⟨rfl, rfl, Nat.le_trans (Nat.le_succ rest.length) ?_⟩
    have hs : f.size = rest.length + 1 := congrArg List.length h
    omega

theorem moves_peek (back : Nat) : Moves (peek back : Fallible EvalError (Frame Question) _) := by
  intro f
  unfold peek
  split <;> exact .rfl

theorem moves_get (index : Nat) : Moves (get index : Fallible EvalError (Frame Question) _) := by
  intro f
  unfold get
  split <;> exact .rfl

theorem moves_swap (back : Nat) : Moves (swap back : Fallible EvalError (Frame Question) _) := by
  intro f
  unfold swap
  split
  · refine ⟨rfl, rfl, ?_⟩
    simp only [size, List.length_set]
    exact Nat.le_max_left _ _
  · exact .rfl

end Frame

namespace Invariant

variable {σ α β : Type} (I : Invariant σ)

def After : Except EvalError α × State σ → Prop
  | (.ok _, s) => I.holds s
  | (.error _, s) => I.remains s

def Stays (x : Eval σ α) : Prop := ∀ s, I.holds s → I.After (x s)

variable {I}

theorem After.of_ok {a : α} {s : State σ} {p : Except EvalError α × State σ} (h : I.After p)
    (hp : p = (.ok a, s)) : I.holds s := by
  subst hp
  exact h

theorem After.of_error {e : EvalError} {s : State σ} {p : Except EvalError α × State σ}
    (h : I.After p) (hp : p = (.error e, s)) : I.remains s := by
  subst hp
  exact h

namespace Stays

theorem pure (a : α) : I.Stays (Pure.pure a) := fun _ h => h

theorem bind {x : Eval σ α} {f : α → Eval σ β} (hx : I.Stays x) (hf : ∀ a, I.Stays (f a)) :
    I.Stays (x >>= f) := by
  intro s h
  have hp := hx s h
  rw [Fallible.bind_apply]
  rcases hr : x s with ⟨e | a, t⟩
  · exact hp.of_error hr
  · exact hf a t (hp.of_ok hr)

theorem ite {c : Prop} [Decidable c] {x y : Eval σ α} (hx : I.Stays x) (hy : I.Stays y) :
    I.Stays (if c then x else y) := by
  split
  · exact hx
  · exact hy

theorem frame : I.Stays Eval.frame := fun _ h => h

theorem state : I.Stays Eval.state := fun _ h => h

end Stays

/-- What operations do keeps the invariant. -/
structure Lawful (I : Invariant σ) : Prop where
  fails {s} : I.holds s → I.remains s
  session {s} (session : Session σ) : I.holds s → I.holds { s with session }
  events {s} (events : List Event) : I.holds s → I.holds { s with events }
  outputs {s} (vs : List (Value Question)) : vs.length = s.outputs.length → I.holds s →
    I.holds { s with outputs := vs }
  frame {s} {f : Frame Question} : s.frame.ChangesTo f → I.holds s → I.holds { s with frame := f }
  trace (c : TraceCall Question) : I.Stays (Eval.onTrace c.run)

namespace Lawful

variable (L : I.Lawful)
include L

theorem stays {x : Eval σ α} (h : ∀ s, I.holds s → I.holds (x s).2) : I.Stays x := by
  intro s hs
  have ht := h s hs
  rcases hr : x s with ⟨e | a, t⟩ <;> rw [hr] at ht
  · exact L.fails ht
  · exact ht

theorem throw (e : EvalError) : I.Stays (MonadExcept.throw e : Eval σ α) := fun _ => L.fails

theorem ofExcept (r : Except EvalError α) : I.Stays (Fallible.ofExcept r) :=
  L.stays fun _ h => h

theorem onSession (x : Fallible EvalError (Session σ) α) : I.Stays (Eval.onSession x) :=
  L.stays fun _ h => L.session _ h

theorem create (k : StateM (Session σ) (Value Question)) : I.Stays (Eval.create k) :=
  L.onSession _

theorem report (e : Event) : I.Stays (Eval.report e) := L.stays fun _ h => L.events _ h

theorem alloc (n : Nat) : I.Stays (Eval.onTrace (Trace.alloc n)) := L.trace (.alloc n)

theorem allocWords (n : Nat) : I.Stays (Eval.onTrace (Trace.allocWords n)) := by
  intro s h
  have ht := L.trace (.allocWords n) s h
  rw [Eval.onTrace, Fallible.zoom_apply, TraceCall.run, Fallible.bind_apply] at ht
  rw [Eval.onTrace, Fallible.zoom_apply]
  rcases hr : Trace.allocWords n s.trace with ⟨e | size, t⟩ <;> rw [hr] at ht <;> exact ht

theorem addStorage (a : Address) (k : Word) : I.Stays (Eval.onTrace (Trace.addStorage a k)) :=
  L.trace (.addStorage a k)

theorem onFrame {x : Fallible EvalError (Frame Question) α} (hx : Frame.Moves x) :
    I.Stays (Eval.onFrame x) := L.stays fun s h => L.frame (hx s.frame) h

theorem modifyFrame {m : Frame Question → Frame Question}
    (hm : ∀ f : Frame Question, f.ChangesTo (m f)) : I.Stays (Eval.modifyFrame m) :=
  L.stays fun s h => L.frame (hm s.frame) h

theorem push (v : Value Question) : I.Stays (Eval.push v) := L.onFrame (Frame.moves_push v)

theorem pushWord (w : Word) : I.Stays (Eval.pushWord w) := L.push (.known w.toBytes)

theorem pop : I.Stays Eval.pop := L.onFrame Frame.moves_pop

theorem setSlot (m : Word → Word) :
    I.Stays (Eval.modifyFrame fun f => { f with slot := m f.slot }) :=
  L.modifyFrame fun _ => ⟨rfl, rfl, Nat.le_max_left _ _⟩

theorem output (index : Nat) : I.Stays (Eval.output index) := by
  refine L.stays fun s h => ?_
  unfold Eval.output
  split <;> exact h

theorem setOutput (index : Nat) (v : Value Question) : I.Stays (Eval.setOutput index v) := by
  refine L.stays fun s h => ?_
  unfold Eval.setOutput
  split
  · exact L.outputs _ (List.length_set ..) h
  · exact h

variable (env : Env σ)

theorem popBytes : I.Stays (Eval.popBytes env) := by
  rw [Eval.popBytes_eq]
  exact .bind L.pop fun _ => L.onSession _

theorem popWord : I.Stays (Eval.popWord env) := by
  rw [Eval.popWord_eq]
  exact .bind (L.popBytes env) fun _ => L.ofExcept _

theorem popSize : I.Stays (Eval.popSize env) := by
  rw [Eval.popSize_eq]
  exact .bind (L.popWord env) fun _ => L.ofExcept _

theorem popBool : I.Stays (Eval.popBool env) := by
  rw [Eval.popBool_eq]
  exact .bind (L.popBytes env) fun _ => .pure _

theorem slotValue (a : Address) (k : Word) : I.Stays (Eval.slotValue a k) := L.create _

theorem readWords (a : Address) (count : Nat) (k : Word) :
    I.Stays (Eval.readWords a count k) := by
  induction count generalizing k with
  | zero => exact .pure _
  | succ count ih =>
    exact .bind (L.addStorage _ _) fun _ => .bind (L.slotValue a k) fun _ => .bind (ih _) fun _ =>
      .pure _

theorem readHeader : I.Stays (Eval.readHeader env) :=
  .bind .frame fun _ => .bind (L.addStorage _ _) fun _ => L.onSession _

theorem spilledBytes (len : Nat) : I.Stays (Eval.spilledBytes env len) := by
  refine .bind (L.alloc _) fun _ => .ite (L.throw _) ?_
  exact .bind .frame fun _ => .bind (L.readWords _ _ _) fun _ => .bind (L.create _) fun _ =>
    L.create _

theorem readBytes : I.Stays (Eval.readBytes env) := by
  refine .bind (L.readHeader env) fun header => ?_
  rcases BytesHeader.decode header with cause | bytes | len
  · exact L.throw _
  · exact .bind (L.alloc _) fun _ => L.push _
  · exact .bind (L.spilledBytes env len) fun _ => L.push _

theorem readArray : I.Stays (Eval.readArray env) := by
  refine .bind (L.popSize env) fun step => .ite (L.throw _) ?_
  refine .bind (L.readHeader env) fun header => ?_
  rcases arraySlots (clampSize header.toNat) step with cause | count
  · exact L.throw _
  · exact .bind (L.allocWords _) fun _ => .bind .frame fun _ => .bind (L.readWords _ _ _) fun _ =>
      .bind (L.create _) fun _ => L.push _

theorem concat : I.Stays (Eval.concat env) := by
  refine .bind L.pop fun b => .bind L.pop fun a => .bind .state fun s => ?_
  split
  · refine .bind (L.alloc _) fun _ => ?_
    split
    · exact L.push _
    · exact .bind (L.create _) fun _ => L.push _
  · exact .bind (L.onSession _) fun _ => .bind (L.onSession _) fun _ => .bind (L.alloc _) fun _ =>
      L.push _

theorem length : I.Stays Eval.length := by
  refine .bind L.pop fun v => .bind .state fun s => ?_
  split
  · exact L.push _
  · exact .bind (L.create _) fun _ => L.push _

theorem execute (op : Op) : I.Stays (Eval.execute env op) := by
  cases op with
  | getSlot | getTarget | stackSize => exact .bind .frame fun _ => L.pushWord _
  | isContract =>
    refine .bind .frame fun _ => .bind (L.trace (.requireTarget _)) fun _ => ?_
    exact .bind (L.create _) fun _ => L.push _
  | pushStack =>
    exact .bind (L.popSize env) fun i => .bind (L.onFrame (Frame.moves_get i)) fun _ => L.push _
  | pushOutput => exact .bind (L.popSize env) fun i => .bind (L.output i) fun _ => L.push _
  | setTarget =>
    refine .bind (L.popWord env) fun _ => .bind (L.modifyFrame fun f => ?_) fun _ =>
      L.trace (.addTarget _ _)
    exact ⟨rfl, rfl, Nat.le_max_left _ _⟩
  | setOutput => exact .bind (L.popSize env) fun i => .bind L.pop fun _ => L.setOutput i _
  | readSlot =>
    refine .bind .frame fun _ => .bind (L.addStorage _ _) fun _ => ?_
    exact .bind (L.slotValue _ _) fun _ => L.push _
  | readBytes => exact L.readBytes env
  | readArray => exact L.readArray env
  | readHashedBytes =>
    refine .bind (L.popWord env) fun _ => .bind (L.create _) fun _ => ?_
    exact .bind (L.trace (.addHashed _ _)) fun _ => L.push _
  | readSlots =>
    refine .bind (L.popSize env) fun _ => .bind (L.allocWords _) fun _ => .bind .frame fun _ => ?_
    exact .bind (L.readWords _ _ _) fun _ => .bind (L.create _) fun _ => L.push _
  | setSlot => exact .bind (L.popWord env) fun slot => L.setSlot fun _ => slot
  | addSlot => exact .bind (L.popWord env) fun offset => L.setSlot fun slot => slot + offset
  | follow =>
    exact .bind (L.popBytes env) fun key => .bind (L.alloc _) fun _ => L.setSlot (followSlot key)
  | dup =>
    exact .bind (L.popSize env) fun i => .bind (L.onFrame (Frame.moves_peek i)) fun _ => L.push _
  | pop => exact .bind L.pop fun _ => .pure _
  | swap => exact .bind (L.popSize env) fun i => L.onFrame (Frame.moves_swap i)
  | keccak => exact .bind (L.popBytes env) fun _ => L.push _
  | concat => exact L.concat env
  | slice =>
    refine .bind (L.popSize env) fun _ => .bind (L.popSize env) fun _ => .bind L.pop fun _ => ?_
    exact .bind (L.alloc _) fun _ => .bind (L.create _) fun _ => L.push _
  | length => exact L.length
  | binary op =>
    refine .bind L.pop fun _ => .bind L.pop fun _ => .bind (L.onSession _) fun _ => ?_
    refine .bind (L.onSession _) fun _ => .bind (L.ofExcept _) fun _ => ?_
    exact .bind (L.ofExcept _) fun _ => L.pushWord _
  | unary op => exact .bind (L.popWord env) fun _ => L.pushWord _

theorem extend (vs : List (Value Question)) : I.Stays (Eval.onFrame (Frame.extend vs)) := by
  induction vs with
  | nil => exact .pure ()
  | cons v vs ih =>
    rw [Frame.extend, Eval.onFrame_bind]
    exact .bind (L.push v) fun _ => ih

theorem step (nested : Bytes → Eval σ UInt8) (depth : Nat) {i : Instruction}
    (h : i.nests = false) : I.Stays (Eval.step env nested depth i) := by
  cases i with
  | push value => exact .bind (L.pushWord value) fun _ => .pure _
  | pushBytes bytes => exact .bind (L.push _) fun _ => .pure _
  | assert exitCode => exact .bind (L.popBool env) fun _ => .pure _
  | debug label => exact .bind (.bind .state fun _ => L.report _) fun _ => .pure _
  | eval | evalLoop => cases h
  | plain op => exact .bind (L.execute env op) fun _ => .pure _

end Lawful

end Invariant

end ChainRead
