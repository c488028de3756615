import Mathlib.Algebra.Group.Nat.Defs
import Mathlib.Data.List.Forall2
import ChainRead.Evaluation.Run
import ChainRead.Proofs.Evaluation.Coupling

/-! # Simulations between evaluations

A simulation compares the evaluations of a program against two sources. It says which values and
addresses stand for one another and how the sessions and traces are related. It is fair if resolving
values and charging budgets keeps them related, uniform if making values of chain state does so too,
and lawful if making any value does. Frames and outputs then follow.
-/

namespace ChainRead

abbrev Memory (σ : Type) := Session σ × Trace Question

def State.memory {σ : Type} (s : State σ) : Memory σ := (s.session, s.trace)

/-- No limit of `c` is above that of `c'`, and their policies are the same. -/
structure Config.Within (c c' : Config) : Prop where
  maxStackSize : c.maxStackSize ≤ c'.maxStackSize
  maxEvalDepth : c.maxEvalDepth ≤ c'.maxEvalDepth
  maxUniqueProofs : c.maxUniqueProofs ≤ c'.maxUniqueProofs
  maxAllocBytes : c.maxAllocBytes ≤ c'.maxAllocBytes
  maxSuppliedBytes : c.maxSuppliedBytes ≤ c'.maxSuppliedBytes
  requireTargetBeforeSlot : c.requireTargetBeforeSlot = c'.requireTargetBeforeSlot

/-- A comparison of the evaluations against two sources. -/
structure Simulation (W σ τ : Type) [Preorder W] where
  config : Config
  /-- The limits of the right evaluation, unless they are those of the left one. -/
  config' : Config := config
  left : Source σ
  right : Source τ
  value : Value Question → Value Question → Fact W
  target : Address → Fact W
  inv : Memory σ → Memory τ → W → Prop
  ended : Except EvalError Unit × Memory σ → Except EvalError Unit × Memory τ → Prop
  ended_left : ∀ {m q} (e : EvalError), ended (.ok (), m) q → ended (.error e, m) q
  ended_right : ∀ {p n} (q : Except EvalError Unit × Memory τ), ended p (.ok (), n) → ended p q

namespace Simulation

variable {W σ τ : Type} [Preorder W] (S : Simulation W σ τ)

def env₁ : Env σ := ⟨S.left, S.config⟩

def env₂ : Env τ := ⟨S.right, S.config'⟩

def values (vs ws : List (Value Question)) : Fact W where
  toFun w := List.Forall₂ (fun v v' => S.value v v' w) vs ws
  monotone' _ _ h hv := hv.imp fun _ _ hv => (S.value _ _).monotone h hv

/-- Two frames have the same registers and their stacks stand for one another. -/
structure FrameRel (f g : Frame Question) (w : W) : Prop where
  target : f.target = g.target
  selected : S.target g.target w
  slot : f.slot = g.slot
  exitCode : f.exitCode = g.exitCode
  maxStack : f.maxStack = S.config.maxStackSize.toNat
  maxStack' : g.maxStack = S.config'.maxStackSize.toNat
  stack : S.values f.stack g.stack w

def frame (f g : Frame Question) : Fact W where
  toFun w := S.FrameRel f g w
  monotone' _ _ h r :=
    { r with
      selected := (S.target _).monotone h r.selected
      stack := (S.values _ _).monotone h r.stack }

def memory : Coupling W (State σ) (State τ) where
  inv s t w := S.inv s.memory t.memory w
  ended p q := S.ended (p.1, p.2.memory) (q.1, q.2.memory)
  ended_left e h := S.ended_left e h
  ended_right _ h := S.ended_right _ h

structure StateRel (s : State σ) (t : State τ) (w : W) : Prop where
  frame : S.frame s.frame t.frame w
  outputs : S.values s.outputs t.outputs w
  memory : S.inv s.memory t.memory w

def whole : Coupling W (State σ) (State τ) :=
  { S.memory with inv := S.StateRel }

open Coupling Eval

/-- Whatever the right evaluation does, the comparison ends when the left one fails. -/
def OneSided : Prop := ∀ e m q, S.ended (.error e, m) q

/-- Both evaluations have the same limits, or the right one has higher ones and may go on where the
left one fails. -/
def Limits : Prop := S.config = S.config' ∨ S.config.Within S.config' ∧ S.OneSided

/-- What a simulation has to show of the ways to use sessions and traces that make no values and
charge no bytes. The bytes that a program holds are short. -/
structure Fair : Prop where
  limits : S.Limits
  short (bytes : Bytes) (w : W) : bytes.length < 2 ^ 32 → S.value (.known bytes) (.known bytes) w
  origin (w : W) : S.target 0 w
  failed {m n w} (e : EvalError) : S.inv m n w → S.ended (.error e, m) (.error e, n)
  resolve (v v') : S.memory.Follows (S.value v v') (resolve S.env₁ v) (resolve S.env₂ v') same
  slotCall (a : Address) (k : Word) : S.memory.Follows (S.target a)
    (do onTrace (Trace.addStorage a k); call S.env₁ (.storage a k))
    (do onTrace (Trace.addStorage a k); call S.env₂ (.storage a k)) same
  select (a : Address) : S.memory.Follows ⊤
    (onTrace (Trace.addTarget a false)) (onTrace (Trace.addTarget a false))
    fun _ _ => S.target a

/-- A simulation in which both sides make their values of chain state in the same way. -/
structure Uniform : Prop extends S.Fair where
  alloc (n : Nat) : S.memory.Follows ⊤ (onTrace (Trace.alloc n)) (onTrace (Trace.alloc n)) any
  allocWords (n : Nat) : S.memory.Follows ⊤
    (onTrace (Trace.allocWords n)) (onTrace (Trace.allocWords n)) same
  known (bytes : Bytes) (w : W) : S.value (.known bytes) (.known bytes) w
  length {m n w v v'} : S.inv m n w → S.value v v' w → v.length? m.1 = v'.length? n.1
  peek {m n w v v'} : S.inv m n w → S.value v v' w → v.peek m.1 = v'.peek n.1
  slotValue (a : Address) (k : Word) : S.memory.Follows (S.target a)
    (do onTrace (Trace.addStorage a k); slotValue a k)
    (do onTrace (Trace.addStorage a k); slotValue a k) S.value
  isContract (a : Address) : S.memory.Follows ⊤
    (do onTrace (Trace.requireTarget a); create (Value.ofQuestion (some 32) (.isContract a)))
    (do onTrace (Trace.requireTarget a); create (Value.ofQuestion (some 32) (.isContract a)))
    S.value
  ofParts (hint : Option Nat) (vs ws : List (Value Question)) : S.memory.Follows (S.values vs ws)
    (create (Value.ofParts hint vs)) (create (Value.ofParts hint ws)) S.value
  map (hint : Option Nat) (f : Bytes → Bytes) (v v' : Value Question) :
    S.memory.Follows (S.value v v') (create (v.map hint fun bytes => .ok (f bytes)))
      (create (v'.map hint fun bytes => .ok (f bytes))) S.value

/-- A simulation in which both sides make all their values in the same way. -/
structure Lawful : Prop extends S.Uniform where
  hashed (h : Word) : S.memory.Follows ⊤
    (do
      let v ← create (Value.ofQuestion none (.hashed h S.config.maxSuppliedBytes.toNat))
      onTrace (Trace.addHashed h v)
      return v)
    (do
      let v ← create (Value.ofQuestion none (.hashed h S.config'.maxSuppliedBytes.toNat))
      onTrace (Trace.addHashed h v)
      return v)
    S.value

/-- A computation that leaves frames and outputs alone. -/
def Local {α : Type} (x : Eval σ α) : Prop :=
  ∀ s, (x s).2.frame = s.frame ∧ (x s).2.outputs = s.outputs

variable {S} {α β : Type} {P : Fact W} {Q : α → α → Fact W}

section Local

theorem Local.bind {x : Eval σ α} {f : α → Eval σ β} (hx : Local x) (hf : ∀ a, Local (f a)) :
    Local (x >>= f) := by
  intro s
  rw [Fallible.bind_apply]
  obtain ⟨h, h'⟩ := hx s
  rcases hp : x s with ⟨_ | a, s'⟩ <;> rw [hp] at h h'
  · exact ⟨h, h'⟩
  · exact ⟨(hf a s').1.trans h, (hf a s').2.trans h'⟩

theorem Local.pure (a : α) : Local (Pure.pure a : Eval σ α) := fun _ => ⟨rfl, rfl⟩

theorem Local.onTrace (x : Fallible EvalError (Trace Question) α) :
    Local (onTrace x : Eval σ α) := fun _ => ⟨rfl, rfl⟩

theorem Local.onSession (x : Fallible EvalError (Session σ) α) : Local (onSession x) :=
  fun _ => ⟨rfl, rfl⟩

end Local

theorem lift {x : Eval σ α} {y : Eval τ α} (h : S.memory.Follows P x y Q) (hx : Local x)
    (hy : Local y) : S.whole.Follows P x y Q where
  run {w s t} hP hi := by
    cases h.run hP hi.memory with
    | both v a b le left right post inv =>
      refine .both v a b le left right post ⟨?_, ?_, inv⟩
      · rw [(hx s).1, (hy t).1]
        exact (S.frame _ _).monotone le hi.frame
      · rw [(hx s).2, (hy t).2]
        exact (S.values _ _).monotone le hi.outputs
    | halted h => exact .halted h
  stays h' := h.stays h'

end Simulation

end ChainRead
