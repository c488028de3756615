import ChainRead.Proofs.Source.Answers
import ChainRead.Proofs.Value.Alike

/-! # Something beside a source

A source may have something beside its state that its answers neither look at nor change. Values
then resolve as before.
-/

namespace ChainRead

variable {Q σ τ α β : Type}

/-- A source with something beside its state. -/
def Source.beside (src : Source σ) (τ : Type) : Source (σ × τ) where
  answer c := fun (s, extra) => ((src.answer c s).1, ((src.answer c s).2, extra))

def Answers.beside (answers : Answers Q σ) (τ : Type) : Answers Q (σ × τ) := fun q (s, extra) =>
  ((answers q s).1, ((answers q s).2, extra))

theorem Source.beside_answers (src : Source σ) : (src.beside τ).answers = src.answers.beside τ := by
  funext q s
  rw [answers_apply, Answers.beside, answers_apply]
  rfl

namespace Session

/-- A session without what is beside its source. -/
def plain (s : Session (σ × τ)) : Session σ := { s with source := s.source.1 }

def beside (s : Session σ) (extra : τ) : Session (σ × τ) := { s with source := (s.source, extra) }

end Session

/-- A computation does the same if something is beside the source, and leaves that alone. -/
def Ignores (x : Fallible EvalError (Session σ) α) (y : Fallible EvalError (Session (σ × τ)) α) :
    Prop :=
  ∀ s extra, y (s.beside extra) = ((x s).1, (x s).2.beside extra)

namespace Ignores

open Session

theorem pure (a : α) : Ignores (σ := σ) (τ := τ) (Pure.pure a) (Pure.pure a) := fun _ _ => rfl

theorem bind {x : Fallible EvalError (Session σ) α} {y : Fallible EvalError (Session (σ × τ)) α}
    {f : α → Fallible EvalError (Session σ) β} {g : α → Fallible EvalError (Session (σ × τ)) β}
    (h : Ignores x y) (hf : ∀ a, Ignores (f a) (g a)) : Ignores (x >>= f) (y >>= g) := by
  intro s extra
  rw [Fallible.bind_apply, Fallible.bind_apply, h s extra]
  rcases x s with ⟨e | a, t⟩
  · rfl
  · exact hf a t extra

theorem call (src : Source σ) (c : Call) :
    Ignores ((src.call c).zoom Session.source fun source s => { s with source })
      (((src.beside τ).call c).zoom Session.source fun source s => { s with source }) :=
  fun _ _ => rfl

theorem look {f : Session σ → α} {g : Session (σ × τ) → α}
    (h : ∀ s extra, g (s.beside extra) = f s) :
    Ignores (fun s => (.ok (f s), s)) (fun s => (.ok (g s), s)) :=
  fun s extra => Prod.ext (congrArg Except.ok (h s extra)) rfl

theorem ofQuestion (hint : Option Nat) (q : Question) :
    Ignores (σ := σ) (τ := τ) (.ofState (Value.ofQuestion hint q))
      (.ofState (Value.ofQuestion hint q)) := fun _ _ => rfl

theorem ofParts (hint : Option Nat) (parts : List (Value Question)) :
    Ignores (σ := σ) (τ := τ) (.ofState (Value.ofParts hint parts))
      (.ofState (Value.ofParts hint parts)) := fun _ _ => rfl

theorem map (v : Value Question) (hint : Option Nat) (f : Bytes → Bytes) :
    Ignores (σ := σ) (τ := τ) (.ofState (v.map hint fun bytes => .ok (f bytes)))
      (.ofState (v.map hint fun bytes => .ok (f bytes))) := by
  intro s extra
  cases v <;> rfl

theorem matched (answers : Answers Q σ) (extra : τ) :
    Matched False Eq answers (answers.beside τ) fun s t => t = s.beside extra where
  settled h := by rw [h]; rfl
  mark id := .of_same fun h => ⟨rfl, by rw [h]; rfl⟩
  ask := by
    rintro q _ rfl
    refine .of_same ?_
    rintro s _ rfl
    exact ⟨rfl, rfl⟩
  settle id o h := by rw [h]; rfl

theorem resolveBeside (answers : Answers Q σ) (v : Value Q) :
    Ignores (v.resolve answers) (v.resolve (answers.beside τ)) := by
  intro s extra
  obtain ⟨he, hr⟩ := ((matched answers extra).resolve v).same rfl
  exact Prod.ext he.symm hr

theorem resolve (src : Source σ) (v : Value Question) :
    Ignores (v.resolve src.answers) (v.resolve (src.beside τ).answers) :=
  src.beside_answers ▸ resolveBeside src.answers v

end Ignores

end ChainRead
