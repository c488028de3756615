import Mathlib.Data.Prod.Lex
import ChainRead.Proofs.Evaluation.Control
import ChainRead.Source.Chain

/-! # Evaluations end

A frame reads its program from front to back. A program that it runs stands one level deeper, and a
loop runs its program once for each of its seeds. So whatever programs an evaluation makes for
itself, it gives control back after finitely many steps.
-/

namespace ChainRead

variable {σ : Type}

def Waiting.rest : Waiting → Cursor
  | inline rest => rest
  | loop rest _ _ => rest

namespace Execution

/-- The bytes that the running frame has not read, and one for the end of its program. -/
def unread (x : Execution σ) : Nat :=
  match x.phase with
  | .reading c => c.rest.length + 1
  | .returned _ => 0

def seedsLeft (x : Execution σ) : Nat :=
  match x.waiting with
  | .loop _ _ loop :: _ => loop.seeds.length
  | _ => 0

/-- The levels below the running frame, the seeds left for its loop and its unread bytes. -/
def rank (env : Env σ) (x : Execution σ) : Nat ×ₗ Nat ×ₗ Nat :=
  toLex (env.config.maxEvalDepth.toNat - x.waiting.length, toLex (x.seedsLeft, x.unread))

/-- The running frame has returned, and the one that waits for it reads on or returns in turn. -/
def HandsBack (x y : Execution σ) : Prop :=
  ∃ exitCode w, x.phase = .returned exitCode ∧ x.waiting = w :: y.waiting ∧
    (y.phase = .reading w.rest ∨ ∃ code, y.phase = .returned code)

inductive Moves (env : Env σ) : Execution σ → Execution σ → Prop
  | reads {s t : State σ} {c rest : Cursor} {K : List Waiting}
    (h : rest.rest.length < c.rest.length) : Moves env ⟨s, .reading c, K⟩ ⟨t, .reading rest, K⟩
  | returns {s t : State σ} {c : Cursor} {K : List Waiting} (exitCode : UInt8) :
    Moves env ⟨s, .reading c, K⟩ ⟨t, .returned exitCode, K⟩
  | enters {s t : State σ} {c c' : Cursor} {w : Waiting} {K : List Waiting}
    (deep : K.length + 1 ≤ env.config.maxEvalDepth.toNat)
    (h : w.rest.rest.length < c.rest.length) :
    Moves env ⟨s, .reading c, K⟩ ⟨t, .reading c', w :: K⟩
  | resumes {s t : State σ} {exitCode : UInt8} {w : Waiting} {K : List Waiting} :
    Moves env ⟨s, .returned exitCode, w :: K⟩ ⟨t, .reading w.rest, K⟩
  | passes {s t : State σ} {exitCode : UInt8} {w : Waiting} {K : List Waiting} (code : UInt8) :
    Moves env ⟨s, .returned exitCode, w :: K⟩ ⟨t, .returned code, K⟩
  | iterates {s t : State σ} {exitCode : UInt8} {c rest : Cursor} {f g : Frame Question}
    {loop loop' : Looping} {K : List Waiting} (h : loop'.seeds.length < loop.seeds.length) :
    Moves env ⟨s, .returned exitCode, .loop rest f loop :: K⟩
      ⟨t, .reading c, .loop rest g loop' :: K⟩

/-- A step gives control back to a frame that waits or lowers the rank. -/
theorem Moves.rank_lt {env : Env σ} {x y : Execution σ} (h : Moves env x y) :
    x.HandsBack y ∨ y.rank env < x.rank env := by
  cases h with
  | reads h => exact Or.inr (Prod.Lex.toLex_lt_toLex.mpr (Or.inr ⟨rfl,
      Prod.Lex.toLex_lt_toLex.mpr (Or.inr ⟨rfl, Nat.succ_lt_succ h⟩)⟩))
  | returns exitCode => exact Or.inr (Prod.Lex.toLex_lt_toLex.mpr (Or.inr ⟨rfl,
      Prod.Lex.toLex_lt_toLex.mpr (Or.inr ⟨rfl, Nat.succ_pos _⟩)⟩))
  | enters deep h =>
    refine Or.inr (Prod.Lex.toLex_lt_toLex.mpr (Or.inl ?_))
    simp only [List.length_cons]
    omega
  | resumes => exact Or.inl ⟨_, _, rfl, rfl, Or.inl rfl⟩
  | passes code => exact Or.inl ⟨_, _, rfl, rfl, Or.inr ⟨code, rfl⟩⟩
  | iterates h => exact Or.inr (Prod.Lex.toLex_lt_toLex.mpr (Or.inr ⟨rfl,
      Prod.Lex.toLex_lt_toLex.mpr (Or.inl h)⟩))

end Execution

open Execution Stage

namespace Stage

variable {α : Type} {P : Execution σ → Prop} {rest : Cursor} {K : List Waiting}

abbrev GoesOn (P : Execution σ → Prop) : Stage σ → Prop := All P fun _ => True

theorem goesOn_bind {f : α → State σ → Stage σ} (h : ∀ a s, GoesOn P (f a s))
    (p : Except EvalError α × State σ) : GoesOn P (bind p f) := by
  rcases p with ⟨cause | a, s⟩
  · trivial
  · exact h a s

theorem goesOn_next (hr : ∀ t, P ⟨t, .reading rest, K⟩)
    (hs : ∀ t exitCode, P ⟨t, .returned exitCode, K⟩)
    (p : Except EvalError (Option UInt8) × State σ) : GoesOn P (next rest K p) := by
  refine goesOn_bind (fun stop s => ?_) p
  cases stop with
  | none => exact hr s
  | some exitCode => exact hs _ exitCode

end Stage

namespace Env

variable {env : Env σ} {P : Execution σ → Prop} {rest : Cursor} {K : List Waiting}

theorem goesOn_enter {program : Bytes} {s : State σ}
    (h : K.length ≤ env.config.maxEvalDepth.toNat → P ⟨s, .reading (.ofBytes program), K⟩) :
    GoesOn P (env.enter program K s) := by
  rw [enter]
  split
  · exact h ‹_›
  · trivial

theorem goesOn_nextSeed {loop : Looping} {s : State σ} (hr : ∀ t, P ⟨t, .reading rest, K⟩)
    (hs : ∀ t exitCode, P ⟨t, .returned exitCode, K⟩)
    (he : K.length + 1 ≤ env.config.maxEvalDepth.toNat → ∀ t f loop',
      loop'.seeds.length < loop.seeds.length →
        P ⟨t, .reading (.ofBytes loop.program), .loop rest f loop' :: K⟩) :
    GoesOn P (env.nextSeed rest loop K s) := by
  obtain ⟨flags, program, index, seeds, taken⟩ := loop
  cases seeds with
  | nil => exact goesOn_next hr hs _
  | cons seed seeds => exact goesOn_enter fun deep => he deep _ _ _ (Nat.lt_succ_self _)

theorem goesOn_perform {s : State σ} (hr : ∀ t, P ⟨t, .reading rest, K⟩)
    (hs : ∀ t exitCode, P ⟨t, .returned exitCode, K⟩)
    (he : K.length + 1 ≤ env.config.maxEvalDepth.toNat → ∀ t c w, w.rest = rest →
      P ⟨t, .reading c, w :: K⟩)
    (i : Instruction) : GoesOn P (env.perform rest K s i) := by
  cases i with
  | eval =>
    refine goesOn_bind (fun r t => ?_) _
    obtain ⟨program, _ | _⟩ := r
    · exact hr t
    · exact goesOn_enter fun deep => he deep t _ (.inline rest) rfl
  | evalLoop flags =>
    refine goesOn_bind (fun r t => ?_) _
    exact goesOn_nextSeed hr hs fun deep t f loop _ => he deep t _ (.loop rest f loop) rfl
  | _ => exact goesOn_next hr hs _

theorem advance_goesOn (x : Execution σ) : GoesOn (Moves env x) (env.advance x) := by
  obtain ⟨s, c | exitCode, K⟩ := x
  · show GoesOn _ (env.read c K s)
    rw [read]
    rcases hn : c.next with _ | ⟨cause | i, rest⟩
    · exact .returns 0
    · trivial
    have hl := Cursor.length_rest_lt hn
    exact goesOn_perform (fun _ => .reads hl) (fun _ => .returns)
      (fun deep _ _ _ hw => .enters deep (hw ▸ hl)) i
  · cases K with
    | nil => trivial
    | cons w K =>
      show GoesOn _ (env.resume w K exitCode s)
      cases w with
      | inline rest => exact goesOn_next (fun _ => .resumes) (fun _ => .passes) _
      | loop rest parent loop =>
        rw [resume, endIteration]
        split
        · exact goesOn_next (fun _ => .resumes) (fun _ => .passes) _
        · exact goesOn_nextSeed (fun _ => .resumes) (fun _ => .passes) fun _ _ _ _ h => .iterates h

theorem moves_of_advance {x y : Execution σ} (h : env.advance x = .running y) : Moves env x y := by
  have hx : GoesOn (Moves env x) (env.advance x) := advance_goesOn x
  rwa [h] at hx

abbrev Ends (env : Env σ) (x : Execution σ) : Prop :=
  Acc (fun y x => env.advance x = .running y) x

theorem ends_of_moves {x : Execution σ} (h : ∀ y, Moves env x y → env.Ends y) : env.Ends x :=
  ⟨x, fun y hy => h y (moves_of_advance hy)⟩

/-- From a return to the frames `K` on, an evaluation goes on for finitely many steps. -/
def Lands (env : Env σ) (K : List Waiting) : Prop :=
  ∀ s exitCode, env.Ends ⟨s, .returned exitCode, K⟩

/-- A return to one more frame lands if the frame ends where it reads on and programs end that a
loop runs again. -/
theorem Lands.cons (hK : env.Lands K) {w : Waiting} (hr : ∀ s, env.Ends ⟨s, .reading w.rest, K⟩)
    (hp : ∀ w, env.Lands (w :: K) → ∀ c s, env.Ends ⟨s, .reading c, w :: K⟩) :
    env.Lands (w :: K) := by
  intro s exitCode
  cases w with
  | inline rest =>
    refine ends_of_moves fun y h => ?_
    cases h with
    | resumes => exact hr _
    | passes code => exact hK _ code
  | loop rest parent loop =>
    replace hr : ∀ s, env.Ends ⟨s, .reading rest, K⟩ := hr
    -- a loop is resumed with fewer seeds each time
    generalize hn : loop.seeds.length = n
    induction n using Nat.strongRecOn generalizing s exitCode parent loop with
    | ind n ih =>
      refine ends_of_moves fun y h => ?_
      cases h with
      | resumes => exact hr _
      | passes code => exact hK _ code
      | iterates h => exact hp _ (fun s code => ih _ (hn ▸ h) s code _ _ rfl) _ _

theorem Lands.reading (hK : env.Lands K) (c : Cursor) (s : State σ) :
    env.Ends ⟨s, .reading c, K⟩ := by
  -- outer induction on the levels below the frame, inner one on its unread bytes
  generalize hk : env.config.maxEvalDepth.toNat - K.length = k
  induction k using Nat.strongRecOn generalizing K c s with
  | ind k ihK =>
    generalize hc : c.rest.length = n
    induction n using Nat.strongRecOn generalizing c s with
    | ind n ih =>
      refine ends_of_moves fun y h => ?_
      cases h with
      | reads h => exact ih _ (hc ▸ h) _ _ rfl
      | returns exitCode => exact hK _ exitCode
      | @enters _ _ _ _ w _ deep h =>
        have hp (w : Waiting) (hw : env.Lands (w :: K)) (c : Cursor) (s : State σ) :
            env.Ends ⟨s, .reading c, w :: K⟩ := by
          refine ihK _ ?_ hw c s rfl
          rw [List.length_cons]
          omega
        exact hp w (hK.cons (fun s => ih _ (hc ▸ h) _ s rfl) hp) _ _

theorem lands (env : Env σ) (K : List Waiting) : env.Lands K := by
  induction K with
  | nil =>
    intro s exitCode
    refine ends_of_moves fun y h => ?_
    cases h
  | cons w K ih => exact ih.cons (ih.reading _) fun _ => Lands.reading

end Env

/-- Every evaluation ends, whatever programs its frames make and run. A step gives control back to
a frame that waits, or it lowers the number of levels left, the seeds left for the loop that runs
the frame, or the bytes that the frame has not read, in this order. No sequence of steps goes on for
ever, and those of a program's evaluation lead to its result. -/
theorem evaluation_ends (env : Env σ) (program : Program) (session : Session σ) :
    (∀ x y, env.advance x = .running y → x.HandsBack y ∨ y.rank env < x.rank env) ∧
      WellFounded (fun y x => env.advance x = .running y) ∧
      env.Visits program session (.finished (env.run program session)) := by
  refine ⟨fun x y h => (Env.moves_of_advance h).rank_lt, ⟨fun x => ?_⟩, env.visits_run _ _⟩
  obtain ⟨s, c | exitCode, K⟩ := x
  · exact (env.lands K).reading c s
  · exact env.lands K s exitCode

/-- A program that runs a copy of itself in place ends at the limit on the depth. -/
theorem evaluation_ends_copy :
    let env : Env Nat := ⟨Chain.source {}, { maxEvalDepth := 3 }⟩
    let copy : List Instruction := [.push 1, .push 1, .plain .dup, .eval]
    let program : Program := ⟨0, Instruction.encodeAll
      (.pushBytes (0 :: Instruction.encodeAll copy) :: copy)⟩
    ∃ s, env.Visits program { source := 0 } (.finished (.error (.budget (.maxEvalDepth 3)), s)) ∧
      WellFounded (fun y x => env.advance x = .running y) := by
  intro env copy program
  obtain ⟨_, wf, visits⟩ := evaluation_ends env program { source := 0 }
  have result : (env.run program { source := 0 }).1 = .error (.budget (.maxEvalDepth 3)) := by
    decide +kernel
  refine ⟨(env.run program { source := 0 }).2, ?_, wf⟩
  rwa [← result]

end ChainRead
