import ChainRead.Proofs.Program.Building
import ChainRead.Proofs.Program.Encoding
import ChainRead.Proofs.Evaluation.Inlining
import ChainRead.Proofs.Evaluation.Resources
import ChainRead.Proofs.Evaluation.Termination
import ChainRead.Source.Chain

/-! # Outputs of built programs

The outermost frame reads what was encoded one instruction after another, whatever programs run
below it. So it comes to a call's `SET_OUTPUT` with the index on top that was pushed for it, and it
has as many outputs as the program declares. Only the last index is not declared.
-/

namespace ChainRead

variable {σ : Type}

/-- The cursor between two parts of a program. -/
def Cursor.between (before after : List Instruction) : Cursor :=
  ⟨1 + (Instruction.encodeAll before).length, Instruction.encodeAll after⟩

theorem Cursor.next_between (before after : List Instruction) {i : Instruction}
    (h : i.Encodable) :
    (between before (i :: after)).next = some (.ok i.written, between (before ++ [i]) after) := by
  have hc : between before (i :: after) =
      ⟨1 + (Instruction.encodeAll before).length, i.wire.bytes ++ Instruction.encodeAll after⟩ := by
    rw [Instruction.bytes_wire]
    rfl
  rw [hc, next_wire i.wire (Instruction.wire_fits h), Instruction.instruction_wire,
    Instruction.bytes_wire]
  simp [between, Instruction.encodeAll, Nat.add_assoc]

def Execution.Phase.cursor? : Phase → Option Cursor
  | reading c => some c
  | returned _ => none

namespace Execution

/-- Where the outermost frame reads on, unless it has returned. -/
def outermost? (x : Execution σ) : Option Cursor :=
  x.waiting.foldl (fun _ w => some w.rest) x.phase.cursor?

/-- The outermost frame runs, between two parts of its program. -/
def At (before after : List Instruction) (x : Execution σ) : Prop :=
  x.waiting = [] ∧ x.phase = .reading (.between before after)

theorem at_of_outermost? {x : Execution σ} {before after : List Instruction}
    (hK : x.waiting = []) (h : .between before after ∈ x.outermost?) : x.At before after := by
  obtain ⟨s, phase, K⟩ := x
  obtain rfl : K = [] := hK
  cases phase with
  | returned => cases h
  | reading c => exact ⟨rfl, congrArg Phase.reading (Option.some.inj h)⟩

theorem Moves.outermost {env : Env σ} {x y : Execution σ} (h : Moves env x y) {c : Cursor}
    (hc : c ∈ y.outermost?) : ∃ d ∈ x.outermost?,
      (x.waiting ≠ [] ∧ c = d) ∨ (x.waiting = [] ∧ c.rest.length < d.rest.length) := by
  cases h with
  | @reads _ _ d _ K h =>
    cases K with
    | nil =>
      cases hc
      exact ⟨d, rfl, .inr ⟨rfl, h⟩⟩
    | cons w K => exact ⟨c, hc, .inl ⟨nofun, rfl⟩⟩
  | @returns _ _ _ K =>
    cases K with
    | nil => cases hc
    | cons w K => exact ⟨c, hc, .inl ⟨nofun, rfl⟩⟩
  | @enters _ _ d _ _ K deep h =>
    cases K with
    | nil =>
      cases hc
      exact ⟨d, rfl, .inr ⟨rfl, h⟩⟩
    | cons w K => exact ⟨c, hc, .inl ⟨nofun, rfl⟩⟩
  | resumes => exact ⟨c, hc, .inl ⟨nofun, rfl⟩⟩
  | @passes _ _ _ _ K =>
    cases K with
    | nil => cases hc
    | cons w K => exact ⟨c, hc, .inl ⟨nofun, rfl⟩⟩
  | iterates => exact ⟨c, hc, .inl ⟨nofun, rfl⟩⟩

/-- The outermost frame stands within the first part of its program, or behind it. A word that it
has just pushed is on top of its stack. -/
def Along (first last : List Instruction) (x : Execution σ) : Prop :=
  ∀ c ∈ x.outermost?,
    (∃ before after, first = before ++ after ∧ c = .between before (after ++ last) ∧
      ∀ v, before.getLast? = some (.push v) →
        x.waiting = [] ∧ ∃ rest, x.state.frame.stack = .known v.toBytes :: rest) ∨
    c.rest.length < (Instruction.encodeAll last).length

variable {first last : List Instruction} {x : Execution σ}

/-- Behind the first part the word is on top that was pushed at its end. -/
theorem Along.top {v : Word} (h : x.Along (first ++ [.push v]) last)
    (hx : x.At (first ++ [.push v]) last) :
    ∃ rest, x.state.frame.stack = .known v.toBytes :: rest := by
  obtain ⟨s, phase, K⟩ := x
  obtain ⟨rfl, rfl⟩ : K = [] ∧ phase = _ := hx
  rcases h _ rfl with ⟨before, after, hsplit, hc, top⟩ | hlt
  · have hl := congrArg Cursor.offset hc
    have hle := Instruction.length_le_encodeAll after
    rw [hsplit] at hl
    simp only [Cursor.between, Instruction.encodeAll, List.flatMap_append, List.length_append]
      at hl hle
    obtain rfl : after = [] := List.length_eq_zero_iff.mp (by omega)
    refine (top v ?_).2
    rw [List.append_nil] at hsplit
    rw [← hsplit, List.getLast?_concat]
  · exact absurd hlt (Nat.lt_irrefl _)

end Execution

def Stage.setOutput (index : Nat) (s : State σ) (rest : Cursor) (K : List Waiting) :
    List (Value Question) → Stage σ
  | [] => .finished (.error (.stack .underflow), s.withStack [])
  | v :: stack =>
    .running ⟨{ s.withStack stack with outputs := s.outputs.set index v }, .reading rest, K⟩

namespace Env

open Execution Stage Eval

variable {env : Env σ} {P : Execution σ → Prop} {rest : Cursor} {K : List Waiting} {s : State σ}
  {first last : List Instruction}

theorem goesOn_push {v : Word}
    (h : P ⟨s.withStack (.known v.toBytes :: s.frame.stack), .reading rest, K⟩) :
    GoesOn P (env.perform rest K s (.push v)) := by
  show GoesOn P (Stage.next rest K ((pushWord v >>= fun _ => pure none) s))
  by_cases room : s.frame.size < s.frame.maxStack
  · have hp : pushWord v s = (.ok (), s.withStack (.known v.toBytes :: s.frame.stack)) :=
      push_of_lt _ room
    rw [Fallible.bind_of_ok hp]
    exact h
  · have hp : pushWord v s = (.error (.stack (.overflow s.frame.maxStack)), s) := by
      show push (.known v.toBytes) s = _
      rw [push, onFrame_apply, Frame.push, if_neg room]
    rw [Fallible.bind_apply, hp]
    trivial

/-- With the index of an output on top, `SET_OUTPUT` sets it or finds no value. -/
theorem perform_setOutput {w : Word} {stack : List (Value Question)}
    (hst : s.frame.stack = .known w.toBytes :: stack) (hw : w.toNat < s.outputs.length)
    (hsize : w.toNat ≤ maxSize) :
    env.perform rest K s (.plain .setOutput) = .setOutput w.toNat s rest K stack := by
  have hword : popWord env s = (.ok w, s.withStack stack) := by
    have hp : popWord env (s.withStack (.known w.toBytes :: stack)) = _ := popWord_known s w stack
    rwa [← hst] at hp
  have hp : popSize env s = (.ok w.toNat, s.withStack stack) := by
    rw [popSize_eq, Fallible.bind_of_ok hword, Word.toSize, if_pos hsize]
    rfl
  have hstep : step env (fun _ => pure 0) K.length (.plain .setOutput) s =
      ((popSize env >>= fun index => pop >>= fun v => setOutput index v) >>= fun _ =>
        pure none) s := rfl
  show Stage.next rest K (step env (fun _ => pure 0) K.length (.plain .setOutput) s) = _
  rw [hstep, bind_assoc, Fallible.bind_of_ok hp, bind_assoc]
  cases stack with
  | nil => rfl
  | cons v stack =>
    have hv : pop (s.withStack (v :: stack)) = (.ok v, s.withStack stack) := rfl
    have hset : setOutput w.toNat v (s.withStack stack) =
        (.ok (), { s.withStack stack with outputs := s.outputs.set w.toNat v }) := if_pos hw
    rw [Fallible.bind_of_ok hv, Fallible.bind_of_ok hset]
    rfl

theorem goesOn_outermost (env : Env σ) (rest : Cursor) (s : State σ) (i : Instruction) :
    GoesOn (fun y => (∀ c ∈ y.outermost?, c = rest) ∧ ∀ v, i = .push v →
      y.waiting = [] ∧ ∃ stack, y.state.frame.stack = .known v.toBytes :: stack)
      (env.perform rest [] s i.written) := by
  cases i with
  | push v =>
    refine goesOn_push ⟨fun c hc => (Option.some.inj hc).symm, fun v' hv => ⟨rfl, ?_⟩⟩
    obtain rfl := Instruction.push.inj hv
    exact ⟨_, rfl⟩
  | _ =>
    refine goesOn_perform (fun t => ?_) (fun t exitCode => ?_) (fun _ t c w hw => ?_) _
    · exact ⟨fun c hc => (Option.some.inj hc).symm, nofun⟩
    · exact ⟨nofun, nofun⟩
    · exact ⟨fun c hc => (Option.some.inj hc).symm.trans hw, nofun⟩

theorem advance_at {x : Execution σ} {before after : List Instruction} {i : Instruction}
    (hx : x.At before (i :: after)) (hi : i.Encodable) :
    env.advance x = env.perform (.between (before ++ [i]) after) [] x.state i.written := by
  obtain ⟨s, phase, K⟩ := x
  obtain ⟨rfl, rfl⟩ : K = [] ∧ phase = _ := hx
  show env.read _ [] s = _
  rw [read, Cursor.next_between _ _ hi]

theorem goesOn_along (hfirst : ∀ i ∈ first, i.Encodable) {x : Execution σ}
    (hx : x.Along first last) : GoesOn (Along first last) (env.advance x) := by
  cases h : env.advance x with
  | finished => trivial
  | running y =>
    intro c hc
    obtain ⟨d, hd, ⟨hK, rfl⟩ | ⟨hK, hlt⟩⟩ := (moves_of_advance h).outermost hc
    · -- below the outermost frame another one runs
      refine (hx c hd).imp_left ?_
      rintro ⟨before, after, hsplit, rfl, top⟩
      exact ⟨before, after, hsplit, rfl, fun v hv => absurd (top v hv).1 hK⟩
    rcases hx d hd with ⟨before, after, rfl, rfl, -⟩ | past
    · cases after with
      | nil => exact Or.inr hlt
      | cons i after =>
        have hat : x.At before (i :: (after ++ last)) := at_of_outermost? hK hd
        have hy := goesOn_outermost env (.between (before ++ [i]) (after ++ last)) x.state i
        rw [← advance_at hat (hfirst i (by simp)), h] at hy
        refine Or.inl ⟨before ++ [i], after, by simp, hy.1 c hc, fun v hv => hy.2 v ?_⟩
        rw [List.getLast?_concat] at hv
        exact Option.some.inj hv
    · exact Or.inr (hlt.trans past)

/-- The outermost frame goes along its program. -/
theorem along_of_visits (hfirst : ∀ i ∈ first, i.Encodable) {count : UInt8} {session : Session σ}
    {x : Execution σ}
    (h : env.Visits ⟨count, Instruction.encodeAll (first ++ last)⟩ session (.running x)) :
    x.Along first last := by
  have start : GoesOn (Along first last)
      (env.begin ⟨count, Instruction.encodeAll (first ++ last)⟩ session) :=
    fun c hc => Or.inl ⟨[], first, rfl, (Option.some.inj hc).symm, nofun⟩
  have kept : GoesOn (Along first last) (.running x) :=
    h.preserves (fun _ => goesOn_along hfirst) start
  exact kept

end Env

namespace Builder

open Execution

theorem instructions_emits {first : List Call} {call : Call} {i : UInt8}
    (h : call.emits (build first) = some i) (last : List Call) :
    ∃ after, (build (first ++ call :: last)).instructions = (build first).instructions ++
      .push (BitVec.ofNat 256 i.toNat) :: .plain .setOutput :: after := by
  rw [build_append, List.foldl_cons, Call.run_of_emits h]
  obtain ⟨after, hafter⟩ := (Extends.foldl ((build first).setOutput i) last).instructions
  refine ⟨after, ?_⟩
  rw [← hafter, instructions_setOutput]
  simp

/-- A program that is built declares the outputs that its calls set, apart from the last index. -/
theorem lt_outputs_emits {first : List Call} {call : Call} {i : UInt8}
    (h : call.emits (build first) = some i) (hi : i ≠ 255) (last : List Call) :
    i < (build (first ++ call :: last)).outputs := by
  rw [build_append, List.foldl_cons, Call.run_of_emits h]
  exact UInt8.lt_of_lt_of_le (lt_outputs_setOutput _ hi) (Extends.foldl _ last).outputs

theorem advance_setOutput {env : Env σ} {session : Session σ} {b : Builder} {w : Word}
    {before after : List Instruction}
    (hb : b.instructions = before ++ .push w :: .plain .setOutput :: after)
    (hw : w.toNat < b.outputs.toNat) (hbefore : ∀ j ∈ before, j.Encodable) {x : Execution σ}
    (hx : env.Visits b.encode session (.running x))
    (hat : x.At (before ++ [.push w]) (.plain .setOutput :: after)) :
    ∃ stack, env.advance x = .setOutput w.toNat x.state
      (.between (before ++ [.push w] ++ [.plain .setOutput]) after) [] stack := by
  have houtput : w.toNat < x.state.outputs.length :=
    hw.trans_eq ((evaluation_within env b.encode session).1 x hx).2.1.symm
  have hsize : w.toNat ≤ maxSize := (hw.trans b.outputs.toNat_lt).le.trans (by decide)
  have hfirst : ∀ j ∈ before ++ [.push w], j.Encodable := by
    rintro j hj
    rcases List.mem_append.mp hj with hj | hj
    · exact hbefore j hj
    · rw [List.mem_singleton.mp hj]
      trivial
  have hsplit : b.instructions = (before ++ [.push w]) ++ .plain .setOutput :: after := by
    simpa using hb
  rw [encode, hsplit] at hx
  obtain ⟨stack, hstack⟩ := (Env.along_of_visits hfirst hx).top hat
  exact ⟨stack, (Env.advance_at hat trivial).trans (Env.perform_setOutput hstack houtput hsize)⟩

/-- A program that is built declares every output that a call sets, apart from the last index, so
setting it does not fail for its index when the program runs. No later call that adds an output sets
that one. -/
theorem outputs_declared (env : Env σ) (session : Session σ) (first last : List Call)
    (call : Call) {i : UInt8} (h : call.emits (build first) = some i) :
    let b := build (first ++ call :: last)
    (i < b.encode.outputs ↔ i ≠ 255) ∧
      (i ≠ 255 → ∀ mid rest j, last = mid ++ .addOutput :: rest →
        Call.addOutput.emits (build (first ++ call :: mid)) = some j → i < j) ∧
      ∃ after, b.instructions = (build first).instructions ++
          .push (BitVec.ofNat 256 i.toNat) :: .plain .setOutput :: after ∧
        (i ≠ 255 → (∀ j ∈ (build first).instructions, j.Encodable) → ∀ x,
          env.Visits b.encode session (.running x) →
          x.At ((build first).instructions ++ [.push (BitVec.ofNat 256 i.toNat)])
            (.plain .setOutput :: after) →
          ∀ k n s, env.advance x ≠ .finished (.error (.index (.output k n)), s)) := by
  intro b
  have declared (hi : i ≠ 255) : i < b.outputs := lt_outputs_emits h hi last
  obtain ⟨after, hb⟩ := instructions_emits h last
  refine ⟨⟨?_, declared⟩, fun hi mid rest j _ hj => ?_, after, hb, ?_⟩
  · rintro hlt rfl
    exact Nat.not_lt_of_le (Nat.le_of_lt_succ b.outputs.toNat_lt) (UInt8.lt_iff_toNat_lt.mp hlt)
  · obtain rfl := Option.some.inj hj
    exact lt_outputs_emits h hi mid
  · intro hi hfirst x hx hat k n s hadv
    have hw : (BitVec.ofNat 256 i.toNat).toNat = i.toNat :=
      Nat.mod_eq_of_lt (i.toNat_lt.trans (by decide))
    have hdeclared := hw.trans_lt (UInt8.lt_iff_toNat_lt.mp (declared hi))
    obtain ⟨stack, hset⟩ := advance_setOutput hb hdeclared hfirst hx hat
    rw [hadv] at hset
    cases stack <;> cases hset

/-- The last output that can be declared is set, and a call that adds another one gets the index
behind it. -/
theorem outputs_declared_last :
    let env : Env Nat := ⟨Chain.source {}, {}⟩
    let first : List Call := [.withOutputs 254, .push 9]
    let next : List Call := [.push 8]
    let b := build (first ++ .addOutput :: (next ++ [.addOutput]))
    let after : List Instruction := [.plain .setOutput, .push 8, .push 255, .plain .setOutput]
    Call.addOutput.emits (build first) = some 254 ∧ 254 < b.encode.outputs ∧
      Call.addOutput.emits (build (first ++ .addOutput :: next)) = some 255 ∧ 254 < (255 : UInt8) ∧
      ∃ x, env.Visits b.encode { source := 0 } (.running x) ∧ x.At [.push 9, .push 254] after ∧
        ∀ k n s, env.advance x ≠ .finished (.error (.index (.output k n)), s) := by
  intro env first next b after
  let x : Execution Nat := ⟨(env.start b.encode { source := 0 }).withStack
      [.known (Word.toBytes 254), .known (Word.toBytes 9)],
    .reading (.between [.push 9, .push 254] after), []⟩
  have visits : env.Visits b.encode { source := 0 } (.running x) := ⟨2, rfl⟩
  have emits : Call.addOutput.emits (build first) = some 254 := rfl
  have again : Call.addOutput.emits (build (first ++ .addOutput :: next)) = some 255 := rfl
  obtain ⟨declared, fresh, after', hb, run⟩ := outputs_declared env { source := 0 } first
    (next ++ [.addOutput]) .addOutput emits
  obtain rfl : after' = after.tail := by
    cases hb
    rfl
  have encodable : ∀ j ∈ (build first).instructions, j.Encodable := by
    intro j hj
    rw [List.mem_singleton.mp hj]
    trivial
  have hi : (254 : UInt8) ≠ 255 := by decide
  exact ⟨emits, declared.mpr hi, again, fresh hi next [] 255 rfl again, x, visits, ⟨rfl, rfl⟩,
    run hi encodable x visits ⟨rfl, rfl⟩⟩

/-- The last index is not declared, so setting that output fails. Two calls that add an output may
both get it. -/
theorem outputs_undeclared :
    let env : Env Nat := ⟨Chain.source {}, {}⟩
    let b := build [.push 7, .setOutput 255]
    ((Call.setOutput 255).emits (build [.push 7]) = some 255 ∧ ¬255 < b.encode.outputs ∧
      (env.run b.encode { source := 0 }).1 = .error (.index (.output 255 255))) ∧
    Call.addOutput.emits (build [.withOutputs 255]) = some 255 ∧
      Call.addOutput.emits (build [.withOutputs 255, .addOutput]) = some 255 := by
  refine ⟨⟨rfl, by decide, ?_⟩, rfl, rfl⟩
  decide +kernel

end Builder

end ChainRead
