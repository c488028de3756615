import ChainRead.Proofs.Evaluation.Loop
import ChainRead.Proofs.Evaluation.Twins

/-! # Inlined programs

A program that is run in place shares the frame, the outputs, the trace and the session of the one
that runs it. So it does what its instructions would do there, except that it stands one level
deeper and that its exit code zero lets the frame go on.
-/

namespace ChainRead

open Coupling Eval

variable {σ α : Type}

/-! ## One level deeper -/

namespace Inlining

/-- The comparison of evaluations of which the left one stands deeper. They do the same until the
limit on the depth stops the left one. -/
def simulation (env : Env σ) : Simulation Unit σ σ where
  config := env.config
  left := env.source
  right := env.source
  value v v' := Fact.of (v = v')
  target _ := ⊤
  inv m n _ := m = n
  ended p q := p.1 = .error (.budget (.maxEvalDepth env.config.maxEvalDepth.toNat)) ∨
    (∃ e, p.1 = .error e) ∧ p = q
  ended_left e h := by
    rcases h with h | ⟨⟨_, h⟩, _⟩ <;> cases h
  ended_right q h := by
    rcases h with h | ⟨⟨_, h⟩, hq⟩
    · exact Or.inl h
    · rw [hq] at h
      cases h

variable {env : Env σ} {P : Fact Unit}

theorem lawful (env : Env σ) : (simulation env).Lawful :=
  Twins.lawful env (· = .error (.budget (.maxEvalDepth env.config.maxEvalDepth.toNat))) nofun

variable {nested nested' : Bytes → Eval σ UInt8}
  (H : ∀ program, (simulation env).whole.Follows ⊤ (nested program) (nested' program) same)
include H

theorem step (depth depth' : Nat) (i : Instruction) (hi : i.Encodable) :
    (simulation env).whole.Follows ⊤ (Eval.step env nested depth i)
      (Eval.step env nested' depth' i) same := by
  cases i with
  | debug label =>
    have h : (simulation env).whole.Follows ⊤ (snapshot label depth) (snapshot label depth') any :=
      ⟨fun _ hi => .both _ () () le_rfl rfl rfl trivial ⟨hi.frame, hi.outputs, hi.memory⟩, id⟩
    exact h.bind_any fun _ _ => .pure fun _ _ => rfl
  | _ => exact (lawful env).steps H depth _ hi

theorem runList (depth depth' : Nat) (fault : Option EncodingError) (is : List Instruction)
    (hi : ∀ i ∈ is, i.Encodable) :
    (simulation env).whole.Follows ⊤ (Eval.runList env nested depth fault is)
      (Eval.runList env nested' depth' fault is) same := by
  induction is with
  | nil =>
    cases fault with
    | none => exact .pure fun _ _ => rfl
    | some cause => exact (lawful env).throw _
  | cons i rest ih =>
    rw [List.forall_mem_cons] at hi
    apply (step H depth depth' i hi.1).bind_same
    intro stop
    cases stop with
    | none => exact ih hi.2
    | some exitCode =>
      refine (Simulation.modifyFrame fun _ hf => ?_).bind_any fun _ _ => .pure fun _ _ => rfl
      exact { hf with exitCode := rfl }

omit H in
theorem tooDeep {x : Eval σ α} {Q : α → α → Fact Unit} :
    (simulation env).whole.Follows P
      (MonadExcept.throw (.budget (.maxEvalDepth env.config.maxEvalDepth.toNat))) x Q :=
  ⟨fun _ _ => .halted (Or.inl rfl), fun h => (simulation env).ended_left _ h⟩

omit H in
theorem below_runProgram {depth depth' : Nat} {program : Bytes}
    (h : ∀ program, (simulation env).whole.Follows ⊤ (Eval.below env (depth + 1) program)
      (nested' program) same) :
    (simulation env).whole.Follows ⊤ (Eval.below env depth program)
      (runProgram env nested' depth' program) same := by
  by_cases deep : depth + 1 ≤ env.config.maxEvalDepth.toNat
  · rw [Eval.below, if_pos deep, runFrame_eq env deep]
    exact runList h _ _ _ _ (Listing.encodable program)
  · rw [Eval.below, if_neg deep]
    exact tooDeep

omit H in
theorem below {depth depth' : Nat} (h : depth' ≤ depth) (program : Bytes) :
    (simulation env).whole.Follows ⊤ (Eval.below env depth program)
      (Eval.below env depth' program) same := by
  generalize hk : env.config.maxEvalDepth.toNat - depth = k
  induction k generalizing depth depth' program with
  | zero =>
    rw [Eval.below, if_neg (by omega)]
    exact tooDeep
  | succ k ih =>
    have right : Eval.below env depth' program =
        runProgram env (Eval.below env (depth' + 1)) (depth' + 1) program := by
      rw [Eval.below, if_pos (by omega), runFrame_eq env (by omega)]
    rw [right]
    exact below_runProgram fun p => ih (by omega) p (by omega)

omit H in
theorem nested_runProgram (env : Env σ) (depth : Nat) (program : Bytes) :
    (simulation env).whole.Follows ⊤ (Eval.below env depth program)
      (runProgram env (Eval.below env depth) depth program) same :=
  below_runProgram fun p => below (Nat.le_succ depth) p

end Inlining

/-! ## Going on -/

def State.withStack (s : State σ) (stack : List (Value Question)) : State σ :=
  { s with frame := { s.frame with stack } }

theorem Instruction.assert_mem_of_written {is : List Instruction} {exitCode : UInt8}
    (h : assert exitCode ∈ is.map written) : assert exitCode ∈ is := by
  obtain ⟨i, hi, h⟩ := List.mem_map.mp h
  cases i with
  | debug label =>
    rw [written_debug] at h
    cases h
  | assert code =>
    cases h
    exact hi
  | _ => cases h

namespace Eval

variable (env : Env σ) (nested : Bytes → Eval σ UInt8) (depth : Nat)

def resume (is : List Instruction) (exitCode : UInt8) : Eval σ UInt8 :=
  if exitCode = 0 then runList env nested depth none is
  else do
    modifyFrame fun f => { f with exitCode }
    return exitCode

variable {env nested depth}

/-- Only an assertion stops a frame with exit code zero. -/
theorem ne_zero_of_step {i : Instruction} (hi : i ≠ .assert 0) {s t : State σ} {exitCode : UInt8}
    (h : step env nested depth i s = (.ok (some exitCode), t)) : exitCode ≠ 0 := by
  cases i with
  | assert code =>
    obtain ⟨condition, u, -, h⟩ := Fallible.bind_ok h
    rcases condition with _ | _ <;> cases h
    exact fun h => hi (congrArg _ h)
  | eval =>
    obtain ⟨program, u, -, h⟩ := Fallible.bind_ok h
    obtain ⟨condition, v, -, h⟩ := Fallible.bind_ok h
    rcases condition with _ | _
    · cases h
    · obtain ⟨code, w, -, h⟩ := Fallible.bind_ok h
      by_cases hc : code = 0
      · rw [if_pos hc] at h
        cases h
      · rw [if_neg hc] at h
        cases h
        exact hc
  | _ =>
    obtain ⟨_, u, -, h⟩ := Fallible.bind_ok h
    cases h

theorem runList_append {is : List Instruction} (hi : .assert 0 ∉ is) (rest : List Instruction) :
    runList env nested depth none (is ++ rest) =
      runList env nested depth none is >>= resume env nested depth rest := by
  induction is with
  | nil => rfl
  | cons i is ih =>
    rw [List.mem_cons, not_or] at hi
    funext s
    rw [List.cons_append, runList, runList, Fallible.bind_apply, bind_assoc, Fallible.bind_apply]
    rcases h : step env nested depth i s with ⟨e | _ | exitCode, t⟩
    · rfl
    · exact congrFun (ih hi.2) t
    · have hc : exitCode ≠ 0 := ne_zero_of_step (Ne.symm hi.1) h
      simp only [resume, bind_assoc, pure_bind, if_neg hc]
      rfl

theorem push_of_lt {s : State σ} (v : Value Question) (h : s.frame.size < s.frame.maxStack) :
    push v s = (.ok (), s.withStack (v :: s.frame.stack)) := by
  rw [push, onFrame_apply, Frame.push, if_pos h]
  rfl

theorem popBytes_known (s : State σ) (bytes : Bytes) (rest : List (Value Question)) :
    popBytes env (s.withStack (.known bytes :: rest)) = (.ok bytes, s.withStack rest) := by
  rw [popBytes_eq]
  rfl

theorem popWord_known (s : State σ) (w : Word) (rest : List (Value Question)) :
    popWord env (s.withStack (.known w.toBytes :: rest)) = (.ok w, s.withStack rest) := by
  rw [popWord_eq, Fallible.bind_of_ok (popBytes_known s w.toBytes rest), Word.ofOperand_toBytes]
  rfl

theorem runList_of_none {i : Instruction} {s t : State σ}
    (h : step env nested depth i s = (.ok none, t)) (rest : List Instruction) :
    runList env nested depth none (i :: rest) s = runList env nested depth none rest t := by
  rw [runList, Fallible.bind_of_ok h]

/-- A program that is pushed and run in place under a true condition finds the stack as it was. -/
theorem runList_inline {program : Bytes} {rest : List Instruction} {s : State σ}
    (room : s.frame.size + 2 ≤ s.frame.maxStack) :
    runList env nested depth none (.push 1 :: .pushBytes program :: .eval :: rest) s =
      (nested program >>= resume env nested depth rest) s := by
  let condition := Value.known (Q := Question) (Word.toBytes 1)
  let stack := s.frame.stack
  have hone : step env nested depth (.push 1) s = (.ok none, s.withStack (condition :: stack)) := by
    have hp : pushWord 1 s = (.ok (), s.withStack (condition :: stack)) :=
      push_of_lt _ (Nat.lt_of_succ_le (Nat.le_of_succ_le room))
    rw [step, Fallible.bind_of_ok hp]
    rfl
  have hprogram : step env nested depth (.pushBytes program) (s.withStack (condition :: stack)) =
      (.ok none, s.withStack (.known program :: condition :: stack)) := by
    have hp : push (.known program) (s.withStack (condition :: stack)) =
        (.ok (), s.withStack (.known program :: condition :: stack)) := push_of_lt _ room
    rw [step, Fallible.bind_of_ok hp]
    rfl
  have heval : step env nested depth .eval (s.withStack (.known program :: condition :: stack)) =
      (nested program >>= fun exitCode => pure (if exitCode = 0 then none else some exitCode))
        s := by
    have hb : popBool env (s.withStack (condition :: stack)) = (.ok true, s) := by
      rw [popBool_eq, Fallible.bind_of_ok (popBytes_known ..)]
      rfl
    rw [step, evalInline, Fallible.bind_of_ok (popBytes_known ..), Fallible.bind_of_ok hb]
    rfl
  rw [runList_of_none hone, runList_of_none hprogram, runList, Fallible.bind_apply, heval,
    Fallible.bind_apply, Fallible.bind_apply]
  rcases nested program s with ⟨e | exitCode, t⟩
  · rfl
  · by_cases hc : exitCode = 0
    · simp only [resume, if_pos hc]
      rfl
    · simp only [resume, if_neg hc]
      rfl

end Eval

/-! ## Running a program in place -/

/-- Two runs end alike: with the same exit code, frame and outputs or the same failure, and in any
case with the same trace and session. -/
structure EndAlike (p q : Except EvalError UInt8 × State σ) : Prop where
  result : p.1 = q.1
  session : p.2.session = q.2.session
  trace : p.2.trace = q.2.trace
  frame : ∀ exitCode, p.1 = .ok exitCode → p.2.frame = q.2.frame
  outputs : ∀ exitCode, p.1 = .ok exitCode → p.2.outputs = q.2.outputs

theorem Twins.endAlike {env : Env σ} {excused : Except EvalError Unit → Prop}
    {h : ¬ excused (.ok ())} {p q : Except EvalError UInt8 × State σ} {w : Unit}
    (hr : (twins env excused h).whole.Result w same p q) (hp : ¬ excused (forget p).1) :
    EndAlike p q := by
  cases hr with
  | both v a b le left right post inv =>
    have hm : p.2.memory = q.2.memory := inv.memory
    obtain rfl : a = b := post
    refine ⟨left.trans right.symm, congrArg Prod.fst hm, congrArg Prod.snd hm, fun _ _ => ?_,
      fun _ _ => values_eq v inv.outputs⟩
    exact frame_eq inv.frame
  | halted he =>
    rcases he with he | ⟨⟨e, he⟩, hpq⟩
    · exact absurd he hp
    · have hq : (forget q).1 = .error e := (congrArg Prod.fst hpq).symm.trans he
      have left := eq_error_of_forget he
      have right := eq_error_of_forget hq
      have hm : p.2.memory = q.2.memory := congrArg Prod.snd hpq
      refine ⟨left.trans right.symm, congrArg Prod.fst hm, congrArg Prod.snd hm, ?_, ?_⟩
      all_goals
        intro exitCode hok
        cases left.symm.trans hok

namespace Inlining

variable {env : Env σ}

theorem resume_follows (env : Env σ) (depth : Nat) {is : List Instruction}
    (hi : ∀ i ∈ is, i.Encodable) (exitCode : UInt8) :
    (simulation env).whole.Follows ⊤ (resume env (Eval.below env depth) depth is exitCode)
      (resume env (Eval.below env depth) depth is exitCode) same := by
  refine .ite (runList (fun p => below le_rfl p) depth depth none is hi) ?_
  refine (Simulation.modifyFrame fun _ hf => ?_).bind_any fun _ _ => .pure fun _ _ => rfl
  exact { hf with exitCode := rfl }

theorem endAlike {p q : Except EvalError UInt8 × State σ} {w : Unit}
    (h : (simulation env).whole.Result w same p q)
    (hp : p.1 ≠ .error (.budget (.maxEvalDepth env.config.maxEvalDepth.toNat))) :
    EndAlike p q := by
  have h : (twins env (· = .error (.budget (.maxEvalDepth env.config.maxEvalDepth.toNat)))
    nofun).whole.Result w same p q := h
  exact Twins.endAlike h fun he => hp (eq_error_of_forget he)

end Inlining

open Inlining in
/-- A frame that runs a program in place and then goes on does what it would do if the program's
instructions stood there, unless the limit on the depth is in the way. The program's own level must
not stop it with exit code zero. -/
theorem runFrame_inlined (env : Env σ) {depth : Nat} (hd : depth ≤ env.config.maxEvalDepth.toNat)
    (header header' header'' : UInt8) {p q : List Instruction} (hp : ∀ i ∈ p, i.Encodable)
    (hq : ∀ i ∈ q, i.Encodable) (h0 : .assert 0 ∉ p) {s : State σ}
    (hs : s.frame.maxStack = env.config.maxStackSize.toNat)
    (room : s.frame.size + 2 ≤ s.frame.maxStack) :
    let program := header :: Instruction.encodeAll p
    let run := runFrame env (env.config.maxEvalDepth.toNat - depth)
    let nesting := run (header' :: Instruction.encodeAll
      ([.push 1, .pushBytes program, .eval] ++ q)) s
    program.length < 2 ^ 32 →
    nesting.1 ≠ .error (.budget (.maxEvalDepth env.config.maxEvalDepth.toNat)) →
      EndAlike nesting (run (header'' :: Instruction.encodeAll (p ++ q)) s) := by
  intro program run nesting hl hn
  have hin : ∀ i ∈ [.push 1, .pushBytes program, .eval] ++ q, i.Encodable := by
    simpa [Instruction.Encodable] using And.intro hl hq
  have hpq : ∀ i ∈ p ++ q, i.Encodable := by
    simpa using fun i hi => hi.elim (hp i) (hq i)
  have hqw : ∀ i ∈ q.map Instruction.written, i.Encodable := by
    simpa using fun i hi => Instruction.Encodable.written (hq i hi)
  have hw : .assert 0 ∉ p.map Instruction.written := mt Instruction.assert_mem_of_written h0
  have hrun (program : Bytes) : run program = runProgram env (below env depth) depth program :=
    runFrame_eq env hd program
  -- on both sides the frame goes on alike after the program, which stands deeper on the left
  have left : nesting = (below env depth program >>=
      resume env (below env depth) depth (q.map Instruction.written)) s := by
    simp only [nesting, hrun, runProgram, Listing.ofBytes_encodeAll _ hin]
    exact runList_inline room
  have right : run (header'' :: Instruction.encodeAll (p ++ q)) s =
      (runProgram env (below env depth) depth program >>=
        resume env (below env depth) depth (q.map Instruction.written)) s := by
    simp only [hrun, runProgram, program, Listing.ofBytes_encodeAll _ hpq,
      Listing.ofBytes_encodeAll _ hp, List.map_append]
    rw [runList_append hw]
  have start : (simulation env).whole.inv s s () :=
    ⟨⟨rfl, trivial, rfl, rfl, hs, hs, List.forall₂_same.mpr fun _ _ => rfl⟩,
      List.forall₂_same.mpr fun _ _ => rfl, rfl⟩
  have inner := nested_runProgram env depth program
  have resumed := resume_follows env depth hqw
  have result := (inner.bind_same resumed).run trivial start
  rw [← left, ← right] at result
  exact endAlike result hn

/-- A program runs another one in place, which asserts zero, selects a slot and stops the frame. -/
theorem runFrame_inlined_slot :
    let env : Env Nat := ⟨Chain.source {}, {}⟩
    let passes : Bytes := 0 :: Instruction.encodeAll [.push 0, .assert 0]
    let p : List Instruction := [.push 3, .plain .setSlot, .push 1, .pushBytes passes, .eval,
      .plain .readSlot]
    let q : List Instruction := [.push 0, .plain .setOutput, .push 0, .assert 7]
    let program := 0 :: Instruction.encodeAll p
    let s : State Nat := { env.start ⟨1, []⟩ { source := 0 } with
      frame := { target := 5, maxStack := env.config.maxStackSize.toNat } }
    let run := runFrame env (env.config.maxEvalDepth.toNat - 0)
    let nesting := run (1 :: Instruction.encodeAll
      ([.push 1, .pushBytes program, .eval] ++ q)) s
    nesting.1 = .ok 7 ∧ nesting.2.frame.slot = 3 ∧
      EndAlike nesting (run (1 :: Instruction.encodeAll (p ++ q)) s) := by
  intro env passes p q program s run nesting
  have hb : passes.length < 2 ^ 32 := by decide +kernel
  have hp : ∀ i ∈ p, i.Encodable := by simpa [p, Instruction.Encodable] using hb
  have hq : ∀ i ∈ q, i.Encodable := by simp [q, Instruction.Encodable]
  have hl : program.length < 2 ^ 32 := by decide +kernel
  have hr : nesting.1 = .ok 7 := by decide +kernel
  have hn : nesting.1 ≠ .error (.budget (.maxEvalDepth env.config.maxEvalDepth.toNat)) := by
    rw [hr]
    intro h
    cases h
  have same := runFrame_inlined env (Nat.zero_le _) 0 1 1 hp hq (by decide) rfl (by decide) hl hn
  exact ⟨hr, by decide +kernel, same⟩

end ChainRead
