import ChainRead.Proofs.Evaluation.Attesting
import ChainRead.Proofs.Evaluation.Spending

/-! # Reads of supplied bytes are tallied

Every instruction that reads supplied bytes pops their hash, registers a need of its own and pushes
the value that the need holds. Nothing else registers such needs, so the instructions of a history
that read supplied bytes are tallied with the needs for them.
-/

namespace ChainRead

open Need Coupling

variable {σ : Type}

namespace Moment

def isRead (m : Moment σ) : Bool :=
  match m.instruction with
  | .plain .readHashedBytes => true
  | _ => false

/-- An instruction popped a hash and pushed the value that its need for supplied bytes holds. -/
structure Reads (env : Env σ) (m : Moment σ) (p : Word × Value Question) : Prop where
  popped : (Eval.popWord env m.before).1 = .ok p.1
  pushed : m.after.frame.stack.head? = some p.2
  registered : m.after.trace.needs = m.before.trace.needs ++ [.read (.hashed p.1 p.2)]

/-- The instructions of a history that read supplied bytes, in the order of their execution. -/
def reads (H : List (Moment σ)) : List (Moment σ) := (H.filter isRead).reverse

theorem reads_cons_of_read {m : Moment σ} (h : m.isRead = true) (H : List (Moment σ)) :
    reads (m :: H) = reads H ++ [m] := by
  simp [reads, h]

theorem reads_cons_of_other {m : Moment σ} (h : m.isRead = false) (H : List (Moment σ)) :
    reads (m :: H) = reads H := by
  simp [reads, h]

end Moment

namespace Eval

variable {α β : Type} {env : Env σ} {s t : State σ}

theorem readHashedBytes_ok {a : Unit} (h : readHashedBytes env s = (.ok a, t)) :
    ∃ p : Word × Value Question, (popWord env s).1 = .ok p.1 ∧ t.frame.stack.head? = some p.2 ∧
      t.trace.needs = s.trace.needs ++ [.read (.hashed p.1 p.2)] := by
  obtain ⟨hash, s₁, h₁, h⟩ := Fallible.bind_ok h
  obtain ⟨v, s₂, h₂, h⟩ := Fallible.bind_ok h
  obtain ⟨_, s₃, h₃, h⟩ := Fallible.bind_ok h
  obtain ⟨hv, ht⟩ := head_push h
  have effect := Trace.Effect.addHashed (t := s₂.trace) hash v
  rw [trace_onTrace h₃] at effect
  refine ⟨(hash, v), congrArg Prod.fst h₁, hv, ?_⟩
  rw [ht, effect.post rfl, trace_kept h₂ rfl, trace_kept h₁ rfl]

/-- A computation registers at most `n` needs for supplied bytes, whether it fails or not. -/
def Supplies (n : Nat) (x : Eval σ α) : Prop :=
  ∀ s, ∃ new, supplied (x s).2.trace.needs = supplied s.trace.needs ++ new ∧ new.length ≤ n

namespace Supplies

theorem of_kept {x : Eval σ α} (h : ∀ s, (x s).2.trace = s.trace) : Supplies 0 x :=
  fun s => ⟨[], by rw [h, List.append_nil], Nat.le_refl 0⟩

theorem bind {x : Eval σ α} {f : α → Eval σ β} {m n : Nat} (hx : Supplies m x)
    (hf : ∀ a, Supplies n (f a)) : Supplies (m + n) (x >>= f) := by
  intro s
  obtain ⟨new, he, hl⟩ := hx s
  rw [Fallible.bind_apply]
  rcases hp : x s with ⟨e | a, u⟩ <;> rw [hp] at he
  · exact ⟨new, he, by omega⟩
  · obtain ⟨later, he', hl'⟩ := hf a u
    refine ⟨new ++ later, ?_, ?_⟩
    · rw [he', he, List.append_assoc]
    · rw [List.length_append]
      omega

theorem addHashed (hash : Word) (v : Value Question) :
    Supplies (σ := σ) 1 (onTrace (Trace.addHashed hash v)) := by
  intro s
  rcases Trace.supplied_addHashed hash v s.trace with h | h
  · exact ⟨[], h.trans (List.append_nil _).symm, Nat.zero_le 1⟩
  · exact ⟨[(hash, v)], h, Nat.le_refl 1⟩

theorem readHashedBytes (env : Env σ) : Supplies 1 (readHashedBytes env) :=
  bind (of_kept fun _ => rfl) fun hash => bind (of_kept fun _ => rfl) fun v =>
    bind (addHashed hash v) fun _ => of_kept fun _ => rfl

end Supplies

end Eval

/-! ## The tally -/

/-- The needs for supplied bytes are those of the reads in a history, and they are attested. What
was settled by a moment is known, and still settled at later ones. No instruction unsettles anything
in between. -/
structure Tallied (env : Env σ) (ps : List (Word × Value Question)) (H : List (Moment σ))
    (w : Ledger) : Prop where
  reads : List.Forall₂ (Moment.Reads env) (Moment.reads H) ps
  attested : ∀ p ∈ ps, attested env.config.maxSuppliedBytes.toNat p w
  settled : ∀ m ∈ H, ∀ id o, m.after.session.outcome? id = some o → (id, o) ∈ w.found
  ordered : H.Pairwise fun later earlier => earlier.after.session.Settles later.after.session
  kept : ∀ m ∈ H, m.before.session.Settles m.after.session

namespace Tallied

variable {env : Env σ} {ps : List (Word × Value Question)} {H : List (Moment σ)} {m : Moment σ}
  {w w' : Ledger}

theorem nil : Tallied env [] [] w where
  reads := .nil
  attested := by simp
  settled := by simp
  ordered := .nil
  kept := by simp

theorem mono (h : Tallied env ps H w) (hw : w ≤ w') : Tallied env ps H w' where
  reads := h.reads
  attested p hp := (ChainRead.attested _ p).monotone hw (h.attested p hp)
  settled m hm id o ho := hw.2.1 (h.settled m hm id o ho)
  ordered := h.ordered
  kept := h.kept

section Noted

variable (h : Tallied env ps H w)
  (hm : ∀ id o, m.after.session.outcome? id = some o ↔ (id, o) ∈ w.found)
  (hk : m.before.session.Settles m.after.session)
include h hm hk

theorem noted {qs : List (Word × Value Question)}
    (reads : List.Forall₂ (Moment.Reads env) (Moment.reads (m :: H)) qs)
    (attested : ∀ p ∈ qs, ChainRead.attested env.config.maxSuppliedBytes.toNat p w) :
    Tallied env qs (m :: H) w where
  reads := reads
  attested := attested
  settled := by
    rw [List.forall_mem_cons]
    exact ⟨fun id o ho => (hm id o).mp ho, h.settled⟩
  ordered := by
    rw [List.pairwise_cons]
    exact ⟨fun k hk id o ho => (hm id o).mpr (h.settled k hk id o ho), h.ordered⟩
  kept := List.forall_mem_cons.mpr ⟨hk, h.kept⟩

theorem other (hi : m.isRead = false) : Tallied env ps (m :: H) w := by
  refine h.noted hm hk ?_ h.attested
  rw [Moment.reads_cons_of_other hi]
  exact h.reads

theorem read {p : Word × Value Question} (hi : m.isRead = true) (hp : m.Reads env p)
    (ha : ChainRead.attested env.config.maxSuppliedBytes.toNat p w) :
    Tallied env (ps ++ [p]) (m :: H) w := by
  refine h.noted hm hk ?_ ?_
  · rw [Moment.reads_cons_of_read hi]
    exact List.rel_append h.reads (.cons hp .nil)
  · rw [List.forall_mem_append]
    exact ⟨h.attested, by simpa using ha⟩

end Noted

end Tallied

/-- Reads are tallied with needs. A read that failed may have registered one more. -/
def tally (env : Env σ) : Bearing (List (Moment σ)) where
  going ps H :=
    { toFun w := Tallied env ps H w
      monotone' _ _ hw h := h.mono hw }
  failed ps H :=
    { toFun w := ∃ told new, ps = told ++ new ∧ new.length ≤ 1 ∧ Tallied env told H w ∧
        ∀ p ∈ new, attested env.config.maxSuppliedBytes.toNat p w
      monotone' := by
        rintro w w' hw ⟨told, new, he, hl, ht, ha⟩
        exact ⟨told, new, he, hl, ht.mono hw, fun p hp => (attested _ p).monotone hw (ha p hp)⟩ }
  failed_of ps H w h := ⟨ps, [], (List.append_nil ps).symm, Nat.zero_le 1, h, by simp⟩

def still (max : Nat) (H₀ : List (Moment σ)) (w₀ : Ledger) : Bearing (List (Moment σ)) :=
  let R (ps : List (Word × Value Question)) (H : List (Moment σ)) : Fact Ledger :=
    { toFun w := H = H₀ ∧ w₀ ≤ w ∧ ∀ p ∈ ps, attested max p w
      monotone' := by
        rintro w w' hw ⟨he, hle, ha⟩
        exact ⟨he, hle.trans hw, fun p hp => (attested max p).monotone hw (ha p hp)⟩ }
  ⟨R, R, fun _ _ => le_rfl⟩

namespace Attesting

variable {config : Config} {src : Source σ}

open Eval Watching

theorem open_still {max : Nat} {H : List (Moment σ)} {w : Ledger} : Open (still max H w) max := by
  rintro ps extra v p ⟨he, hle, ha⟩ hp
  refine ⟨he, hle, ?_⟩
  rw [List.forall_mem_append]
  exact ⟨ha, by simpa using hp⟩

section Related

variable {B B' : Bearing (List (Moment σ))} {s : State σ} {t t' : State (σ × List (Moment σ))}
  {v w : Ledger}

theorem machine_eq (h : (simulation config src B).StateRel s t v) :
    t.plain.toMachine = s.toMachine := by
  obtain ⟨hf, _, hm⟩ := h
  have frame : t.frame = s.frame := by
    obtain ⟨hst, _⟩ := of_itself hf.stack
    have target := hf.target
    have slot := hf.slot
    have exitCode := hf.exitCode
    have maxStack := hf.maxStack.trans hf.maxStack'.symm
    rcases hs : s.frame with ⟨_, _, _, _, _⟩
    rcases ht : t.frame with ⟨_, _, _, _, _⟩
    simp_all
  have session : t.plain.session = s.session := hm.session.symm
  show (⟨t.frame, t.plain.session⟩ : Machine Question σ) = ⟨s.frame, s.session⟩
  rw [frame, session]

theorem rebase (h : (simulation config src B).StateRel s t v) (ht : t'.plain = t.plain)
    (hw : v ≤ w) (hs : s.session.Honours True w)
    (hB : B'.going (supplied s.trace.needs) t'.session.source.2 w) :
    (simulation config src B').StateRel s t' w := by
  have trace : t'.trace = t.trace := congrArg (fun u : State σ => u.trace) ht
  have session : t'.session.plain = t.session.plain := congrArg (fun u : State σ => u.session) ht
  have memory : Beside B'.going s.memory t'.memory w :=
    ⟨h.memory.session.trans session.symm, h.memory.trace.trans trace.symm, hs, hB⟩
  exact h.rebase rfl rfl rfl rfl ht hw memory

end Related

abbrev tallying (config : Config) (src : Source σ) : Simulation Ledger σ (σ × List (Moment σ)) :=
  simulation config src (tally ⟨src, config⟩)

section Steps

variable {nested : Bytes → Eval σ UInt8} {nested' : Bytes → Eval (σ × List (Moment σ)) UInt8}
  {depth : Nat} {i : Instruction} {s : State σ} {t : State (σ × List (Moment σ))} {w : Ledger}

/-- An instruction that does the same on both sides still does when it is noted. What is settled
before is learnt first. -/
theorem result_watch {B : Bearing (List (Moment σ))}
    (hs : (simulation config src B).StateRel s t w)
    (hx : ∀ {w}, (simulation config src B).StateRel s t w →
      (simulation config src B).whole.Result w same
        (Eval.step ⟨src, config⟩ nested depth i s)
        (Eval.step (Env.watched ⟨src, config⟩) nested' depth i t))
    (h : ∀ {a s' t' v}, w ≤ v → Eval.step ⟨src, config⟩ nested depth i s = (.ok a, s') →
      (simulation config src B).StateRel s' t' v →
      t.plain.session.Settles t'.plain.session →
      Tallied ⟨src, config⟩ (supplied s'.trace.needs)
        (⟨i, t.plain, t'.plain⟩ :: t'.session.source.2) (v.learn s'.session))
    (he : ∀ {H v}, B.failed
        (supplied (Eval.step ⟨src, config⟩ nested depth i s).2.trace.needs) H v →
      (tally ⟨src, config⟩).failed
        (supplied (Eval.step ⟨src, config⟩ nested depth i s).2.trace.needs) H v) :
    (tallying config src).whole.Result w same (Eval.step ⟨src, config⟩ nested depth i s)
      (Env.watch ⟨src, config⟩ nested' depth i t) := by
  have before : s.session = t.plain.session := hs.memory.session
  have learnt : w ≤ w.learn s.session := hs.memory.honours.le_learn
  have start : (simulation config src B).StateRel s t (w.learn s.session) :=
    rebase hs rfl learnt hs.memory.honours.learn ((B.going _ _).monotone learnt hs.memory.beside)
  refine (Simulation.watched (hx start) (fun ended => ?_) fun {a s' t' v} hw hi h' => ?_).since
    learnt
  · obtain ⟨e, v, left, right, hv⟩ := ended
    exact ⟨⟨e, right⟩, e, v, left, right, hv.session, hv.trace, hv.honours, he hv.beside⟩
  · have after : s'.session = t'.plain.session := h'.memory.session
    have honours : s'.session.Honours True v := h'.memory.honours
    have kept : t.plain.session.Settles t'.plain.session := by
      rw [← before, ← after]
      exact fun id o ho => honours.found (hw.2.1 ho)
    exact ⟨v.learn s'.session, honours.le_learn,
      rebase h' rfl honours.le_learn honours.learn (h (learnt.trans hw) hi h' kept)⟩

theorem settled_learn {B : Bearing (List (Moment σ))} {before : State σ}
    (h : (simulation config src B).StateRel s t w) (id : Nat) (o : Outcome) :
    (⟨i, before, t.plain⟩ : Moment σ).after.session.outcome? id = some o ↔
      (id, o) ∈ (w.learn s.session).found := by
  have session : s.session = t.plain.session := h.memory.session
  show t.plain.session.outcome? id = some o ↔ s.session.outcome? id = some o
  rw [session]

theorem other (hi : ∀ before after : State σ, Moment.isRead ⟨i, before, after⟩ = false)
    (hx : (tallying config src).whole.Follows ⊤ (Eval.step ⟨src, config⟩ nested depth i)
      (Eval.step (Env.watched ⟨src, config⟩) nested' depth i) same) :
    (tallying config src).whole.Follows ⊤ (Eval.step ⟨src, config⟩ nested depth i)
      (Env.watch ⟨src, config⟩ nested' depth i) same where
  run {w s t} _ h := by
    refine result_watch h (hx.run trivial) (fun {a s' t' v} _ _ h kept => ?_) id
    have told : Tallied ⟨src, config⟩ (supplied s'.trace.needs) t'.session.source.2 v :=
      h.memory.beside
    exact (told.mono h.memory.honours.le_learn).other (settled_learn h) kept (hi _ _)
  stays h := by
    obtain ⟨_, _, h, _⟩ := h
    cases h

theorem moment_reads {B B' : Bearing (List (Moment σ))} {s' : State σ}
    {t' : State (σ × List (Moment σ))} {v : Ledger} {a : Unit}
    (h : (simulation config src B).StateRel s t w)
    (h' : (simulation config src B').StateRel s' t' v)
    (hr : readHashedBytes ⟨src, config⟩ s = (.ok a, s')) :
    ∃ p, supplied s'.trace.needs = supplied s.trace.needs ++ [p] ∧
      Moment.Reads ⟨src, config⟩ ⟨.plain .readHashedBytes, t.plain, t'.plain⟩ p := by
  obtain ⟨p, popped, pushed, registered⟩ := readHashedBytes_ok hr
  have before : s.trace = t.trace := h.memory.trace
  have after : s'.trace = t'.trace := h'.memory.trace
  refine ⟨p, ?_, ?_, ?_, ?_⟩
  · rw [registered, supplied_append]
    rfl
  · show (Machine.popWord src.answers t.plain.toMachine).1 = _
    rw [machine_eq h]
    exact popped
  · show t'.plain.toMachine.frame.stack.head? = _
    rw [machine_eq h']
    exact pushed
  · show t'.trace.needs = t.trace.needs ++ _
    rw [← after, ← before, registered]

/-- A read of supplied bytes is tallied with the need that it registers. -/
theorem reading : (tallying config src).whole.Follows ⊤
    (Eval.step ⟨src, config⟩ nested depth (.plain .readHashedBytes))
    (Env.watch ⟨src, config⟩ nested' depth (.plain .readHashedBytes)) same where
  run {w s t} _ h := by
    -- the need comes before its read is noted; until then the history stays as it is
    let B := still config.maxSuppliedBytes.toNat t.session.source.2 w
    have told : Tallied ⟨src, config⟩ (supplied s.trace.needs) t.session.source.2 w :=
      h.memory.beside
    have hx : (simulation config src B).whole.Follows ⊤
        (Eval.step ⟨src, config⟩ nested depth (.plain .readHashedBytes))
        (Eval.step (Env.watched ⟨src, config⟩) nested' depth (.plain .readHashedBytes)) same :=
      Follows.bind_any ((lawful open_still).execute .readHashedBytes) fun _ _ =>
        .pure fun _ _ => rfl
    have start : (simulation config src B).StateRel s t w :=
      rebase h rfl le_rfl h.memory.honours ⟨rfl, le_rfl, told.attested⟩
    refine result_watch start (hx.run trivial) (fun {a s' t' v} hw hs h' kept => ?_)
      fun {H v} hv => ?_
    · obtain ⟨_, _, hr, ⟨⟩⟩ := Fallible.bind_ok hs
      obtain ⟨p, needs, reads⟩ := moment_reads h h' hr
      obtain ⟨same, _, attested⟩ := h'.memory.beside
      have same : t'.session.source.2 = t.session.source.2 := same
      have learnt : v ≤ v.learn s'.session := h'.memory.honours.le_learn
      have attested : ∀ p ∈ supplied s'.trace.needs, _ := attested
      rw [needs] at attested ⊢
      rw [same]
      refine (told.mono (hw.trans learnt)).read (settled_learn h') kept rfl reads ?_
      exact (ChainRead.attested _ p).monotone learnt (attested p (by simp))
    · obtain ⟨rfl, hle, attested⟩ := hv
      have supplies : Supplies 1 (Eval.step ⟨src, config⟩ nested depth (.plain .readHashedBytes)) :=
        .bind (.readHashedBytes ⟨src, config⟩) fun _ => .of_kept fun _ => rfl
      obtain ⟨new, he, hl⟩ := supplies s
      refine ⟨supplied s.trace.needs, new, he, hl, told.mono hle, fun p hp => attested p ?_⟩
      rw [he]
      exact List.mem_append_right _ hp
  stays h := by
    obtain ⟨_, _, h, _⟩ := h
    cases h

/-- A run and the run that is watched give related results, step by step. -/
theorem steps : (tallying config src).Steps (Eval.step ⟨src, config⟩)
    (Env.watch ⟨src, config⟩) := by
  intro nested nested' H depth i hi
  cases i with
  | plain op =>
    by_cases hop : op = .readHashedBytes
    · subst hop
      exact reading
    · refine other (fun _ _ => ?_) (Follows.bind_any (uniform.execute op hop) fun _ _ =>
        .pure fun _ _ => rfl)
      cases op <;> first | rfl | exact (hop rfl).elim
  -- the programs that such an instruction runs are tallied by themselves
  | _ => exact other (fun _ _ => rfl) (uniform.toFair.step H depth _ hi fun _ h => nomatch h)

end Steps

theorem runs (config : Config) (src : Source σ) (program : Program) (source : σ) :
    (tallying config src).whole.Result .new same
      (Env.run ⟨src, config⟩ program { source })
      (Env.runWatched ⟨src, config⟩ program { source }) := by
  have start : (tallying config src).inv ({ source }, Trace.new config)
      ({ source := (source, []) }, Trace.new config) .new :=
    ⟨rfl, rfl, .new source, .nil⟩
  rw [← Env.runBy_step]
  exact uniform.toFair.runBy steps program start

end Attesting

end ChainRead
