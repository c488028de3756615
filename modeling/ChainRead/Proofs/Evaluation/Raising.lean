import ChainRead.Proofs.Evaluation.Comparison
import ChainRead.Proofs.Trace.Values
import ChainRead.Proofs.Value.Forecast
import ChainRead.Source.Chain

/-! # Raising limits

Under higher limits an evaluation does the same for as long as it succeeds under the lower ones: it
makes the same calls and leaves the same session. Its values differ only in how many supplied bytes
they accept, so what resolves to bytes under the lower limits resolves to the same bytes.
-/

namespace ChainRead

/-- Questions that differ at most in how many supplied bytes they accept. -/
inductive Question.Raised : Question → Question → Prop
  | same (q : Question) : Raised q q
  | hashed (hash : Word) {max max' : Nat} (h : max ≤ max') :
    Raised (.hashed hash max) (.hashed hash max')

theorem checkSupplied_raise {hash : Word} {max max' : Nat} {bytes b : Bytes} (hm : max ≤ max')
    (h : checkSupplied hash max bytes = .ok b) : checkSupplied hash max' bytes = .ok b := by
  unfold checkSupplied at h ⊢
  split at h
  · cases h
  · rw [if_neg (by omega)]
    exact h

/-- The question that accepts more has the same outcome, unless the other one fails. -/
theorem Question.finish_raise {hash : Word} {max max' : Nat} {r : Except BackingError Bytes}
    {b : Bytes} (hm : max ≤ max') (h : (Question.hashed hash max).finish r = .ok b) :
    (Question.hashed hash max').finish r = .ok b := by
  rcases r with e | bytes
  · cases h
  · exact checkSupplied_raise hm h

theorem forall_mem_of_forall₂ {α β : Type} {R : α → β → Prop} {p : α → Prop} {q : β → Prop}
    {as : List α} {bs : List β} (h : List.Forall₂ R as bs) (hR : ∀ a b, R a b → p a ∧ q b) :
    (∀ a ∈ as, p a) ∧ ∀ b ∈ bs, q b := by
  induction h with
  | nil => simp
  | cons hab _ ih =>
    simp only [List.forall_mem_cons]
    exact ⟨⟨(hR _ _ hab).1, ih.1⟩, (hR _ _ hab).2, ih.2⟩

variable {σ : Type} {src : Source σ} {f : (c : Call) → Except BackingError c.Answer}

def Question.outcome (f : (c : Call) → Except BackingError c.Answer) (q : Question) : Outcome :=
  q.finish (f q.call)

theorem Source.AnswersBy.outcome (h : src.AnswersBy f) (q : Question) (s : σ) :
    (src.answers q s).1 = q.outcome f := by
  rw [Source.answers_apply, h]
  rfl

theorem Question.Raised.outcome {q q' : Question} (h : q.Raised q') {b : Bytes}
    (hb : q.outcome f = .ok b) : q'.outcome f = .ok b := by
  cases h with
  | same => exact hb
  | hashed hash hm => exact finish_raise hm hb

open Fallible Coupling Eval

theorem Question.Raised.answers {q q' : Question} (h : q.Raised q') (src : Source σ) :
    Alike True Eq (src.answers q) (src.answers q') := by
  refine ⟨fun {s t} hs => ?_⟩
  subst hs
  rw [Source.answers_apply, Source.answers_apply]
  cases h with
  | same => exact Or.inl ⟨rfl, rfl⟩
  | @hashed hash max max' hm =>
    rcases hb : (Question.hashed hash max).finish (src.answer (.hashedBytes hash) s).1 with e | b
    · exact Or.inr ⟨trivial, e, hb⟩
    · exact Or.inl ⟨hb.trans (finish_raise hm hb).symm, rfl⟩

theorem Question.Raised.matched (src : Source σ) :
    Session.Matched True Raised src.answers src.answers Eq where
  settled hs := congrArg _ hs
  mark _ := .of_same fun hs => by rw [hs]; exact ⟨rfl, rfl⟩
  ask hq := by
    refine ⟨fun {s t} hs => ?_⟩
    subst hs
    exact ((hq.answers src).run (s := s.source) rfl).imp_left fun ⟨he, hs⟩ =>
      ⟨he, congrArg (fun source => { s with source }) hs⟩
  settle _ _ hs := by rw [hs]

namespace Raising

/-- Two values differ only in what they accept, and what they resolve to is forecast. -/
def value (f : (c : Call) → Except BackingError c.Answer) (v v' : Value Question) :
    Fact (Forecast × Forecast) where
  toFun w := v.Twin Question.Raised v' ∧ v.Foreseen (Question.outcome f) w.1 ∧
    v'.Foreseen (Question.outcome f) w.2
  monotone' _ _ hw hv := ⟨hv.1, hv.2.1.mono hw.1, hv.2.2.mono hw.2⟩

/-- The evaluations are in the same session, which agrees with the forecasts for both. -/
structure Abreast (f : (c : Call) → Except BackingError c.Answer) (m n : Memory σ)
    (w : Forecast × Forecast) : Prop where
  session : m.1 = n.1
  agrees : m.1.Agrees w.1
  agrees' : m.1.Agrees w.2
  trace : Trace.Rel True (fun v v' => value f v v' w) m.2 n.2

def simulation (src : Source σ) (f : (c : Call) → Except BackingError c.Answer) (c c' : Config) :
    Simulation (Forecast × Forecast) σ σ where
  config := c
  config' := c'
  left := src
  right := src
  value := value f
  target _ := ⊤
  inv := Abreast f
  ended p _ := ∃ e, p.1 = .error e
  ended_left e _ := ⟨e, rfl⟩
  ended_right _ h := h

variable {c c' : Config} {α : Type} {P : Fact (Forecast × Forecast)}
  {Q : α → α → Fact (Forecast × Forecast)}

theorem follows {x y : Eval σ α} (h : ∀ {w s t}, P w → Abreast f s.memory t.memory w →
      (simulation src f c c').memory.Result w Q (x s) (y t)) :
    (simulation src f c c').memory.Follows P x y Q where
  run := h
  stays h := by
    obtain ⟨_, h⟩ := h
    cases h

theorem traced {x y : Fallible EvalError (Trace Question) α}
    (h : ∀ w, P w → Trace.Alike True (fun v v' => value f v v' w) x y) :
    (simulation src f c c').memory.Follows P (onTrace x) (onTrace y) same := by
  refine follows fun {w s t} hw hi => ?_
  have ht := (h w hw).run hi.trace
  simp only [onTrace, Fallible.zoom_apply]
  rcases hp : x s.trace with ⟨e | a, u⟩
  · exact .halted ⟨e, rfl⟩
  · obtain ⟨u', hq, ht⟩ := (h w hw).ok hi.trace hp
    have hq : y t.trace = (.ok a, u') := hq
    rw [hq]
    exact .both w a a le_rfl rfl rfl rfl ⟨hi.session, hi.agrees, hi.agrees', ht⟩

theorem made {k k' : StateM (Session σ) (Value Question)}
    (hk : ∀ {w} {s : Session σ}, P w → s.Agrees w.1 → s.Agrees w.2 → (k s).2 = (k' s).2 ∧
      ((k s).1.Twin Question.Raised (k' s).1) ∧ Foretold (Question.outcome f) w.1 (k s) ∧
        Foretold (Question.outcome f) w.2 (k' s)) :
    (simulation src f c c').memory.Follows P (create k) (create k') (value f) := by
  refine follows fun {w s t} hw hi => ?_
  have hs : s.session = t.session := hi.session
  obtain ⟨he, htwin, ⟨F, hF, hagrees, hv⟩, G, hG, hagrees', hv'⟩ := hk hw hi.agrees hi.agrees'
  have hle : w ≤ (F, G) := ⟨hF, hG⟩
  refine .both (F, G) (k s.session).1 (k' t.session).1 hle rfl rfl ?_ ⟨?_, hagrees, ?_, ?_⟩
  · rw [← hs]
    exact ⟨htwin, hv, hv'⟩
  · exact he.trans (congrArg (fun s => (k' s).2) hs)
  · show (k s.memory.1).2.Agrees G
    rw [he]
    exact hagrees'
  · exact hi.trace.mono fun v v' hv => (value f v v').monotone hle hv

theorem asked {q q' : Question} (hq : q.Raised q') (hint : Option Nat) :
    (simulation src f c c').memory.Follows P (create (Value.ofQuestion hint q))
      (create (Value.ofQuestion hint q')) (value f) :=
  made fun _ hs hs' => ⟨rfl, .asked _ hint hq, hs.ofQuestion hint q, hs'.ofQuestion hint q'⟩

theorem called (k : Call) : (simulation src f c c').memory.Follows P
    (call (simulation src f c c').env₁ k) (call (simulation src f c c').env₂ k) same := by
  refine follows fun {w s t} _ hi => ?_
  have hs : s.session = t.session := hi.session
  have left : call (simulation src f c c').env₁ k s =
      (((src.answer k s.session.source).1.mapError .backing),
        { s with session := { s.session with source := (src.answer k s.session.source).2 } }) := rfl
  have right : call (simulation src f c c').env₂ k t =
      (((src.answer k t.session.source).1.mapError .backing),
        { t with session := { t.session with source := (src.answer k t.session.source).2 } }) := rfl
  rw [left, right, ← hs]
  rcases (src.answer k s.session.source).1 with e | a
  · exact .halted ⟨.backing e, rfl⟩
  · refine .both w a a le_rfl rfl rfl rfl ⟨rfl, ?_, ?_, hi.trace⟩
    · exact ⟨hi.agrees.fresh, hi.agrees.settled⟩
    · exact ⟨hi.agrees'.fresh, hi.agrees'.settled⟩

theorem select (a : Address) : (simulation src f c c').memory.Follows ⊤
    (onTrace (Trace.addTarget a false)) (onTrace (Trace.addTarget a false))
    fun _ _ => (simulation src f c c').target a :=
  (traced fun _ _ => .addTarget a false).weaken le_rfl fun _ _ => le_top

theorem addStorage (a : Address) (k : Word) : (simulation src f c c').memory.Follows P
    (onTrace (Trace.addStorage a k)) (onTrace (Trace.addStorage a k)) same :=
  traced fun _ _ => .addStorage a k

theorem hashed (hc : c.Within c') (hash : Word) : (simulation src f c c').memory.Follows ⊤
    (do
      let v ← create (Value.ofQuestion none (.hashed hash c.maxSuppliedBytes.toNat))
      onTrace (Trace.addHashed hash v)
      return v)
    (do
      let v ← create (Value.ofQuestion none (.hashed hash c'.maxSuppliedBytes.toNat))
      onTrace (Trace.addHashed hash v)
      return v)
    (value f) := by
  refine (asked (.hashed hash hc.maxSuppliedBytes) none).bind fun v v' => ?_
  have registered : (simulation src f c c').memory.Follows (⊤ ⊓ value f v v')
      (onTrace (Trace.addHashed hash v)) (onTrace (Trace.addHashed hash v')) same :=
    traced fun w hw => .addHashed hash hw.2
  exact registered.bind_same fun _ => .pure inf_le_right

theorem ofParts (hint : Option Nat) (vs ws : List (Value Question)) :
    (simulation src f c c').memory.Follows ((simulation src f c c').values vs ws)
      (create (Value.ofParts hint vs)) (create (Value.ofParts hint ws)) (value f) := by
  refine made fun {w s} hw hs hs' => ?_
  obtain ⟨hv, hv'⟩ := forall_mem_of_forall₂ hw fun _ _ h => h.2
  exact ⟨rfl, .joined _ hint (hw.imp fun _ _ h => h.1), hs.ofParts hint hv, hs'.ofParts hint hv'⟩

theorem map (hint : Option Nat) (g : Bytes → Bytes) (v v' : Value Question) :
    (simulation src f c c').memory.Follows (value f v v')
      (create (v.map hint fun bytes => .ok (g bytes)))
      (create (v'.map hint fun bytes => .ok (g bytes))) (value f) := by
  refine made fun {w s} hw hs hs' => ?_
  obtain ⟨htwin, hv, hv'⟩ := hw
  have he : (v.map hint (fun bytes => .ok (g bytes)) s).2 =
      (v'.map hint (fun bytes => .ok (g bytes)) s).2 ∧
      (v.map hint (fun bytes => .ok (g bytes)) s).1.Twin Question.Raised
        (v'.map hint (fun bytes => .ok (g bytes)) s).1 := by
    cases htwin with
    | known bytes => exact ⟨rfl, .known _⟩
    | asked id hint' hq => exact ⟨rfl, .mapped _ hint _ (.asked id hint' hq)⟩
    | joined id hint' hp => exact ⟨rfl, .mapped _ hint _ (.joined id hint' hp)⟩
    | mapped id hint' k hb => exact ⟨rfl, .mapped _ hint _ (.mapped id hint' k hb)⟩
  exact ⟨he.1, he.2, hs.map hint hv g, hs'.map hint hv' g⟩

theorem peek {v v' : Value Question} (h : v.Twin Question.Raised v') (s : Session σ) :
    v.peek s = v'.peek s := by
  cases h <;> rfl

theorem length? {v v' : Value Question} (h : v.Twin Question.Raised v') (s : Session σ) :
    v.length? s = v'.length? s := by
  rw [Value.length?, Value.length?, peek h, h.hint?]

theorem resolved (h : src.AnswersBy f) (v v' : Value Question) :
    (simulation src f c c').memory.Follows (value f v v')
      (Eval.resolve (simulation src f c c').env₁ v) (Eval.resolve (simulation src f c c').env₂ v')
      same := by
  refine follows fun {w s t} hw hi => ?_
  obtain ⟨htwin, hv, hv'⟩ := hw
  have hs : s.session = t.session := hi.session
  have left : Eval.resolve (simulation src f c c').env₁ v s =
    ((v.resolve src.answers s.session).1,
      { s with session := (v.resolve src.answers s.session).2 }) := rfl
  have right : Eval.resolve (simulation src f c c').env₂ v' t =
    ((v'.resolve src.answers t.session).1,
      { t with session := (v'.resolve src.answers t.session).2 }) := rfl
  rw [left, right]
  rcases hr : v.resolve src.answers s.session with ⟨e | b, u⟩
  · exact .halted ⟨e, rfl⟩
  · obtain ⟨u', hr', hu⟩ := ((Question.Raised.matched src).resolveTwin v htwin).ok hs hr
    subst hu
    have agrees := (hv.resolve h.outcome s.session hi.agrees).2
    have agrees' := (hv'.resolve h.outcome t.session (hs ▸ hi.agrees')).2
    rw [hr] at agrees
    rw [hr'] at agrees' ⊢
    exact .both w b b le_rfl rfl rfl rfl ⟨rfl, agrees, agrees', hi.trace⟩

theorem lawful (h : src.AnswersBy f) (hc : c.Within c') : (simulation src f c c').Lawful where
  limits := Or.inr ⟨hc, fun e _ _ => ⟨e, rfl⟩⟩
  short bytes _ _ := ⟨.known bytes, .known bytes, .known bytes⟩
  known bytes _ := ⟨.known bytes, .known bytes, .known bytes⟩
  origin _ := trivial
  length {m n w v v'} hi hv := by
    rw [← hi.session]
    exact length? hv.1 m.1
  peek {m n w v v'} hi hv := by
    rw [← hi.session]
    exact peek hv.1 m.1
  failed e _ := ⟨e, rfl⟩
  resolve := resolved h
  slotValue a k := ((addStorage a k).bind_same fun _ => asked (.same _) _).before le_top
  slotCall a k := ((addStorage a k).bind_same fun _ => called _).before le_top
  isContract a := (traced fun _ _ => .requireTarget a).bind_same fun _ => asked (.same _) _
  hashed := hashed hc
  select := select
  alloc n := (traced fun _ _ => .alloc n).weaken le_rfl fun _ _ _ _ => trivial
  allocWords n := traced fun _ _ => .allocWords n
  ofParts := ofParts
  map := map

theorem start (hc : c.Within c') (source : σ) :
    Abreast f ({ source }, Trace.new c) ({ source }, Trace.new c') (.new, .new) := by
  have proofs : c.proofLimit ≤ c'.proofLimit :=
    min_le_min_right _ (UInt64.le_iff_toNat_le.mp hc.maxUniqueProofs)
  refine ⟨rfl, .new source, .new source, ?_⟩
  constructor
  · exact .nil
  · exact .nil
  · exact Int.ofNat_le.mpr proofs
  · exact hc.maxAllocBytes
  · exact Or.inl trivial
  · exact hc.requireTargetBeforeSlot
  all_goals rfl

theorem run (h : src.AnswersBy f) (hc : c.Within c') {program : Program} {source : σ}
    {exitCode : UInt8} (left : (Env.run ⟨src, c⟩ program { source }).1 = .ok exitCode) :
    (Env.run ⟨src, c'⟩ program { source }).1 = .ok exitCode ∧ ∃ w,
      List.Forall₂ (fun v v' => value f v v' w) (Env.run ⟨src, c⟩ program { source }).2.outputs
        (Env.run ⟨src, c'⟩ program { source }).2.outputs ∧
      Abreast f (Env.run ⟨src, c⟩ program { source }).2.memory
        (Env.run ⟨src, c'⟩ program { source }).2.memory w := by
  cases (lawful h hc).run program (start hc source) with
  | both w a b _ left' right post inv =>
    cases left.symm.trans left'
    exact ⟨right.trans (congrArg _ post.symm), w, inv.outputs, inv.memory⟩
  | halted ended =>
    obtain ⟨cause, hl⟩ := ended
    cases left.symm.trans (eq_error_of_forget hl)

end Raising

/-! ## Evaluations -/

structure Evaluation.Rel (R : Value Question → Value Question → Prop) (e e' : Evaluation) :
    Prop where
  exitCode : e.exitCode = e'.exitCode
  outputs : List.Forall₂ R e.outputs e'.outputs
  needs : List.Forall₂ (Need.Rel R) e.needs e'.needs

namespace Evaluation

/-- Whenever a value that `e` leaves resolves to bytes, one that `e'` leaves resolves to the same
bytes, whatever else was resolved before on either side. -/
def Refines (answers : Answers Question σ) (s : Session σ) (e e' : Evaluation)
    (v v' : Value Question) : Prop :=
  ∀ {vs vs' : List (Value Question)} {bytes : Bytes}, (∀ u ∈ vs, e.Leaves u) →
    (∀ u ∈ vs', e'.Leaves u) →
    (v.resolve answers (Value.resolveEach answers vs s).2).1 = .ok bytes →
    (v'.resolve answers (Value.resolveEach answers vs' s).2).1 = .ok bytes

variable {R : Value Question → Value Question → Prop} {e e' : Evaluation}

theorem Rel.mono {R' : Value Question → Value Question → Prop} (h : e.Rel R e')
    (hR : ∀ v v', R v v' → R' v v') : e.Rel R' e' := by
  refine ⟨h.exitCode, h.outputs.imp hR, h.needs.imp ?_⟩
  rintro _ _ (_ | ⟨_ | ⟨hash, hv⟩⟩)
  · exact .target _ _
  · exact .read (.storage _)
  · exact .read (.hashed hash (hR _ _ hv))

theorem Rel.leaves (h : e.Rel R e') {p p' : Value Question → Prop}
    (hp : ∀ v v', R v v' → p v ∧ p' v') :
    (∀ v, e.Leaves v → p v) ∧ ∀ v, e'.Leaves v → p' v := by
  obtain ⟨ho, ho'⟩ := forall_mem_of_forall₂ h.outputs hp
  obtain ⟨hn, hn'⟩ := forall_mem_of_forall₂ h.needs
    (p := fun n => ∀ hash v, n = .read (.hashed hash v) → p v)
    (q := fun n => ∀ hash v, n = .read (.hashed hash v) → p' v) <| by
      rintro _ _ (_ | ⟨_ | ⟨hash, hv⟩⟩)
      · simp
      · simp
      · simpa using hp _ _ hv
  constructor
  · rintro v (hv | ⟨hash, hv⟩)
    · exact ho v hv
    · exact hn _ hv hash v rfl
  · rintro v (hv | ⟨hash, hv⟩)
    · exact ho' v hv
    · exact hn' _ hv hash v rfl

end Evaluation

/-- Values that are foreseen resolve in the same way whatever was resolved before. -/
theorem Evaluation.Rel.refines (h : src.AnswersBy f) {s : Session σ} {w : Forecast × Forecast}
    (hs : s.Agrees w.1) (hs' : s.Agrees w.2) {e e' : Evaluation}
    (he : e.Rel (fun v v' => Raising.value f v v' w) e') :
    e.Rel (Refines src.answers s e e') e' := by
  obtain ⟨hl, hl'⟩ := he.leaves fun v v' hv => hv.2
  refine he.mono fun v v' hv vs vs' bytes hvs hvs' hb => ?_
  have agrees := (hs.resolveEach h.outcome fun u hu => hl u (hvs u hu)).2
  have agrees' := (hs'.resolveEach h.outcome fun u hu => hl' u (hvs' u hu)).2
  rw [(hv.2.1.resolve h.outcome _ agrees).1] at hb
  rw [(hv.2.2.resolve h.outcome _ agrees').1]
  exact hv.1.denote (fun hq hb => hq.outcome hb) v hb

theorem Raising.Abreast.evaluation (h : src.AnswersBy f) {p p' : State σ} {w : Forecast × Forecast}
    (hm : Raising.Abreast f p.memory p'.memory w)
    (ho : List.Forall₂ (fun v v' => Raising.value f v v' w) p.outputs p'.outputs)
    (exitCode : UInt8) :
    p'.session = p.session ∧ let e := Env.evaluation exitCode p
      let e' := Env.evaluation exitCode p'
      e.Rel (Evaluation.Refines src.answers p.session e e') e' :=
  ⟨hm.session.symm, Evaluation.Rel.refines h hm.agrees hm.agrees' ⟨rfl, ho, hm.trace.needs⟩⟩

/-- Raising limits changes nothing of a successful evaluation: it succeeds with the same exit code
and needs and leaves the same session, with the same calls. What it leaves to be resolved resolves
to the same bytes whenever it does so under the lower limits. -/
theorem evaluate_raised (h : src.AnswersBy f) {c c' : Config} (hc : c.Within c')
    {program : Program} {source : σ} {e : Evaluation} {s : Session (σ × List Call)}
    (he : Env.evaluate ⟨src.logged, c⟩ program { source := (source, []) } = (.ok e, s)) :
    ∃ e', Env.evaluate ⟨src.logged, c'⟩ program { source := (source, []) } = (.ok e', s) ∧
      e.Rel (Evaluation.Refines src.logged.answers s e e') e' := by
  have hl : src.logged.AnswersBy f := fun c s => h c s.1
  rcases left : (Env.run ⟨src.logged, c⟩ program { source := (source, []) }).1 with cause | exitCode
  · rw [Env.evaluate_of_error left] at he
    cases he
  · obtain ⟨right, w, outputs, memory⟩ := Raising.run hl hc left
    rw [Env.evaluate_of_ok left] at he
    cases he
    -- a value may resolve later only under the higher limits, so outputs are compared by forecasts
    obtain ⟨session, evaluation⟩ := memory.evaluation hl outputs exitCode
    exact ⟨_, (Env.evaluate_of_ok right).trans (congrArg _ session), evaluation⟩

/-- Supplied bytes that are too long under the lower limits are accepted under the higher ones. -/
theorem evaluate_raised_chain :
    let chain : Chain := ((Chain.withStorage {} 7 3 5).withSupplied [9]).withSupplied [1, 2, 3]
    let low : Config := ⟨2, 0, 4, 0, 1, true⟩
    let program : Program := ⟨3, Instruction.encodeAll [.push 7, .plain .setTarget, .push 3,
      .plain .setSlot, .plain .readSlot, .push 0, .plain .setOutput, .push (keccak256 [9]),
      .plain .readHashedBytes, .push 1, .plain .setOutput, .push (keccak256 [1, 2, 3]),
      .plain .readHashedBytes, .push 2, .plain .setOutput]⟩
    ∃ e e' s, Env.evaluate ⟨chain.source.logged, low⟩ program { source := (0, []) } = (.ok e, s) ∧
      (Value.resolveEach chain.source.logged.answers e.outputs s).1.map Except.toOption =
        [some (Word.toBytes 5), some [9], none] ∧
      Env.evaluate ⟨chain.source.logged, {}⟩ program { source := (0, []) } = (.ok e', s) ∧
      e.Rel (Evaluation.Refines chain.source.logged.answers s e e') e' := by
  intro chain low program
  let evaluate := Env.evaluate ⟨chain.source.logged, low⟩ program
  have answers : chain.source.AnswersBy chain.answer := fun _ _ => rfl
  have within : low.Within {} := by constructor <;> decide
  obtain ⟨e, s, he, hr⟩ := Fallible.exists_ok (x := evaluate) (s := { source := (0, []) })
    (p := fun e => (Value.resolveEach chain.source.logged.answers e.outputs
      (evaluate { source := (0, []) }).2).1.map Except.toOption =
        [some (Word.toBytes 5), some [9], none]) (by decide +kernel)
  rw [he] at hr
  obtain ⟨e', he', rel⟩ := evaluate_raised answers within he
  exact ⟨e, e', s, he, hr, he', rel⟩

end ChainRead
