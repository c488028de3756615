import ChainRead.Proofs.Evaluation.Lockstep
import ChainRead.Proofs.Evaluation.Nesting

/-! # Evaluations in lockstep

Evaluations against two sources in lockstep have the same values, frames and traces. They end with
the same result, or with the same failure, unless the sources answered a call differently.
-/

namespace ChainRead

open Need Coupling Eval

namespace Lockstep

variable {σ τ : Type} (L : Lockstep σ τ)

def simulation : Simulation Progress (σ × List Call) τ where
  config := L.config
  left := L.left.logged
  right := L.right
  value v v' :=
    { toFun := fun w => v = v' ∧ v.Valid w.1
      monotone' := fun _ _ hw hv => ⟨hv.1, hv.2.mono hw.1⟩ }
  target a :=
    { toFun := fun w => a = 0 ∨ w.2
      monotone' := fun _ _ hw ha => ha.imp_right hw.2 }
  inv m n w := m.2 = n.2 ∧ L.Inv m.1 n.1 m.2 w
  ended p q := L.gone p.2.2.needs p.2.1.source.2 q.1 q.2.1.source q.2.2.needs ∨
    ∃ e, p.1 = .error e ∧ q.1 = .error e ∧ p.2.2.needs = q.2.2.needs ∧
      Back p.2.2.needs p.2.1.source.2 ∧ L.rel p.2.1.source q.2.1.source
  ended_left e h := by
    rcases h with h | ⟨_, h, _⟩
    · exact Or.inl h
    · cases h
  ended_right q h := by
    rcases h with h | ⟨_, _, h, _⟩
    · exact Or.inl (L.gone_right _ _ _ h)
    · cases h

variable {L} {α β : Type} {P : Fact Progress} {Q : α → α → Fact Progress}

/-- A computation that only adds needs and calls does not undo what ended the comparison. -/
theorem persists {s s' : State (σ × List Call)} {r : Except EvalError Unit}
    {q : Except EvalError Unit × State τ} (h : L.simulation.memory.ended (.ok (), s) q)
    (hg : Grows s.trace.needs s'.trace.needs)
    (hc : s.session.source.2 <:+ s'.session.source.2) :
    L.simulation.memory.ended (r, s') q := by
  rcases h with h | ⟨_, h, _⟩
  · exact Or.inl (L.gone_left h hg hc)
  · cases h

theorem failed {s : State (σ × List Call)} {s' : State τ} {w : Progress} {t t' : Trace Question}
    (hi : L.Inv s.session s'.session t w) (hg : Grows t.needs t'.needs) (e : EvalError) :
    L.simulation.memory.ended (.error e, { s with trace := t' })
      (.error e, { s' with trace := t' }) :=
  Or.inr ⟨e, rfl, rfl, rfl, hi.sound.back.mono hg, hi.rel⟩

theorem traced {x : Fallible EvalError (Trace Question) β}
    {post : Trace Question → Trace Question → Prop} (hx : ∀ t, Trace.Effect t (x t) (post t))
    {k : β → Eval (σ × List Call) α} {k' : β → Eval τ α}
    (hk : ∀ {w} {s : State (σ × List Call)} {s' : State τ} {b u}, P w →
      L.Inv s.session s'.session s.trace w → x s.trace = (.ok b, u) →
      L.simulation.memory.Result w Q (k b { s with trace := u }) (k' b { s' with trace := u }))
    (hs : ∀ b {s q}, L.simulation.memory.ended (.ok (), s) q →
      L.simulation.memory.ended (forget (k b s)) q) :
    L.simulation.memory.Follows P (onTrace x >>= k) (onTrace x >>= k') Q where
  run {w s s'} hP hi := by
    obtain ⟨ht, hi⟩ : s.trace = s'.trace ∧ L.Inv s.session s'.session s.trace w := hi
    have hg := (hx s.trace).grows
    simp only [Fallible.bind_apply, onTrace, Fallible.zoom_apply, ← ht]
    rcases h : x s.trace with ⟨e | b, u⟩ <;> rw [h] at hg
    · exact .halted (failed hi hg e)
    · exact hk hP hi h
  stays {s q} h := by
    have hg := (hx s.trace).grows
    simp only [Fallible.bind_apply, onTrace, Fallible.zoom_apply]
    rcases hb : x s.trace with ⟨e | b, u⟩ <;> rw [hb] at hg
    · exact persists h hg List.suffix_rfl
    · exact hs b (persists h hg List.suffix_rfl)

theorem created {k : StateM (Session (σ × List Call)) (Value Question)}
    {k' : StateM (Session τ) (Value Question)} {Q : Value Question → Value Question → Fact Progress}
    (hk : ∀ {w} {s : Session (σ × List Call)} {s' : Session τ} {t}, P w → L.Inv s s' t w →
      Q (k s).1 (k' s').1 w ∧ L.Inv (k s).2 (k' s').2 t w)
    (hs : ∀ s, (k s).2.source = s.source) :
    L.simulation.memory.Follows P (create k) (create k') Q where
  run {w s s'} hP hi := by
    obtain ⟨ht, hi⟩ : s.trace = s'.trace ∧ L.Inv s.session s'.session s.trace w := hi
    obtain ⟨hQ, hi⟩ := hk hP hi
    exact .both w _ _ le_rfl rfl rfl hQ ⟨ht, hi⟩
  stays {s q} h := by
    refine persists h (.refl _) ?_
    show s.session.source.2 <:+ (k s.session).2.source.2
    rw [hs]

theorem registered {x : Fallible EvalError (Trace Question) α}
    {post : Trace Question → Trace Question → Prop} (hx : ∀ t, Trace.Effect t (x t) (post t))
    (hk : ∀ {w} {s : Session (σ × List Call)} {s' : Session τ} {t b u}, L.Inv s s' t w →
      x t = (.ok b, u) → ∃ v, w ≤ v ∧ Q b b v ∧ Sound L.config.proofLimit [] v s u) :
    L.simulation.memory.Follows ⊤ (onTrace x) (onTrace x) Q := by
  have h : L.simulation.memory.Follows ⊤ (onTrace x >>= pure) (onTrace x >>= pure) Q := by
    refine traced hx (fun {w s s' b u} _ hi hb => ?_) fun b {s q} h => h
    obtain ⟨v, hv, hQ, hs⟩ := hk hi hb
    exact .both v b b hv rfl rfl hQ ⟨rfl, hi.next, hi.settled, hi.rel, hs⟩
  rwa [bind_pure, bind_pure] at h

theorem select (a : Address) : L.simulation.memory.Follows ⊤
    (onTrace (Trace.addTarget a false)) (onTrace (Trace.addTarget a false))
    fun _ _ => L.simulation.target a :=
  registered (fun _ => .addTarget a false) fun {w _ _ _ _ _} hi hx =>
    ⟨(w.1, True), ⟨le_rfl, fun _ => trivial⟩, Or.inr trivial, hi.sound.select hx⟩

theorem alloc (n : Nat) : L.simulation.memory.Follows ⊤ (onTrace (Trace.alloc n))
    (onTrace (Trace.alloc n)) any := by
  apply registered (fun t => .silent (Trace.silent_alloc n t))
  intro w s s' t b u hi hx
  have hu := Trace.silent_alloc n t
  rw [hx] at hu
  exact ⟨w, le_rfl, trivial, hi.sound.silent hu⟩

theorem allocWords (n : Nat) : L.simulation.memory.Follows ⊤ (onTrace (Trace.allocWords n))
    (onTrace (Trace.allocWords n)) same := by
  apply registered (fun t => .silent (Trace.silent_allocWords n t))
  intro w s s' t b u hi hx
  have hu := Trace.silent_allocWords n t
  rw [hx] at hu
  exact ⟨w, le_rfl, rfl, hi.sound.silent hu⟩

theorem issued {w : Progress} {s : State (σ × List Call)} {s' : State τ} {u : Trace Question}
    (hi : L.Inv s.session s'.session s.trace w) {q : Question} {hint : Option Nat}
    (hu : Sound L.config.proofLimit [q.call] w s.session u) :
    L.simulation.memory.Result w L.simulation.value
      (create (Value.ofQuestion hint q) { s with trace := u })
      (create (Value.ofQuestion hint q) { s' with trace := u }) := by
  refine .both (insert (s.session.next, q) w.1, w.2) (.asked s.session.next hint q)
    (.asked s'.session.next hint q) ⟨Finset.subset_insert _ _, id⟩ rfl rfl ⟨?_, ?_⟩ ⟨rfl, ?_⟩
  · rw [hi.next]
  · exact .asked (Finset.mem_insert_self _ _)
  · exact ⟨congrArg (· + 1) hi.next, hi.settled, hi.rel, hu.issue _ _⟩

theorem slotValue (a : Address) (k : Word) : L.simulation.memory.Follows (L.simulation.target a)
    (do onTrace (Trace.addStorage a k); slotValue a k)
    (do onTrace (Trace.addStorage a k); slotValue a k) L.simulation.value := by
  refine traced (fun t => .addStorage a k) (fun {w s s' b u} ha hi hx => ?_) fun b {s q} h => ?_
  · exact issued (q := .storage a k) hi (hi.sound.storage ha hx)
  · exact persists h (.refl _) List.suffix_rfl

theorem isContract (a : Address) : L.simulation.memory.Follows ⊤
    (do onTrace (Trace.requireTarget a); create (Value.ofQuestion (some 32) (.isContract a)))
    (do onTrace (Trace.requireTarget a); create (Value.ofQuestion (some 32) (.isContract a)))
    L.simulation.value := by
  refine traced (fun t => .requireTarget a) (fun {w s s' b u} _ hi hx => ?_) fun b {s q} h => ?_
  · exact issued (q := .isContract a) hi (hi.sound.isContract hx)
  · exact persists h (.refl _) List.suffix_rfl

theorem called {w : Progress} {s : State (σ × List Call)} {s' : State τ} {u : Trace Question}
    (hi : L.Inv s.session s'.session s.trace w) {c : Call}
    (hu : Sound L.config.proofLimit [c] w s.session u) :
    L.simulation.memory.Result w same (call L.simulation.env₁ c { s with trace := u })
      (call L.simulation.env₂ c { s' with trace := u }) := by
  have hb := hu.call (L.left.answer c s.session.source.1).2
  rcases L.step c hi.rel with ⟨he, hr⟩ | hg
  · rcases ha : (L.left.answer c s.session.source.1).1 with cause | answer
    · refine .halted (Or.inr ⟨.backing cause, ?_, ?_, rfl, hb.back, hr⟩)
      · show ((L.left.answer c s.session.source.1).1.mapError _).map _ = _
        rw [ha]
        rfl
      · show ((L.right.answer c s'.session.source).1.mapError _).map _ = _
        rw [← he, ha]
        rfl
    · refine .both w answer answer le_rfl ?_ ?_ rfl ⟨rfl, hi.next, hi.settled, hr, hb⟩
      · show (L.left.answer c s.session.source.1).1.mapError _ = _
        rw [ha]
        rfl
      · show (L.right.answer c s'.session.source).1.mapError _ = _
        rw [← he, ha]
        rfl
  · refine .halted (Or.inl (hg _ _ hb.back fun cause hc => ?_))
    show ((L.right.answer c s'.session.source).1.mapError _).map _ = _
    rw [hc]
    rfl

theorem slotCall (a : Address) (k : Word) : L.simulation.memory.Follows (L.simulation.target a)
    (do onTrace (Trace.addStorage a k); call L.simulation.env₁ (.storage a k))
    (do onTrace (Trace.addStorage a k); call L.simulation.env₂ (.storage a k)) same := by
  refine traced (fun t => .addStorage a k) (fun {w s s' b u} ha hi hx => ?_) fun b {s q} h => ?_
  · exact called hi (hi.sound.storage ha hx)
  · exact persists h (.refl _) (List.suffix_cons _ _)

/-- The value is made before its need is registered, so that the need can hold it. -/
theorem hashed (hash : Word) (max : Nat) : L.simulation.memory.Follows ⊤
    (do
      let v ← create (Value.ofQuestion none (.hashed hash max))
      onTrace (Trace.addHashed hash v)
      return v)
    (do
      let v ← create (Value.ofQuestion none (.hashed hash max))
      onTrace (Trace.addHashed hash v)
      return v)
    L.simulation.value where
  run {w s s'} _ hi := by
    obtain ⟨ht, hi⟩ : s.trace = s'.trace ∧ L.Inv s.session s'.session s.trace w := hi
    have hg := (Trace.Effect.addHashed (t := s.trace) hash
      (.asked s.session.next none (.hashed hash max))).grows
    simp only [Fallible.bind_apply, create, onSession, onMachine, Machine.onSession,
      Fallible.zoom_apply, Fallible.ofState, Value.ofQuestion, onTrace, ← ht, ← hi.next]
    generalize h : Trace.addHashed hash (.asked s.session.next none (.hashed hash max)) s.trace = p
    rcases p with ⟨e | b, u⟩ <;> rw [h] at hg
    · exact .halted (Or.inr ⟨e, rfl, rfl, rfl, hi.sound.back.mono hg, hi.rel⟩)
    · refine .both (insert (s.session.next, .hashed hash max) w.1, w.2) _ _
        ⟨Finset.subset_insert _ _, id⟩ rfl rfl ⟨rfl, .asked (Finset.mem_insert_self _ _)⟩ ⟨rfl, ?_⟩
      exact ⟨rfl, hi.settled, hi.rel, hi.sound.hashed h _⟩
  stays {s q} h := by
    have hg := (Trace.Effect.addHashed (t := s.trace) hash
      (.asked s.session.next none (.hashed hash max))).grows
    simp only [Fallible.bind_apply, create, onSession, onMachine, Machine.onSession,
      Fallible.zoom_apply, Fallible.ofState, Value.ofQuestion, onTrace]
    generalize hb : Trace.addHashed hash (.asked s.session.next none (.hashed hash max)) s.trace = p
    rcases p with ⟨e | b, u⟩ <;> rw [hb] at hg
    · exact persists h hg List.suffix_rfl
    · exact persists h hg List.suffix_rfl

theorem resolved (v v' : Value Question) : L.simulation.memory.Follows (L.simulation.value v v')
    (Eval.resolve L.simulation.env₁ v) (Eval.resolve L.simulation.env₂ v') same where
  run {w s s'} hv hi := by
    obtain ⟨ht, hi⟩ : s.trace = s'.trace ∧ L.Inv s.session s'.session s.trace w := hi
    obtain ⟨rfl, hv⟩ : v = v' ∧ v.Valid w.1 := hv
    cases (resolve hv).run (w := ()) trivial hi with
    | both _ a b _ left right post inv => exact .both w a b le_rfl left right post ⟨ht, inv⟩
    | halted h =>
      rcases h with h | ⟨e, left, right, _, inv⟩
      · refine .halted (Or.inl ?_)
        show L.gone s.trace.needs _ _ _ s'.trace.needs
        rw [← ht]
        exact h
      · exact .halted (Or.inr ⟨e, left, right, congrArg _ ht, inv.sound.back, inv.rel⟩)
  stays {s q} h := persists h (.refl _) (L.left.kept_log.resolve v s.session)

theorem peek {s : Session (σ × List Call)} {s' : Session τ} {t : Trace Question} {w : Progress}
    (hi : L.Inv s s' t w) (v : Value Question) : v.peek s = v.peek s' := by
  have h : s'.outcome? = s.outcome? := funext hi.outcome?
  cases v <;> simp only [Value.peek, h]

theorem values_iff {vs ws : List (Value Question)} {w : Progress} :
    L.simulation.values vs ws w ↔ vs = ws ∧ ∀ v ∈ vs, v.Valid w.1 := by
  constructor
  · intro h
    induction h with
    | nil => exact ⟨rfl, fun _ h => nomatch h⟩
    | cons h _ ih =>
      obtain ⟨rfl, hv⟩ := h
      obtain ⟨rfl, hvs⟩ := ih
      exact ⟨rfl, List.forall_mem_cons.mpr ⟨hv, hvs⟩⟩
  · rintro ⟨rfl, h⟩
    exact List.forall₂_same.mpr fun v hv => ⟨rfl, h v hv⟩

theorem ofParts (hint : Option Nat) (vs ws : List (Value Question)) :
    L.simulation.memory.Follows (L.simulation.values vs ws) (create (Value.ofParts hint vs))
      (create (Value.ofParts hint ws)) L.simulation.value := by
  refine created (fun {w s s' t} hv hi => ?_) fun s => rfl
  obtain ⟨rfl, hvs⟩ := values_iff.mp hv
  refine ⟨⟨?_, .joined hvs⟩, congrArg (· + 1) hi.next, hi.settled, hi.rel, hi.sound.next _⟩
  show Value.joined s.next hint vs = .joined s'.next hint vs
  rw [hi.next]

theorem map (hint : Option Nat) (f : Bytes → Bytes) (v v' : Value Question) :
    L.simulation.memory.Follows (L.simulation.value v v')
      (create (v.map hint fun bytes => .ok (f bytes)))
      (create (v'.map hint fun bytes => .ok (f bytes))) L.simulation.value := by
  refine created (fun {w s s' t} hv hi => ?_) fun s => by cases v <;> rfl
  obtain ⟨rfl, hv⟩ : v = v' ∧ v.Valid w.1 := hv
  have hn : s.next + 1 = s'.next + 1 := congrArg (· + 1) hi.next
  cases v with
  | known bytes =>
    exact ⟨⟨rfl, .known _⟩, hn, hi.settled, hi.rel, (hi.sound.next _).mark _⟩
  | _ =>
    refine ⟨⟨?_, .mapped hv fun bytes => ⟨f bytes, rfl⟩⟩, hn, hi.settled, hi.rel, hi.sound.next _⟩
    simp only [Value.map, hi.next]

variable (L) in
theorem lawful : L.simulation.Lawful where
  limits := Or.inl rfl
  short bytes w _ := ⟨rfl, .known bytes⟩
  known bytes w := ⟨rfl, .known bytes⟩
  origin w := Or.inl rfl
  length {m n w v v'} hi hv := by
    obtain ⟨rfl, _⟩ : v = v' ∧ v.Valid w.1 := hv
    simp only [Value.length?, peek hi.2]
  peek {m n w v v'} hi hv := by
    obtain ⟨rfl, _⟩ : v = v' ∧ v.Valid w.1 := hv
    exact peek hi.2 v
  failed e hi := Or.inr ⟨e, rfl, rfl, congrArg _ hi.1, hi.2.sound.back, hi.2.rel⟩
  resolve := resolved
  slotValue := slotValue
  slotCall := slotCall
  isContract := isContract
  hashed h := hashed h _
  select := select
  alloc := alloc
  allocWords := allocWords
  ofParts := ofParts
  map := map

end Lockstep

end ChainRead
