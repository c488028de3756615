import ChainRead.Proofs.Evaluation.Nesting

/-! # Evaluations that do the same

Two evaluations against one source are twins if they go through the same sessions and traces and
keep the same frames and outputs, whatever they report. The left one may be excused from that by the
way in which it failed.
-/

namespace ChainRead

open Coupling Eval

variable {σ α : Type}

/-- The comparison of evaluations that do the same until the left one fails and is excused. -/
def twins (env : Env σ) (excused : Except EvalError Unit → Prop) (h : ¬ excused (.ok ())) :
    Simulation Unit σ σ where
  config := env.config
  left := env.source
  right := env.source
  value v v' := Fact.of (v = v')
  target _ := ⊤
  inv m n _ := m = n
  ended p q := excused p.1 ∨ (∃ e, p.1 = .error e) ∧ p = q
  ended_left _ := by
    rintro (he | ⟨⟨_, he⟩, _⟩)
    · exact absurd he h
    · cases he
  ended_right q := by
    rintro (he | ⟨⟨_, he⟩, hq⟩)
    · exact Or.inl he
    · rw [hq] at he
      cases he

namespace Twins

variable {env : Env σ} {excused : Except EvalError Unit → Prop} {h : ¬ excused (.ok ())}
  {P : Fact Unit}

theorem not_ended {s : State σ} {q : Except EvalError Unit × State σ} :
    ¬ (twins env excused h).memory.ended (.ok (), s) q := by
  rintro (he | ⟨⟨_, he⟩, _⟩)
  · exact h he
  · cases he

theorem follows {x : Eval σ α} (hx : ∀ {s t : State σ}, s.memory = t.memory →
      (x s).1 = (x t).1 ∧ (x s).2.memory = (x t).2.memory) :
    (twins env excused h).memory.Follows P x x same where
  run {w s t} _ hi := by
    obtain ⟨hr, hm⟩ := hx hi
    rcases hs : (x s).1 with e | a
    · refine .halted (Or.inr ⟨⟨e, ?_⟩, ?_⟩)
      · rw [forget, hs]
        rfl
      · simp only [forget, hr, hm]
    · exact .both w a a le_rfl hs (hr ▸ hs) rfl hm
  stays he := absurd he not_ended

theorem onTrace (x : Fallible EvalError (Trace Question) α) :
    (twins env excused h).memory.Follows P (Eval.onTrace x) (Eval.onTrace x) same :=
  follows fun {s t} h => by
    have hs : s.session = t.session := congrArg Prod.fst h
    have ht : s.trace = t.trace := congrArg Prod.snd h
    simp only [Eval.onTrace, Fallible.zoom_apply, State.memory, hs, ht, and_self]

theorem onSession (x : Fallible EvalError (Session σ) α) :
    (twins env excused h).memory.Follows P (Eval.onSession x) (Eval.onSession x) same :=
  follows fun {s t} h => by
    have hs : s.session = t.session := congrArg Prod.fst h
    have ht : s.trace = t.trace := congrArg Prod.snd h
    exact ⟨congrArg (fun s => (x s).1) hs, Prod.ext (congrArg (fun s => (x s).2) hs) ht⟩

theorem onSession_of_eq {β : Type} (x : β → Fallible EvalError (Session σ) α) {v v' : β}
    (he : P ≤ Fact.of (v = v')) :
    (twins env excused h).memory.Follows P (Eval.onSession (x v)) (Eval.onSession (x v')) same where
  run {w s t} hw hi := by
    obtain rfl : v = v' := he w hw
    exact (onSession (P := P) (x v)).run hw hi
  stays := (onSession (P := P) (x v)).stays

theorem create (k : StateM (Session σ) (Value Question)) :
    (twins env excused h).memory.Follows P (Eval.create k) (Eval.create k)
      (twins env excused h).value :=
  onSession _

theorem values_eq {vs ws : List (Value Question)} :
    (twins env excused h).values vs ws ≤ Fact.of (vs = ws) := by
  intro w h
  have h : List.Forall₂ Eq vs ws := h
  rwa [List.forall₂_eq_eq_eq] at h

theorem lawful (env : Env σ) (excused : Except EvalError Unit → Prop) (h : ¬ excused (.ok ())) :
    (twins env excused h).Lawful where
  limits := Or.inl rfl
  short _ _ _ := rfl
  known _ _ := rfl
  origin _ := trivial
  length {m n w v v'} hm hv := by
    obtain rfl : m = n := hm
    obtain rfl : v = v' := hv
    rfl
  peek {m n w v v'} hm hv := by
    obtain rfl : m = n := hm
    obtain rfl : v = v' := hv
    rfl
  failed e h := Or.inr ⟨⟨e, rfl⟩, congrArg _ h⟩
  resolve v v' := onSession_of_eq (Value.resolve env.source.answers) le_rfl
  slotCall a k := (onTrace _).bind_same fun _ => onSession _
  select a := (onTrace _).weaken le_rfl fun _ _ => le_top
  alloc n := (onTrace _).weaken le_rfl fun _ _ _ _ => trivial
  allocWords n := onTrace _
  slotValue a k := (onTrace _).bind_same fun _ => create (Value.ofQuestion (some 32) (.storage a k))
  isContract a := (onTrace _).bind_same fun _ => create _
  ofParts hint vs ws := onSession_of_eq (fun vs => .ofState (Value.ofParts hint vs)) values_eq
  map hint f v v' := onSession_of_eq
    (fun v : Value Question => .ofState (v.map hint fun bytes => .ok (f bytes))) le_rfl
  hashed h := (onSession _).bind_same fun v => (onTrace _).bind_same fun _ => .pure fun _ _ => rfl

theorem frame_eq {f g : Frame Question} {w : Unit} (hf : (twins env excused h).frame f g w) :
    f = g := by
  rcases f with ⟨target, slot, exitCode, stack, maxStack⟩
  rcases g with ⟨target', slot', exitCode', stack', maxStack'⟩
  obtain rfl : target = target' := hf.target
  obtain rfl : slot = slot' := hf.slot
  obtain rfl : exitCode = exitCode' := hf.exitCode
  obtain rfl : stack = stack' := values_eq w hf.stack
  obtain rfl : maxStack = maxStack' := hf.maxStack.trans hf.maxStack'.symm
  rfl

theorem frame_self {f : Frame Question} (hf : f.maxStack = env.config.maxStackSize.toNat) :
    (twins env excused h).frame f f () :=
  ⟨rfl, trivial, rfl, rfl, hf, hf, List.forall₂_same.mpr fun _ _ => rfl⟩

theorem state_self {s : State σ} (hs : s.frame.maxStack = env.config.maxStackSize.toNat) :
    (twins env excused h).whole.inv s s () :=
  ⟨frame_self hs, List.forall₂_same.mpr fun _ _ => rfl, rfl⟩

end Twins

end ChainRead
