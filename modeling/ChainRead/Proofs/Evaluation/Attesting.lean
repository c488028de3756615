import ChainRead.Proofs.Evaluation.Watching
import ChainRead.Proofs.Trace.Operations

/-! # Supplied bytes are attested

The need that reads supplied bytes holds the question that is asked for them, and whatever a source
answers to it is checked. So a run keeps a ledger that promises of every such need what its bytes
will be like. Something may lie beside the source, related to these needs and to the ledger.
-/

namespace ChainRead

open Need Coupling Eval

structure Attests (hash : Word) (max : Nat) (bytes : Bytes) : Prop where
  hash : keccak256 bytes = hash
  length : bytes.length ≤ max

theorem attests_of_checkSupplied {hash : Word} {max : Nat} {bytes b : Bytes}
    (h : checkSupplied hash max bytes = .ok b) : Attests hash max b := by
  unfold checkSupplied at h
  split at h
  · cases h
  · next hl =>
    split at h
    · cases h
    · next hk =>
      cases h
      exact ⟨not_not.mp hk, Nat.le_of_not_lt hl⟩

variable {σ τ : Type}

/-- Whatever a source answers, the outcome of the question for supplied bytes is checked. -/
theorem Source.fits_hashed (src : Source σ) (hash : Word) (max : Nat) (s : σ) :
    Fits True (Attests hash max) (src.answers (.hashed hash max) s).1 := by
  rw [answers_apply]
  rcases (src.answer (Question.hashed hash max).call s).1 with cause | bytes
  · exact trivial
  · show Fits True _ (checkSupplied hash max bytes)
    rcases h : checkSupplied hash max bytes with e | b
    · exact trivial
    · exact attests_of_checkSupplied h

/-- A need's value asks for the supplied bytes, which are promised to be of the need's hash. -/
def attested (max : Nat) (p : Word × Value Question) : Fact Ledger where
  toFun w := ∃ id, p.2 = .asked id none (.hashed p.1 max) ∧
    w.promised id = some (Attests p.1 max)
  monotone' := by
    rintro w w' hw ⟨id, hv, hp⟩
    exact ⟨id, hv, hw.1 _ _ hp⟩

theorem means_of_attested (src : Source σ) {max : Nat} {p : Word × Value Question} {w : Ledger}
    (h : attested max p w) : Means src.answers True w p.2 (Attests p.1 max) := by
  obtain ⟨id, hv, hp⟩ := h
  rw [hv]
  exact .asked hp (src.fits_hashed p.1 max)

/-- What is known of needs for supplied bytes and of what lies beside a source. -/
structure Bearing (τ : Type) where
  going : List (Word × Value Question) → τ → Fact Ledger
  failed : List (Word × Value Question) → τ → Fact Ledger
  failed_of (ps : List (Word × Value Question)) (extra : τ) : going ps extra ≤ failed ps extra

namespace Attesting

open Watching

/-- The same session and trace on both sides, with something beside the right source. -/
structure Beside (R : List (Word × Value Question) → τ → Fact Ledger) (m : Memory σ)
    (n : Memory (σ × τ)) (w : Ledger) : Prop where
  session : m.1 = n.1.plain
  trace : m.2 = n.2
  honours : m.1.Honours True w
  beside : R (supplied m.2.needs) n.1.source.2 w

def meant (src : Source σ) (v : Value Question) : Fact Ledger where
  toFun w := ∃ φ, Means src.answers True w v φ
  monotone' := by
    rintro w w' hw ⟨φ, hv⟩
    exact ⟨φ, hv.mono hw⟩

def simulation (config : Config) (src : Source σ) (B : Bearing τ) :
    Simulation Ledger σ (σ × τ) where
  config := config
  left := src
  right := src.beside τ
  value := itself (meant src)
  target _ := ⊤
  inv := Beside B.going
  ended p q := ∃ e w, p.1 = .error e ∧ q.1 = .error e ∧ Beside B.failed p.2 q.2 w
  ended_left e h := by
    obtain ⟨_, _, h, _⟩ := h
    cases h
  ended_right q h := by
    obtain ⟨_, _, _, h, _⟩ := h
    cases h

variable {config : Config} {src : Source σ} {B : Bearing τ} {α : Type} {P : Fact Ledger}
  {Q : α → α → Fact Ledger}

theorem Beside.failed {m : Memory σ} {n : Memory (σ × τ)} {w : Ledger} (h : Beside B.going m n w) :
    Beside B.failed m n w :=
  { h with beside := B.failed_of _ _ _ h.beside }

theorem follows {x : Eval σ α} {y : Eval (σ × τ) α}
    (h : ∀ {w s t}, P w → Beside B.going s.memory t.memory w →
      (simulation config src B).memory.Result w Q (x s) (y t)) :
    (simulation config src B).memory.Follows P x y Q where
  run := h
  stays h := by
    obtain ⟨_, _, h, _⟩ := h
    cases h

theorem traced {x : Fallible EvalError (Trace Question) α}
    (hx : Trace.LeavesAlone (fun t => supplied t.needs) x) :
    (simulation config src B).memory.Follows P (onTrace x) (onTrace x) same := by
  refine follows fun {w s t} _ hi => ?_
  have hn : supplied (x s.trace).2.needs = supplied s.trace.needs := hx s.trace
  have ht : s.trace = t.trace := hi.trace
  have hi : Beside B.going (s.session, (x s.trace).2) (t.session, (x s.trace).2) w :=
    ⟨hi.session, rfl, hi.honours, hn.symm ▸ hi.beside⟩
  simp only [onTrace, Fallible.zoom_apply, ← ht]
  rcases hp : x s.trace with ⟨e | a, u⟩ <;> rw [hp] at hi
  · exact .halted ⟨e, w, rfl, rfl, hi.failed⟩
  · exact .both w a a le_rfl rfl rfl rfl hi

theorem onSession {x : Fallible EvalError (Session σ) α}
    {y : Fallible EvalError (Session (σ × τ)) α} {K : α → Fact Ledger}
    (hxy : ∀ {w}, P w → Ignores x y)
    (h : ∀ {w s}, P w → s.Honours True w → ∃ w', w ≤ w' ∧ (x s).2.Honours True w' ∧
      ∀ a, (x s).1 = .ok a → K a w') :
    (simulation config src B).memory.Follows P (onSession x) (onSession y)
      fun a b => Fact.of (a = b) ⊓ K a := by
  refine follows fun {w s t} hw hi => ?_
  have hst : s.session = t.session.plain := hi.session
  have he : y t.session = ((x s.session).1, (x s.session).2.beside t.session.source.2) := by
    rw [hst]
    exact hxy hw t.session.plain t.session.source.2
  obtain ⟨w', hle, hs, hK⟩ := h hw hi.honours
  have hi : Beside B.going ((x s.session).2, s.trace) ((y t.session).2, t.trace) w' := by
    rw [he]
    exact ⟨rfl, hi.trace, hs, (B.going _ _).monotone hle hi.beside⟩
  have hy := congrArg Prod.fst he
  rcases hx : (x s.session).1 with e | a <;> rw [hx] at hy
  · refine .halted ⟨e, w', ?_, ?_, hi.failed⟩
    · exact congrArg (Except.map fun _ => ()) hx
    · exact congrArg (Except.map fun _ => ()) hy
  · exact .both w' a a hle hx hy ⟨rfl, hK a hx⟩ hi

theorem made {k : StateM (Session σ) (Value Question)}
    {k' : StateM (Session (σ × τ)) (Value Question)} {K : Value Question → Fact Ledger}
    (hk : ∀ {w}, P w → Ignores (.ofState k) (.ofState k'))
    (h : ∀ {w s}, P w → s.Honours True w → ∃ w', w ≤ w' ∧ (k s).2.Honours True w' ∧ K (k s).1 w') :
    (simulation config src B).memory.Follows P (create k) (create k') (itself K) := by
  refine onSession (x := .ofState k) hk fun {w s} hw hs => ?_
  obtain ⟨w', hle, hs', hK⟩ := h hw hs
  refine ⟨w', hle, hs', fun a ha => ?_⟩
  cases ha
  exact hK

theorem made_meant {k : StateM (Session σ) (Value Question)}
    {k' : StateM (Session (σ × τ)) (Value Question)}
    (hk : ∀ {w}, P w → Ignores (.ofState k) (.ofState k'))
    (h : ∀ {w s}, P w → s.Honours True w → ∃ φ, Meant src.answers True w φ (k s)) :
    (simulation config src B).memory.Follows P (create k) (create k') (itself (meant src)) := by
  refine made hk fun {w s} hw hs => ?_
  obtain ⟨φ, w', hle, _, hs', hm⟩ := h hw hs
  exact ⟨w', hle, hs', φ, hm⟩

theorem asked (hint : Option Nat) (q : Question) :
    (simulation config src B).memory.Follows P (create (Value.ofQuestion hint q))
      (create (Value.ofQuestion hint q)) (itself (meant src)) := by
  refine made_meant (fun _ => .ofQuestion hint q) fun _ hs => ⟨fun _ => True, ?_⟩
  exact hs.asked fun s => by cases (src.answers q s).1 <;> trivial

theorem called (c : Call) : (simulation config src B).memory.Follows P
    (call (simulation config src B).env₁ c) (call (simulation config src B).env₂ c) same := by
  refine (onSession (K := fun _ => ⊤) (fun _ => .call src c) fun {w s} _ hs => ?_).weaken le_rfl
    fun _ _ => inf_le_left
  exact ⟨w, le_rfl, ⟨hs.fresh, hs.settled, hs.found⟩, fun _ _ => trivial⟩

theorem resolved (v v' : Value Question) :
    (simulation config src B).memory.Follows (itself (meant src) v v')
      (resolve (simulation config src B).env₁ v) (resolve (simulation config src B).env₂ v')
      same := by
  refine (onSession (K := fun _ => ⊤) (fun {w} hv => ?_) fun {w s} hv hs => ?_).weaken le_rfl
    fun _ _ => inf_le_left
  · obtain ⟨rfl, _⟩ := hv
    exact .resolve src v
  · obtain ⟨_, φ, hm⟩ := hv
    exact ⟨w, le_rfl, (hm.resolve v s hs).2, fun _ _ => trivial⟩

theorem addStorage (a : Address) (k : Word) : (simulation config src B).memory.Follows P
    (onTrace (Trace.addStorage a k)) (onTrace (Trace.addStorage a k)) same :=
  traced (Trace.aside_supplied.addStorage a k)

theorem ofParts (hint : Option Nat) (vs ws : List (Value Question)) :
    (simulation config src B).memory.Follows ((simulation config src B).values vs ws)
      (create (Value.ofParts hint vs)) (create (Value.ofParts hint ws)) (itself (meant src)) := by
  refine made_meant (fun {w} hv => ?_) fun {w s} hv hs => ⟨fun _ => True, ?_⟩
  · obtain ⟨rfl, _⟩ := of_itself hv
    exact .ofParts hint vs
  · obtain ⟨_, hm⟩ := of_itself hv
    choose φ hm using hm
    have means : List.Forall₂ (Means src.answers True w) vs (vs.pmap φ fun _ h => h) := by
      rw [List.forall₂_iff_get]
      simpa using fun i h => hm _ (List.getElem_mem h)
    exact hs.joined means fun _ _ => trivial

theorem map (hint : Option Nat) (f : Bytes → Bytes) (v v' : Value Question) :
    (simulation config src B).memory.Follows ((simulation config src B).value v v')
      (create (v.map hint fun bytes => .ok (f bytes)))
      (create (v'.map hint fun bytes => .ok (f bytes))) (itself (meant src)) := by
  refine made_meant (fun {w} hv => ?_) fun {w s} hv hs => ⟨fun _ => True, ?_⟩
  · obtain ⟨rfl, _⟩ := hv
    exact .map v hint f
  · obtain ⟨_, φ, hm⟩ := hv
    exact hs.mapped hm fun _ _ => trivial

/-- What lies beside a source changes nothing that is made of chain state. -/
theorem uniform : (simulation config src B).Uniform where
  limits := Or.inl rfl
  short bytes _ _ := ⟨rfl, fun _ => True, .known trivial⟩
  known bytes _ := ⟨rfl, fun _ => True, .known trivial⟩
  origin _ := trivial
  length {m n w v v'} hi hv := by
    obtain ⟨rfl, _⟩ := hv
    rw [hi.session]
    rfl
  peek {m n w v v'} hi hv := by
    obtain ⟨rfl, _⟩ := hv
    rw [hi.session]
    rfl
  failed {_ _ w} e hi := ⟨e, w, rfl, rfl, hi.failed⟩
  resolve := resolved
  slotValue a k := ((addStorage a k).bind_same fun _ => asked _ _).before le_top
  slotCall a k := ((addStorage a k).bind_same fun _ => called _).before le_top
  isContract a := (traced (Trace.aside_supplied.requireTarget a)).bind_same fun _ => asked _ _
  select a := (traced (Trace.aside_supplied.addTarget a false)).weaken le_rfl fun _ _ => le_top
  alloc n := (traced fun t => congrArg supplied (Trace.silent_alloc n t).needs).weaken le_rfl
    fun _ _ => le_top
  allocWords n := traced fun t => congrArg supplied (Trace.silent_allocWords n t).needs
  ofParts := ofParts
  map := map

/-- What is known is not spoiled by needs that are attested. -/
def Open (B : Bearing τ) (max : Nat) : Prop :=
  ∀ {ps extra w p}, B.going ps extra w → attested max p w → B.going (ps ++ [p]) extra w

theorem hashed (hB : Open B config.maxSuppliedBytes.toNat) (hash : Word) :
    (simulation config src B).memory.Follows ⊤
      (do
        let v ← create (Value.ofQuestion none (.hashed hash config.maxSuppliedBytes.toNat))
        onTrace (Trace.addHashed hash v)
        return v)
      (do
        let v ← create (Value.ofQuestion none (.hashed hash config.maxSuppliedBytes.toNat))
        onTrace (Trace.addHashed hash v)
        return v)
      (itself (meant src)) := by
  let K (v : Value Question) := attested config.maxSuppliedBytes.toNat (hash, v)
  have made : (simulation config src B).memory.Follows ⊤ _ _ (itself K) :=
    made (fun _ => .ofQuestion none (.hashed hash config.maxSuppliedBytes.toNat)) fun {w s} _ hs =>
      ⟨_, hs.le_promise _, hs.promise _, s.next, rfl, w.promised_promise _ _⟩
  refine made.bind fun v v' => ?_
  have registered : (simulation config src B).memory.Follows (⊤ ⊓ itself K v v')
      (onTrace (Trace.addHashed hash v)) (onTrace (Trace.addHashed hash v')) same := by
    refine follows fun {w s t} hw hi => ?_
    obtain ⟨_, rfl, hv⟩ := hw
    have ht : s.trace = t.trace := hi.trace
    have hi : Beside B.going (s.session, (Trace.addHashed hash v s.trace).2)
        (t.session, (Trace.addHashed hash v s.trace).2) w := by
      refine ⟨hi.session, rfl, hi.honours, ?_⟩
      rcases Trace.supplied_addHashed hash v s.trace with hn | hn <;> rw [hn]
      · exact hi.beside
      · exact hB hi.beside hv
    simp only [onTrace, Fallible.zoom_apply, ← ht]
    rcases hp : Trace.addHashed hash v s.trace with ⟨e | a, u⟩ <;> rw [hp] at hi
    · exact .halted ⟨e, w, rfl, rfl, hi.failed⟩
    · exact .both w a a le_rfl rfl rfl rfl hi
  exact registered.bind_same fun _ => .pure fun w hw =>
    ⟨hw.2.1, _, means_of_attested src hw.2.2⟩

theorem lawful (hB : Open B config.maxSuppliedBytes.toNat) :
    (simulation config src B).Lawful where
  toUniform := uniform
  hashed := hashed hB

end Attesting

end ChainRead
