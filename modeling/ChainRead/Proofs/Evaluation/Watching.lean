import ChainRead.Proofs.Evaluation.History
import ChainRead.Proofs.Evaluation.Metering
import ChainRead.Proofs.Evaluation.Nesting

/-! # Watched runs

A run with something beside its source does what it does without. On both sides every value stands
for itself, and a ledger bounds its length. What lies beside may be related to the ledger in any way
that does not change as more becomes known of values.
-/

namespace ChainRead

/-- States stay related when something else is kept beside the source and more becomes known, if
nothing but the comparison of memories changes. -/
theorem Simulation.StateRel.rebase {σ τ : Type} {S S' : Simulation Ledger σ (σ × τ)} {s : State σ}
    {t t' : State (σ × τ)} {w w' : Ledger} (h : S.StateRel s t w) (hc : S'.config = S.config)
    (hc' : S'.config' = S.config') (hv : S'.value = S.value) (ha : S'.target = S.target)
    (ht : t'.plain = t.plain) (hw : w ≤ w') (hi : S'.inv s.memory t'.memory w') :
    S'.StateRel s t' w' := by
  have values {vs ws : List (Value Question)} (h : S.values vs ws w) : S'.values vs ws w' :=
    List.Forall₂.imp (fun v v' hv' => hv ▸ (S.value v v').monotone hw hv') h
  have frame : t'.frame = t.frame := congrArg (fun u : State σ => u.frame) ht
  have outputs : t'.outputs = t.outputs := congrArg (fun u : State σ => u.outputs) ht
  obtain ⟨hf, ho, _⟩ := h
  refine ⟨?_, ?_, hi⟩
  · rw [frame]
    exact ⟨hf.target, ha ▸ (S.target _).monotone hw hf.selected, hf.slot, hf.exitCode,
      hc ▸ hf.maxStack, hc' ▸ hf.maxStack', values hf.stack⟩
  · rw [outputs]
    exact values ho

/-- An instruction that does the same on both sides may be noted on the right one, if states are
related again after that. -/
theorem Simulation.watched {σ : Type} {S S' : Simulation Ledger σ (σ × List (Moment σ))}
    {env : Env σ} {nested : Bytes → Eval σ UInt8}
    {nested' : Bytes → Eval (σ × List (Moment σ)) UInt8} {depth : Nat} {i : Instruction}
    {s : State σ} {t : State (σ × List (Moment σ))} {w : Ledger}
    (hx : S.whole.Result w Coupling.same (Eval.step env nested depth i s)
      (Eval.step env.watched nested' depth i t))
    (failed : ∀ {q}, S.memory.ended (forget (Eval.step env nested depth i s)) q →
      (∃ e, q.1 = .error e) ∧ S'.memory.ended (forget (Eval.step env nested depth i s)) q)
    (noted : ∀ {a s' t' v}, w ≤ v → Eval.step env nested depth i s = (.ok a, s') →
      S.StateRel s' t' v →
      ∃ v', v ≤ v' ∧ S'.StateRel s' (t'.note ⟨i, t.plain, t'.plain⟩) v') :
    S'.whole.Result w Coupling.same (Eval.step env nested depth i s)
      (env.watch nested' depth i t) := by
  unfold Env.watch
  rcases hp : Eval.step env nested depth i s with ⟨r, s'⟩
  rcases hq : Eval.step env.watched nested' depth i t with ⟨r', t'⟩
  rw [hp, hq] at hx
  rw [hp] at failed
  cases hx with
  | both v a b le left right post inv =>
    cases left
    cases right
    obtain ⟨v', hv, hi⟩ := noted le hp inv
    exact .both v' a b (le.trans hv) rfl rfl post hi
  | halted ended =>
    obtain ⟨⟨e, he⟩, ended⟩ := failed ended
    cases eq_error_of_forget he
    exact .halted ended

namespace Watching

variable {σ τ α : Type}

open Coupling Eval Ledger

/-- A value stands for itself, and something is known of it. -/
def itself (K : Value Question → Fact Ledger) (v v' : Value Question) : Fact Ledger where
  toFun w := v = v' ∧ K v w
  monotone' _ _ hw h := ⟨h.1, (K v).monotone hw h.2⟩

theorem of_itself {K : Value Question → Fact Ledger} {vs ws : List (Value Question)} {w : Ledger}
    (h : List.Forall₂ (fun v v' => itself K v v' w) vs ws) : vs = ws ∧ ∀ v ∈ vs, K v w := by
  induction h with
  | nil => simp
  | cons hv _ ih =>
    obtain ⟨rfl, hK⟩ := hv
    obtain ⟨rfl, hKs⟩ := ih
    exact ⟨rfl, List.forall_mem_cons.mpr ⟨hK, hKs⟩⟩

def described (src : Source σ) (φ : Bytes → Prop) (v : Value Question) : Fact Ledger where
  toFun w := Describes src.answers True w v φ
  monotone' _ _ hw h := h.mono hw

def metered (config : Config) (src : Source σ) (R : τ → Ledger → Prop) : Metered σ (σ × τ) where
  config := config
  left := src
  right := src.beside τ
  value := itself (held src.answers)
  sessions s t w := s = t.plain ∧ s.Honours True w ∧ R t.source.2 w
  gone _ := False
  failed s t := s = t.1 ∧ ∃ w, R t.2 w
  failed_of := by
    rintro s t w ⟨rfl, _, hR⟩
    exact ⟨rfl, w, hR⟩

abbrev simulation (config : Config) (src : Source σ) (R : τ → Ledger → Prop) :
    Simulation Ledger σ (σ × τ) :=
  (metered config src R).simulation

def sizes (config : Config) (src : Source σ) (R : τ → Ledger → Prop) :
    (simulation config src R).Sizes where
  sized n := itself (described src fun b => b.length = n)
  paid := bounded

variable {config : Config} {src : Source σ} {R : τ → Ledger → Prop} {P : Fact Ledger}

theorem bind_itself {β : Type} {x : Eval σ (Value Question)} {y : Eval (σ × τ) (Value Question)}
    {K : Value Question → Fact Ledger} {f : Value Question → Eval σ β}
    {g : Value Question → Eval (σ × τ) β} {Q : β → β → Fact Ledger}
    (hx : (simulation config src R).whole.Follows P x y (itself K))
    (hf : ∀ v, (simulation config src R).whole.Follows (P ⊓ K v) (f v) (g v) Q) :
    (simulation config src R).whole.Follows P (x >>= f) (y >>= g) Q :=
  Follows.bind_eq (K := K) hx hf

theorem onSession (hR : Steady R) {x : Fallible EvalError (Session σ) α}
    {y : Fallible EvalError (Session (σ × τ)) α} {K : α → Fact Ledger}
    (hxy : ∀ {w}, P w → Ignores x y)
    (h : ∀ {w s a}, P w → s.Honours True w → (x s).1 = .ok a → (x s).2.Learns True w (K a)) :
    (simulation config src R).memory.Follows P (onSession x) (onSession y)
      fun a b => Fact.of (a = b) ⊓ K a where
  run {w s t} hw hi := by
    obtain ⟨hst, hs, ht⟩ := hi.1
    have he : y t.session = ((x s.session).1, (x s.session).2.beside t.session.source.2) := by
      rw [show s.session = t.session.plain from hst]
      exact hxy hw t.session.plain t.session.source.2
    rcases hx : (x s.session).1 with e | a
    · refine .halted (Or.inr ⟨e, ?_, ?_, ?_⟩)
      · exact congrArg (Except.map fun _ => ()) hx
      · exact congrArg (Except.map fun _ => ()) ((congrArg Prod.fst he).trans hx)
      · show (x s.session).2.source = (y t.session).2.source.1 ∧ ∃ w, R (y t.session).2.source.2 w
        rw [he]
        exact ⟨rfl, w, ht⟩
    · obtain ⟨w', hle, hc, hs', hK⟩ := h hw hs hx
      have hy : (y t.session).1 = .ok a := (congrArg Prod.fst he).trans hx
      refine .both w' a a hle hx hy ⟨rfl, hK⟩ (Metered.grow hi hle hc ?_)
      show (x s.session).2 = (y t.session).2.plain ∧ _ ∧ R (y t.session).2.source.2 w'
      rw [he]
      exact ⟨rfl, hs', hR ht hle hc⟩
  stays h := Metered.persists h id

theorem made (hR : Steady R) {k : StateM (Session σ) (Value Question)}
    {k' : StateM (Session (σ × τ)) (Value Question)} {φ : Bytes → Prop}
    (hk : ∀ {w}, P w → Ignores (.ofState k) (.ofState k'))
    (h : ∀ {w s}, P w → s.Honours True w → Promises src.answers True w φ (k s)) :
    (simulation config src R).memory.Follows P (create k) (create k')
      (itself (described src φ)) := by
  refine onSession (x := .ofState k) (K := described src φ) hR hk fun {w s v} hw hs hv => ?_
  obtain ⟨w', hle, hc, hh, hd⟩ := h hw hs
  cases hv
  exact ⟨w', hle, hc, hh, hd⟩

theorem resolved (hR : Steady R) (v v' : Value Question) :
    (simulation config src R).memory.Follows (itself (held src.answers) v v')
      (resolve (simulation config src R).env₁ v) (resolve (simulation config src R).env₂ v')
      fun a b => Fact.of (a = b) ⊓ bounded a.length := by
  refine onSession (K := fun a : Bytes => bounded a.length) hR (fun hw => ?_)
    fun {w s a} hw hs ha => ?_
  · obtain ⟨rfl, _⟩ := hw
    exact .resolve src v
  · obtain ⟨hb, ht⟩ := held_resolve hw.2 s hs
    have ha : (v.resolve src.answers s).1 = .ok a := ha
    rw [ha] at hb
    exact ht.learns hb

theorem called (hR : Steady R) (c : Call) : (simulation config src R).memory.Follows P
    (call (simulation config src R).env₁ c) (call (simulation config src R).env₂ c) same := by
  refine Follows.weaken (onSession (K := fun _ => ⊤) hR (fun _ => .call src c) ?_) le_rfl
    fun _ _ => inf_le_left
  intro w s b _ hs _
  exact Session.Honours.learns ⟨hs.fresh, hs.settled, hs.found⟩ trivial

theorem fair (hR : Steady R) : (simulation config src R).Fair where
  limits := Or.inl rfl
  short bytes w hb := ⟨rfl, held_known (Or.inl (hb.trans (by decide)))⟩
  origin _ := trivial
  failed e := Metered.fails e
  resolve v v' := (resolved hR v v').weaken le_rfl fun _ _ => inf_le_left
  slotCall a k := (Metered.addStorage a k).bind_same fun _ => called hR _
  select := Metered.select

theorem asked (hR : Steady R) (hb : src.Bounded) (q : Question) {φ : Bytes → Prop}
    (hφ : ∀ b : Bytes, q.Sized b.length → φ b)
    (hn : ∀ {n b}, q.size? = some n → φ b → b.length = n) :
    (simulation config src R).memory.Follows P (create (Value.ofQuestion q.size? q))
      (create (Value.ofQuestion q.size? q)) (itself (described src φ)) := by
  refine made hR (fun _ => .ofQuestion q.size? q) fun _ hs => hs.ofQuestion hn fun s => ?_
  rcases h : (src.answers q s).1 with e | b
  · exact trivial
  · exact hφ b (hb.sized h)

theorem askedWord (hR : Steady R) (hb : src.Bounded) {q : Question} (hq : q.size? = some 32) :
    (simulation config src R).memory.Follows P (create (Value.ofQuestion q.size? q))
      (create (Value.ofQuestion q.size? q)) ((sizes config src R).sized 32) := by
  refine asked hR hb q (fun b h => h.eq hq) fun {n b} hn hl => ?_
  cases hq.symm.trans hn
  exact hl

theorem mapped (hR : Steady R) {K : Value Question → Fact Ledger} {n : Nat} (f : Bytes → Bytes)
    (v v' : Value Question) (h : ∀ {w}, K v w →
      ∃ φ, Means src.answers True w v φ ∧ ∀ b, φ b → (f b).length = n) :
    (simulation config src R).memory.Follows (itself K v v')
      (create (v.map (some n) fun bytes => .ok (f bytes)))
      (create (v'.map (some n) fun bytes => .ok (f bytes)))
      (itself (described src fun b => b.length = n)) := by
  refine made hR (fun hw => ?_) fun {w s} hw hs => ?_
  · obtain ⟨rfl, _⟩ := hw
    exact .map v (some n) f
  · obtain ⟨φ, hm, hf⟩ := h hw.2
    exact hs.mapLength hm hf

theorem joined (hR : Steady R) (size : Nat) (vs ws : List (Value Question)) :
    (simulation config src R).memory.Follows ((sizes config src R).words size vs ws)
      (create (Value.ofParts (some size) vs)) (create (Value.ofParts (some size) ws))
      (itself (described src fun b => b.length = size)) := by
  refine made hR (fun hw => ?_) fun {w s} hw hs => ?_
  · obtain ⟨rfl, _⟩ := of_itself hw.2
    exact .ofParts (some size) vs
  · exact hs.ofWords hw.1 (of_itself hw.2).2

theorem makes (hR : Steady R) (hb : src.Bounded) :
    (simulation config src R).Makes (sizes config src R) create create where
  toFair := fair hR
  left _ := .onSession _
  right _ := .onSession _
  value h hn := ⟨h.1, held_of_length h.2 hn⟩
  few _ hn := Or.inl (hn.trans (by decide))
  word v _ := ⟨rfl, .known (Word.length_toBytes v)⟩
  slotValue a k :=
    (Metered.addStorage a k).bind_same fun _ => askedWord hR hb (q := .storage a k) rfl
  isContract a := by
    have required := Metered.traced (M := metered config src R) (P := ⊤)
      (fun _ _ => .requireTarget a) (.requireTarget a)
    exact required.bind_same fun _ => askedWord hR hb (q := .isContract a) rfl
  hashed hash := by
    let q := Question.hashed hash config.maxSuppliedBytes.toNat
    have kept (v : Value Question) :
        described src (fun b => q.Sized b.length) v ≤ held src.answers v := by
      intro w hd
      refine ⟨_, hd, ⟨[], by decide, fun _ h => nomatch h⟩, fun b h => Or.inl h.1⟩
    refine (asked (P := ⊤) hR hb q (fun _ h => h) Question.Sized.eq).bind fun v v' => ?_
    have registered := Metered.traced (M := metered config src R)
      (P := ⊤ ⊓ itself (described src fun b => q.Sized b.length) v v')
      (fun w hw => .addHashed hash ⟨hw.2.1, kept v _ hw.2.2⟩) (.addHashed hash v)
    exact registered.bind_same fun _ => .pure fun w hw => ⟨hw.2.1, kept v _ hw.2.2⟩
  joined := joined hR
  cut f v v' hf := mapped hR f v v' fun h => ⟨_, h.means, hf⟩
  mapped f v v' hf := mapped hR f v v' fun ⟨φ, hd, _⟩ => ⟨φ, hd.means, fun b _ => hf b⟩

theorem pays (hR : Steady R) (hM : (metered config src R).Charges) :
    (simulation config src R).Pays (sizes config src R) where
  toFair := fair hR
  alloc := Metered.alloc hM
  allocWords := Metered.allocWords hM

section Looks

variable (hR : Steady R)
include hR

theorem pushMade {n : Nat} {v v' : Value Question} (hn : P ≤ bounded n)
    (hv : P ≤ itself (described src fun b => b.length = n) v v') :
    (simulation config src R).whole.Follows P (push v) (push v') any :=
  (fair hR).push fun w hw => ⟨(hv w hw).1, held_of_length (hv w hw).2 (hn w hw)⟩

theorem looked {f : Session σ → α} {g : Session (σ × τ) → α} {K : α → Fact Ledger}
    (hg : ∀ s extra, g (s.beside extra) = f s)
    (h : ∀ {w} {s : Session σ}, P w → s.Honours True w → s.Learns True w (K (f s))) :
    (simulation config src R).whole.Follows P (look f) (look g)
      fun a b => Fact.of (a = b) ⊓ K a := by
  refine Simulation.lift (onSession hR (fun _ => .look hg) fun {w s a} hw hs ha => ?_)
    (fun _ => ⟨rfl, rfl⟩) fun _ => ⟨rfl, rfl⟩
  cases ha
  exact h hw hs

/-- A length that is there without work is the one that the value keeps. -/
def seen (src : Source σ) (v : Value Question) : Option Nat → Fact Ledger
  | some n => measured src.answers n v
  | none => ⊤

theorem lookLength {v : Value Question} (hv : P ≤ held src.answers v) :
    (simulation config src R).whole.Follows P (look fun s => v.length? s)
      (look fun s => v.length? s) fun a b => Fact.of (a = b) ⊓ seen src v a := by
  refine looked hR (fun _ _ => rfl) fun {w s} hw hs => ?_
  rcases hn : v.length? s with _ | n
  · exact hs.learns trivial
  · exact held_measured (hv w hw) hs hn

theorem resolveHeld {v : Value Question} (hv : P ≤ held src.answers v) :
    (simulation config src R).whole.Follows P (resolve (simulation config src R).env₁ v)
      (resolve (simulation config src R).env₂ v)
      fun a b => Fact.of (a = b) ⊓ bounded a.length :=
  (Simulation.lift (resolved hR v v) (.onSession _) (.onSession _)).before
    fun w hw => ⟨rfl, hv w hw⟩

theorem makeMapped {v : Value Question} {n : Nat} (hv : P ≤ held src.answers v)
    (f : Bytes → Bytes) (hf : ∀ b, (f b).length = n) :
    (simulation config src R).whole.Follows P
      (create (v.map (some n) fun bytes => .ok (f bytes)))
      (create (v.map (some n) fun bytes => .ok (f bytes)))
      (itself (described src fun b => b.length = n)) := by
  refine (Simulation.lift (mapped (K := held src.answers) hR f v v fun h => ?_) (.onSession _)
    (.onSession _)).before fun w hw => ⟨rfl, hv w hw⟩
  obtain ⟨φ, hd, _⟩ := h
  exact ⟨φ, hd.means, fun b _ => hf b⟩

theorem length : (simulation config src R).whole.Follows P (lengthBy create) (lengthBy create)
    any := by
  have words (n : Nat) : (lengthWord n).length = 32 := Word.length_toBytes _
  rw [lengthBy_eq, lengthBy_eq]
  refine bind_itself (fair hR).pop fun v => (lookLength hR inf_le_right).bind_eq fun n => ?_
  rcases n with _ | n
  case some => exact (fair hR).pushShort (by rw [words]; decide)
  refine Follows.bind (makeMapped hR ?_ _ fun b => words _) fun u u' => ?_
  · exact fun w hw => hw.1.2
  · exact pushMade hR (fun w _ => Or.inl (by decide)) inf_le_right

def sized (m n : Nat) (p : Option Bytes × Option Bytes) : Fact Ledger :=
  Fact.of (∀ x y, p = (some x, some y) → x.length = m ∧ y.length = n)

theorem lookPeeks {a b : Value Question} {m n : Nat} (ha : P ≤ measured src.answers m a)
    (hb : P ≤ measured src.answers n b) :
    (simulation config src R).whole.Follows P (look fun s => (a.peek s, b.peek s))
      (look fun s => (a.peek s, b.peek s)) fun p q => Fact.of (p = q) ⊓ sized m n p := by
  refine looked (K := sized m n) hR (fun _ _ => rfl) fun {w s} hw hs => hs.learns ?_
  rintro x y hp
  obtain ⟨hx, hy⟩ := Prod.mk.inj hp
  exact ⟨measured_peek (ha w hw) hs hx, measured_peek (hb w hw) hs hy⟩

theorem makePair {a b : Value Question} {m n : Nat} (ha : P ≤ measured src.answers m a)
    (hb : P ≤ measured src.answers n b) (h : P ≤ Fact.of (m + n ≤ maxSize)) :
    (simulation config src R).whole.Follows P
      (create (Value.ofParts (some (clampSize (m + n))) [a, b]))
      (create (Value.ofParts (some (clampSize (m + n))) [a, b]))
      (itself (described src fun b => b.length = m + n)) := by
  refine Simulation.lift (made hR (fun _ => .ofParts _ [a, b]) fun {w s} hw hs => ?_)
    (.onSession _) (.onSession _)
  obtain ⟨_, φ, ha, hm⟩ := ha w hw
  obtain ⟨_, ψ, hb, hn⟩ := hb w hw
  have hle : m + n ≤ maxSize := h w hw
  refine hs.ofParts ?_ (.cons ha (.cons hb .nil)) ?_
  · rintro _ b ⟨⟩ hb
    exact hb.trans (min_eq_left hle).symm
  · rintro _ (_ | ⟨hx, _ | ⟨hy, _ | _⟩⟩)
    simp [hm _ hx, hn _ hy]

theorem pushRow {x y : Bytes} {m n : Nat} (h : P ≤ bounded (m + n))
    (hm : ∀ {w}, P w → x.length = m ∧ y.length = n) :
    (simulation config src R).whole.Follows P (push (.known (x ++ y))) (push (.known (x ++ y)))
      any := by
  refine (fair hR).push fun w hw => ⟨rfl, held_known ?_⟩
  rw [List.length_append, (hm hw).1, (hm hw).2]
  exact h w hw

theorem executeFree (hb : src.Bounded) (op : Op) (h : op.charges = false) :
    (simulation config src R).whole.Follows P (Eval.execute (simulation config src R).env₁ op)
      (Eval.execute (simulation config src R).env₂ op) any := by
  rw [← executeBy_create, ← executeBy_create]
  exact (makes hR hb).executeFree (length hR) op h

variable (hM : (metered config src R).Charges)
include hM

omit hR in
theorem chargeSum {m n : Nat} (hm : P ≤ bounded m) (hn : P ≤ bounded n) :
    (simulation config src R).whole.Follows P (onTrace (Trace.alloc (clampSize (m + n))))
      (onTrace (Trace.alloc (clampSize (m + n))))
      fun _ _ => bounded (m + n) ⊓ Fact.of (m + n ≤ maxSize) :=
  (Simulation.lift (Metered.allocSum hM m n) (.onTrace _) (.onTrace _)).before (le_inf hm hn)

theorem joinUnseen {a b : Value Question} (ha : P ≤ held src.answers a)
    (hb : P ≤ held src.answers b) (bytes : Option Bytes × Option Bytes) :
    (simulation config src R).whole.Follows P
      (joinSeenBy (simulation config src R).env₁ create a b none none bytes)
      (joinSeenBy (simulation config src R).env₂ create a b none none bytes) any := by
  refine Follows.bind_eq (resolveHeld hR ha) fun x => ?_
  refine Follows.bind_eq (resolveHeld hR (inf_le_left.trans hb)) fun y => ?_
  refine Follows.bind (chargeSum hM (inf_le_left.trans inf_le_right) inf_le_right) fun _ _ => ?_
  exact pushRow hR (inf_le_right.trans inf_le_left) fun _ => ⟨rfl, rfl⟩

theorem joinSeen {a b : Value Question} {m n : Nat} (ha : P ≤ measured src.answers m a)
    (hb : P ≤ measured src.answers n b) :
    (simulation config src R).whole.Follows P
      (look (fun s => (a.peek s, b.peek s)) >>=
        joinSeenBy (simulation config src R).env₁ create a b (some m) (some n))
      (look (fun s => (a.peek s, b.peek s)) >>=
        joinSeenBy (simulation config src R).env₂ create a b (some m) (some n)) any := by
  refine Follows.bind_eq (lookPeeks hR ha hb) fun bytes => ?_
  have charge := chargeSum (P := P ⊓ sized m n bytes) hM (fun w hw => (ha w hw.1).1)
    fun w hw => (hb w hw.1).1
  refine Follows.bind charge fun _ _ => ?_
  rcases bytes with ⟨_ | x, _ | y⟩
  case some.some => exact pushRow hR (inf_le_right.trans inf_le_left) fun hw => hw.1.2 x y rfl
  all_goals
    apply Follows.bind (makePair hR (fun w hw => ?_) (fun w hw => ?_) fun w hw => ?_)
    · intro v v'
      exact pushMade hR (inf_le_left.trans (inf_le_right.trans inf_le_left)) inf_le_right
    · exact ha w hw.1.1
    · exact hb w hw.1.1
    · exact hw.2.2

theorem concat : (simulation config src R).whole.Follows P
    (concatBy (simulation config src R).env₁ create)
    (concatBy (simulation config src R).env₂ create) any := by
  rw [concatBy_eq, concatBy_eq]
  refine bind_itself (fair hR).pop fun b => bind_itself (fair hR).pop fun a => ?_
  -- a length that is seen has to last, since the parts may be resolved at any later time
  refine Follows.bind_eq (lookLength hR inf_le_right) fun m => ?_
  refine Follows.bind_eq (lookLength hR (v := b) fun w hw => hw.1.1.2) fun n => ?_
  have unseen (bytes : Option Bytes × Option Bytes) : (simulation config src R).whole.Follows
      (P ⊓ held src.answers b ⊓ held src.answers a ⊓ seen src a m ⊓ seen src b n)
      (joinSeenBy (simulation config src R).env₁ create a b none none bytes)
      (joinSeenBy (simulation config src R).env₂ create a b none none bytes) any := by
    refine joinUnseen hR hM (fun w hw => ?_) (fun w hw => ?_) bytes
    · exact hw.1.1.2
    · exact hw.1.1.1.2
  rcases m with _ | m <;> rcases n with _ | n
  case some.some => exact joinSeen hR hM (fun w hw => hw.1.2) inf_le_right
  all_goals exact Follows.bind_eq (looked (K := fun _ => ⊤) hR (fun _ _ => rfl) fun _ hs =>
    hs.learns trivial) fun bytes => (unseen bytes).before inf_le_left

theorem execute (hb : src.Bounded) (op : Op) : (simulation config src R).whole.Follows P
    (Eval.execute (simulation config src R).env₁ op)
    (Eval.execute (simulation config src R).env₂ op) any := by
  rw [← executeBy_create, ← executeBy_create]
  exact (makes hR hb).executeBy (pays hR hM) (concat hR hM) (length hR) op

end Looks

end Watching

end ChainRead
