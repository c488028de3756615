import ChainRead.Proofs.Evaluation.Laziness
import ChainRead.Proofs.Evaluation.Visiting
import ChainRead.Proofs.Evaluation.Watching

/-! # What values declare

The length that a pending value declares is the length of its bytes, as far as a size can count
them. An evaluation is compared with itself to show it: every value that it makes stands for itself,
and a ledger knows enough of its bytes.
-/

namespace ChainRead

variable {Q σ : Type} {answers : Answers Q σ} {w : Ledger}

theorem clampSize_add {m n x y : Nat} (hm : clampSize m = clampSize x)
    (hn : clampSize n = clampSize y) : clampSize (m + n) = clampSize (x + y) := by
  unfold clampSize at *
  omega

/-- A number is the length `m`, or as much of it as a size can count. -/
def Counts (n m : Nat) : Prop := n = m ∨ n = clampSize m

namespace Counts

variable {n m : Nat}

theorem clamped (h : Counts n m) : clampSize n = clampSize m := by
  unfold Counts clampSize at *
  omega

theorem eq (h : Counts n m) (hm : m ≤ maxSize) : m = n := by
  unfold Counts clampSize at h
  omega

end Counts

/-- A value promises something of its bytes, and the length that it declares agrees with that as far
as a size can count. It may fail. -/
def hinted (answers : Answers Q σ) (v : Value Q) : Fact Ledger where
  toFun w := ∃ φ, Means answers True w v φ ∧
    ∀ n b, v.hint? = some n → φ b → n = clampSize b.length
  monotone' := by
    rintro w w' hw ⟨φ, hv, hn⟩
    exact ⟨φ, hv.mono hw, hn⟩

/-- The bytes that a value promises are `n`, or as many as a size can count. -/
def spans (answers : Answers Q σ) (n : Nat) (v : Value Q) : Fact Ledger where
  toFun w := ∃ φ, Means answers True w v φ ∧ ∀ b, φ b → Counts n b.length
  monotone' := by
    rintro w w' hw ⟨φ, hv, hn⟩
    exact ⟨φ, hv.mono hw, hn⟩

section Hinted

variable {s : Session σ} {v : Value Q}

theorem hinted_known (bytes : Bytes) : hinted answers (.known bytes) w :=
  ⟨(· = bytes), .known rfl, fun _ _ h => nomatch h⟩

theorem hinted_of_length {n : Nat} (h : Describes answers True w v fun b => b.length = n)
    (hn : n ≤ maxSize) : hinted answers v w := by
  refine ⟨_, h.means, fun m b hm hb => ?_⟩
  have hm : n = m := hb.symm.trans (h.hint hm hb)
  rw [← hm, hb]
  exact (min_eq_left hn).symm

theorem hinted_resolve (h : hinted answers v w) :
    Gives True w (fun b => ∀ n, v.hint? = some n → n = clampSize b.length)
      (v.resolve answers) := by
  obtain ⟨φ, hv, hn⟩ := h
  intro s hs
  obtain ⟨hr, ht⟩ := hv.resolve v s hs
  exact ⟨hr.imp fun b hb n hh => hn n b hh hb, ht⟩

theorem hinted_spans (h : hinted answers v w) (hs : s.Honours True w) {n : Nat}
    (hl : v.length? s = some n) : s.Learns True w (spans answers n v) := by
  obtain ⟨φ, hv, hn⟩ := h
  unfold Value.length? at hl
  rcases hh : v.hint? with _ | m <;> rw [hh] at hl
  · obtain ⟨c, hc, rfl⟩ : ∃ c, v.peek s = some c ∧ c.length = n := by simpa using hl
    rcases Value.peek_eq_some hc with rfl | ⟨id, hid, ho⟩
    · exact hs.learns ⟨(· = c), .known rfl, fun _ h => Or.inl (h ▸ rfl)⟩
    · refine hs.learns_found ho fun w' hw hf => ⟨(· = c), ?_⟩
      exact ⟨.found hid hf rfl, fun _ h => Or.inl (h ▸ rfl)⟩
  · cases hl
    exact hs.learns ⟨φ, hv, fun b hb => Or.inr (hn n b hh hb)⟩

theorem spans_resolve {n : Nat} (h : spans answers n v w) (hs : s.Honours True w) {b : Bytes}
    (hb : (v.resolve answers s).1 = .ok b) : Counts n b.length := by
  obtain ⟨φ, hv, hn⟩ := h
  have hr := (hv.resolve v s hs).1
  rw [hb] at hr
  exact hn b hr

theorem hinted_length? (h : hinted answers v w) (hs : s.Honours True w) {n : Nat} {b : Bytes}
    (hl : v.length? s = some n) (hb : (v.resolve answers s).1 = .ok b) : Counts n b.length := by
  obtain ⟨w', -, -, hs', hv⟩ := hinted_spans h hs hl
  exact spans_resolve hv hs' hb

theorem hinted_resolveEach {vs : List (Value Q)} (hv : ∀ v ∈ vs, hinted answers v w)
    (hs : s.Honours True w) : (Value.resolveEach answers vs s).2.Honours True w := by
  induction vs generalizing s with
  | nil => exact hs
  | cons v vs ih =>
    rw [List.forall_mem_cons] at hv
    exact ih hv.2 (hinted_resolve hv.1 s hs).2

end Hinted

namespace Hinting

variable {α : Type}

open Coupling Eval Ledger Watching

/-- A trace has no more bytes left than any size, and the values that it supplies declare their
lengths. -/
def tracks (answers : Answers Question σ) (t : Trace Question) : Fact Ledger where
  toFun w := t.allocLeft ≤ maxSize ∧ ∀ p ∈ Need.supplied t.needs, hinted answers p.2 w
  monotone' _ _ hw h := ⟨h.1, fun p hp => (hinted answers p.2).monotone hw (h.2 p hp)⟩

def simulation (config : Config) (src : Source σ) : Simulation Ledger σ σ where
  config := config
  left := src
  right := src
  value := itself (hinted src.answers)
  target _ := ⊤
  inv m n w := m = n ∧ m.1.Honours True w ∧ tracks src.answers m.2 w
  ended p q := ∃ e, p.1 = .error e ∧ q.1 = .error e
  ended_left e h := by
    obtain ⟨_, h, _⟩ := h
    cases h
  ended_right q h := by
    obtain ⟨_, _, h⟩ := h
    cases h

def sizes (config : Config) (src : Source σ) : (simulation config src).Sizes where
  sized n := itself (described src fun b => b.length = n)
  paid n := Fact.of (n ≤ maxSize)

variable {config : Config} {src : Source σ} {P : Fact Ledger}

theorem alike {x y : Eval σ α} {K : α → Fact Ledger}
    (hxy : ∀ {w s t}, P w → s.memory = t.memory →
      (x s).1 = (y t).1 ∧ (x s).2.memory = (y t).2.memory)
    (h : ∀ {w s t a}, P w → s.session.Honours True w → tracks src.answers s.trace w →
      x s = (.ok a, t) → t.session.Learns True w (K a ⊓ tracks src.answers t.trace)) :
    (simulation config src).memory.Follows P x y fun a b => Fact.of (a = b) ⊓ K a where
  run {w s t} hw hi := by
    obtain ⟨hm, hs, hl⟩ := hi
    obtain ⟨he, hm'⟩ := hxy hw hm
    rcases hx : x s with ⟨e | a, s'⟩ <;> rw [hx] at he hm'
    · exact .halted ⟨e, rfl, congrArg (Except.map fun _ => ()) he.symm⟩
    · obtain ⟨w', hle, _, hs', hK, hl'⟩ := h hw hs hl hx
      exact .both w' a a hle rfl he.symm ⟨rfl, hK⟩ ⟨hm', hs', hl'⟩
  stays h := by
    obtain ⟨_, h, _⟩ := h
    cases h

theorem onSession {x y : Fallible EvalError (Session σ) α} {K : α → Fact Ledger}
    (hxy : ∀ {w}, P w → x = y)
    (h : ∀ {w s a}, P w → s.Honours True w → (x s).1 = .ok a → (x s).2.Learns True w (K a)) :
    (simulation config src).memory.Follows P (onSession x) (onSession y)
      fun a b => Fact.of (a = b) ⊓ K a := by
  refine alike (fun {w s t} hw hm => ?_) fun {w s t a} hw hs hl hx => ?_
  · obtain rfl := hxy hw
    obtain ⟨hsession, htrace⟩ := Prod.mk.inj hm
    exact ⟨congrArg (fun u => (x u).1) hsession,
      Prod.ext (congrArg (fun u => (x u).2) hsession) htrace⟩
  · obtain ⟨hr, ht⟩ := Prod.mk.inj hx
    subst ht
    obtain ⟨w', hle, hc, hs', hK⟩ := h hw hs hr
    exact ⟨w', hle, hc, hs', hK, (tracks src.answers _).monotone hle hl⟩

theorem onTrace {x : Fallible EvalError (Trace Question) α} {K : α → Prop}
    (h : ∀ {w t a u}, P w → tracks src.answers t w → x t = (.ok a, u) →
      tracks src.answers u w ∧ K a) :
    (simulation config src).memory.Follows P (onTrace x) (onTrace x)
      fun a b => Fact.of (a = b) ⊓ Fact.of (K a) := by
  refine alike (fun {w s t} _ hm => ?_) fun {w s t a} hw hs hl hx => ?_
  · obtain ⟨hsession, htrace⟩ := Prod.mk.inj hm
    exact ⟨congrArg (fun u => (x u).1) htrace,
      Prod.ext hsession (congrArg (fun u => (x u).2) htrace)⟩
  · obtain ⟨hr, ht⟩ := Prod.mk.inj hx
    subst ht
    obtain ⟨hl', hK⟩ := h hw hl (Prod.ext hr rfl)
    exact hs.learns ⟨hK, hl'⟩

/-- Registering needs charges no bytes. What is supplied by it declares its length. -/
theorem registered {x : Fallible EvalError (Trace Question) α} (hx : Trace.ChargesNone x)
    (h : ∀ {w t}, P w → ∀ p ∈ Need.supplied (x t).2.needs,
      p ∈ Need.supplied t.needs ∨ hinted src.answers p.2 w) :
    (simulation config src).memory.Follows P (Eval.onTrace x) (Eval.onTrace x) same := by
  refine (onTrace (K := fun _ => True) fun {w t a u} hw hl hu => ⟨⟨?_, ?_⟩, trivial⟩).weaken le_rfl
    fun _ _ => inf_le_left
  · have none := hx t
    rw [hu] at none
    exact none.trans_le hl.1
  · intro p hp
    have supplied := h (t := t) hw p
    rw [hu] at supplied
    exact (supplied hp).elim (hl.2 p) id

theorem aside {x : Fallible EvalError (Trace Question) α} (hx : Trace.ChargesNone x)
    (h : Trace.LeavesAlone (fun t => Need.supplied t.needs) x) :
    (simulation config src).memory.Follows P (Eval.onTrace x) (Eval.onTrace x) same :=
  registered hx fun {_ t} _ p hp => by
    rw [show Need.supplied (x t).2.needs = _ from h t] at hp
    exact Or.inl hp

theorem addStorage (a : Address) (k : Word) : (simulation config src).memory.Follows P
    (Eval.onTrace (Trace.addStorage a k)) (Eval.onTrace (Trace.addStorage a k)) same :=
  aside (.addStorage a k) (Trace.aside_supplied.addStorage a k)

theorem tracks_silent {t u : Trace Question} {w : Ledger} (h : Trace.Silent t u)
    (hl : u.allocLeft ≤ t.allocLeft) (ht : tracks src.answers t w) : tracks src.answers u w :=
  ⟨hl.trans ht.1, h.needs ▸ ht.2⟩

theorem alloc (n : Nat) : (simulation config src).memory.Follows P (Eval.onTrace (Trace.alloc n))
    (Eval.onTrace (Trace.alloc n)) fun _ _ => Fact.of (n ≤ maxSize) := by
  refine (onTrace (K := fun _ => n ≤ maxSize) fun {w t a u} _ hl h => ?_).weaken le_rfl
    fun _ _ => inf_le_right
  obtain ⟨hn, hu⟩ := Trace.alloc_ok h
  have silent := Trace.silent_alloc n t
  rw [h] at silent
  exact ⟨tracks_silent silent (hu ▸ Nat.sub_le _ _) hl, hn.trans hl.1⟩

theorem allocWords (n : Nat) : (simulation config src).memory.Follows P
    (Eval.onTrace (Trace.allocWords n)) (Eval.onTrace (Trace.allocWords n))
    fun size size' => Fact.of (size = size') ⊓ Fact.of (size ≤ maxSize) := by
  refine onTrace fun {w t size u} _ hl h => ?_
  obtain ⟨_, hsize, ha⟩ := Trace.allocWords_ok h
  have silent := Trace.silent_allocWords n t
  rw [h] at silent
  exact ⟨tracks_silent silent ((Trace.alloc_ok ha).2 ▸ Nat.sub_le _ _) hl, hsize⟩

theorem made {k k' : StateM (Session σ) (Value Question)} {φ : Bytes → Prop}
    (hk : ∀ {w}, P w → k = k')
    (h : ∀ {w s}, P w → s.Honours True w → Promises src.answers True w φ (k s)) :
    (simulation config src).memory.Follows P (create k) (create k')
      (itself (described src φ)) := by
  refine onSession (x := .ofState k) (K := described src φ) (fun hw => hk hw ▸ rfl)
    fun {w s v} hw hs hv => ?_
  cases hv
  exact h hw hs

theorem resolved (v v' : Value Question) :
    (simulation config src).memory.Follows (itself (hinted src.answers) v v')
      (resolve (simulation config src).env₁ v) (resolve (simulation config src).env₂ v') same := by
  refine (onSession (K := fun _ => ⊤) (fun hw => hw.1 ▸ rfl) fun hw hs _ => ?_).weaken le_rfl
    fun _ _ => inf_le_left
  exact ((hinted_resolve hw.2) _ hs).2.learns trivial

theorem called (c : Call) : (simulation config src).memory.Follows P
    (call (simulation config src).env₁ c) (call (simulation config src).env₂ c) same := by
  refine (onSession (K := fun _ => ⊤) (fun _ => rfl) ?_).weaken le_rfl fun _ _ => inf_le_left
  exact fun _ hs _ => Session.Honours.learns ⟨hs.fresh, hs.settled, hs.found⟩ trivial

theorem fair : (simulation config src).Fair where
  limits := Or.inl rfl
  short bytes _ _ := ⟨rfl, hinted_known bytes⟩
  origin _ := trivial
  failed e _ := ⟨e, rfl, rfl⟩
  resolve := resolved
  slotCall a k := (addStorage a k).bind_same fun _ => called _
  select a := (aside (.addTarget a false) (Trace.aside_supplied.addTarget a false)).weaken le_rfl
    fun _ _ => le_top

theorem pays : (simulation config src).Pays (sizes config src) where
  toFair := fair
  alloc := alloc
  allocWords := allocWords

theorem askedWord {q : Question} (hq : q.size? = some 32) :
    (simulation config src).memory.Follows P (create (Value.ofQuestion (some 32) q))
      (create (Value.ofQuestion (some 32) q)) ((sizes config src).sized 32) := by
  refine made (fun _ => rfl) fun _ hs => hs.ofQuestion ?_ fun s => ?_
  · rintro _ b ⟨⟩ hb
    exact hb
  · rcases h : (src.answers q s).1 with e | b
    · exact trivial
    · exact Source.length_answers hq h

theorem mapped {K : Value Question → Fact Ledger} {n : Nat} (f : Bytes → Bytes)
    (v v' : Value Question) (h : ∀ {w}, K v w →
      ∃ φ, Means src.answers True w v φ ∧ ∀ b, φ b → (f b).length = n) :
    (simulation config src).memory.Follows (itself K v v')
      (create (v.map (some n) fun bytes => .ok (f bytes)))
      (create (v'.map (some n) fun bytes => .ok (f bytes)))
      (itself (described src fun b => b.length = n)) := by
  refine made (fun hw => hw.1 ▸ rfl) fun {w s} hw hs => ?_
  obtain ⟨φ, hm, hf⟩ := h hw.2
  exact hs.mapLength hm hf

theorem joined (size : Nat) (vs ws : List (Value Question)) :
    (simulation config src).memory.Follows ((sizes config src).words size vs ws)
      (create (Value.ofParts (some size) vs)) (create (Value.ofParts (some size) ws))
      (itself (described src fun b => b.length = size)) := by
  refine made (fun hw => ?_) fun {w s} hw hs => ?_
  · obtain ⟨rfl, _⟩ := of_itself hw.2
    rfl
  · exact hs.ofWords hw.1 (of_itself hw.2).2

theorem makes : (simulation config src).Makes (sizes config src) create create where
  toFair := fair
  left _ := .onSession _
  right _ := .onSession _
  value h hn := ⟨h.1, hinted_of_length h.2 hn⟩
  few _ hn := le_of_lt (hn.trans (by decide))
  word v _ := ⟨rfl, .known (Word.length_toBytes v)⟩
  slotValue a k := (addStorage a k).bind_same fun _ => askedWord rfl
  isContract a := (aside (.requireTarget a) (Trace.aside_supplied.requireTarget a)).bind_same
    fun _ => askedWord rfl
  hashed hash := by
    let q := Question.hashed hash config.maxSuppliedBytes.toNat
    have asked : (simulation config src).memory.Follows ⊤ (create (Value.ofQuestion none q))
        (create (Value.ofQuestion none q)) (itself (described src fun _ => True)) := by
      refine made (fun _ => rfl) fun _ hs => hs.ofQuestion nofun fun s => ?_
      rcases (src.answers q s).1 with e | b <;> exact trivial
    have undeclared (v : Value Question) :
        described src (fun _ => True) v ≤ hinted src.answers v := by
      refine fun w hw => ⟨_, hw.means, fun n _ hn _ => ?_⟩
      -- a length that all byte strings have is declared by no value
      have all (b : Bytes) : b.length = n := hw.hint hn trivial
      exact absurd ((all []).trans (all [0]).symm) (by decide)
    refine Follows.bind_eq (K := described src fun _ => True) asked fun v => ?_
    refine (registered (.addHashed hash v) fun {w t} hw p hp => ?_).bind_same fun _ =>
      .pure fun w hw => ⟨rfl, undeclared v w hw.2⟩
    rcases Trace.supplied_addHashed hash v t with same | added
    · exact Or.inl (same ▸ hp)
    · rw [added, List.mem_append, List.mem_singleton] at hp
      rcases hp with hp | rfl
      · exact Or.inl hp
      · exact Or.inr (undeclared v w hw.2)
  joined := joined
  cut f v v' hf := mapped f v v' fun h => ⟨_, h.means, hf⟩
  mapped f v v' hf := mapped f v v' fun ⟨φ, hm, _⟩ => ⟨φ, hm, fun b _ => hf b⟩

section Looks

theorem looked {f : Session σ → α} {K : α → Fact Ledger}
    (h : ∀ {w} {s : Session σ}, P w → s.Honours True w → s.Learns True w (K (f s))) :
    (simulation config src).whole.Follows P (look f) (look f)
      fun a b => Fact.of (a = b) ⊓ K a := by
  refine Simulation.lift (onSession (x := fun s => (.ok (f s), s)) (fun _ => rfl)
    fun {w s a} hw hs ha => ?_) (fun _ => ⟨rfl, rfl⟩) fun _ => ⟨rfl, rfl⟩
  cases ha
  exact h hw hs

/-- A length that is there without work is the one that the value keeps. -/
def seen (src : Source σ) (v : Value Question) : Option Nat → Fact Ledger
  | some n => spans src.answers n v
  | none => ⊤

theorem lookLength {v : Value Question} (hv : P ≤ hinted src.answers v) :
    (simulation config src).whole.Follows P (look fun s => v.length? s)
      (look fun s => v.length? s) fun a b => Fact.of (a = b) ⊓ seen src v a := by
  refine looked fun {w s} hw hs => ?_
  rcases hn : v.length? s with _ | n
  · exact hs.learns trivial
  · exact hinted_spans (hv w hw) hs hn

theorem length : (simulation config src).whole.Follows P (lengthBy create) (lengthBy create)
    any := by
  have words (n : Nat) : (lengthWord n).length = 32 := Word.length_toBytes _
  rw [lengthBy_eq]
  refine Follows.bind_eq (K := hinted src.answers) fair.pop fun v => ?_
  refine (lookLength inf_le_right).bind_eq fun n => ?_
  rcases n with _ | n
  case some => exact fair.pushShort (by rw [words]; decide)
  have made : (simulation config src).whole.Follows (itself (hinted src.answers) v v)
      (create (v.map (some 32) fun b => .ok (lengthWord b.length)))
      (create (v.map (some 32) fun b => .ok (lengthWord b.length))) ((sizes config src).sized 32) :=
    Simulation.lift (makes.mapped (fun b => lengthWord b.length) v v fun b => words b.length)
      (.onSession _) (.onSession _)
  refine Follows.bind (made.before fun _ hw => ⟨rfl, ?_⟩) fun u u' => ?_
  · exact hw.1.2
  · exact makes.pushFew inf_le_right (by decide)

theorem makePair {a b : Value Question} {m n : Nat} (ha : P ≤ spans src.answers m a)
    (hb : P ≤ spans src.answers n b) :
    (simulation config src).whole.Follows P
      (create (Value.ofParts (some (clampSize (m + n))) [a, b]))
      (create (Value.ofParts (some (clampSize (m + n))) [a, b]))
      (simulation config src).value := by
  let v := Value.ofParts (Q := Question) (σ := σ) (some (clampSize (m + n))) [a, b]
  refine Simulation.lift (onSession (x := .ofState v) (K := hinted src.answers) (fun _ => rfl)
    fun {w s u} hw hs hu => ?_) (.onSession _) (.onSession _)
  obtain ⟨φ, hma, hm⟩ := ha w hw
  obtain ⟨ψ, hmb, hn⟩ := hb w hw
  have row : ∀ bs, List.Forall₂ (fun φ b => φ b) [φ, ψ] bs →
      clampSize (m + n) = clampSize bs.flatten.length := by
    rintro _ (_ | ⟨hx, _ | ⟨hy, _ | _⟩⟩)
    simpa using clampSize_add (hm _ hx).clamped (hn _ hy).clamped
  have made : Meant src.answers True w (fun b => clampSize (m + n) = clampSize b.length) (v s) :=
    hs.joined (.cons hma (.cons hmb .nil)) row
  obtain ⟨w', hle, hc, hs', hv⟩ := made
  cases hu
  exact ⟨w', hle, hc, hs', _, hv, fun _ b hh hb => Option.some.inj hh ▸ hb⟩

theorem resolveItself {v : Value Question} (hv : P ≤ hinted src.answers v) :
    (simulation config src).whole.Follows P (resolve (simulation config src).env₁ v)
      (resolve (simulation config src).env₂ v) same :=
  (fair.resolved v v).before fun w hw => ⟨rfl, hv w hw⟩

theorem pushKnown (bytes : Bytes) : (simulation config src).whole.Follows P
    (push (.known bytes)) (push (.known bytes)) any :=
  fair.push fun _ _ => ⟨rfl, hinted_known bytes⟩

theorem concat : (simulation config src).whole.Follows P
    (concatBy (simulation config src).env₁ create)
    (concatBy (simulation config src).env₂ create) any := by
  rw [concatBy_eq, concatBy_eq]
  refine Follows.bind_eq (K := hinted src.answers) fair.pop fun b => ?_
  refine Follows.bind_eq (K := hinted src.answers) fair.pop fun a => ?_
  refine Follows.bind_eq (lookLength inf_le_right) fun m => ?_
  refine Follows.bind_eq (lookLength (v := b) fun w hw => hw.1.1.2) fun n => ?_
  refine Follows.bind_eq (looked (K := fun _ => ⊤) fun _ hs => hs.learns trivial) fun bytes => ?_
  have unseen : (simulation config src).whole.Follows
      (P ⊓ hinted src.answers b ⊓ hinted src.answers a)
      (joinSeenBy (simulation config src).env₁ create a b none none bytes)
      (joinSeenBy (simulation config src).env₂ create a b none none bytes) any := by
    refine (resolveItself inf_le_right).bind_same fun x => ?_
    refine (resolveItself (inf_le_left.trans inf_le_right)).bind_same fun y => ?_
    exact (pays.charge _).bind fun _ _ => pushKnown _
  rcases m with _ | m <;> rcases n with _ | n
  case some.some =>
    refine (pays.charge _).bind fun _ _ => ?_
    rcases bytes with ⟨_ | x, _ | y⟩
    case some.some => exact pushKnown _
    all_goals
      refine (makePair (fun w hw => ?_) fun w hw => ?_).bind fun v v' => fair.push inf_le_right
      · exact hw.1.1.1.2
      · exact hw.1.1.2
  all_goals exact unseen.before fun w hw => hw.1.1.1

theorem execute (op : Op) : (simulation config src).whole.Follows P
    (Eval.execute (simulation config src).env₁ op)
    (Eval.execute (simulation config src).env₂ op) any := by
  rw [← executeBy_create, ← executeBy_create]
  exact makes.executeBy pays concat length op

end Looks

theorem diagonal : (simulation config src).Diagonal ⟨src, config⟩ where
  toFair := fair
  env_left := rfl
  env_right := rfl
  failed_of_ended := fun ⟨e, h, _⟩ => ⟨e, h⟩
  execute op := execute op

end Hinting

namespace Session

theorem Fresh.honours {s : Session σ} (h : s.Fresh) : ∃ w, s.Honours True w := by
  let promised (id : Nat) : Option (Bytes → Prop) :=
    if id < s.next then some fun _ => True else none
  refine ⟨⟨promised, ∅, 0⟩, fun id hid => if_neg (Nat.not_lt.mpr hid), fun {id o} ho => ?_, nofun⟩
  have hid : id < s.next := by
    by_contra hn
    rw [h id (Nat.le_of_not_lt hn)] at ho
    cases ho
  refine ⟨_, if_pos hid, ?_⟩
  cases o <;> exact trivial

theorem Honours.is_fresh {mayFail : Prop} {s : Session σ} (h : s.Honours mayFail w) : s.Fresh := by
  intro id hid
  rcases ho : s.outcome? id with _ | o
  · rfl
  · obtain ⟨φ, hp, -⟩ := h.settled ho
    rw [h.fresh id hid] at hp
    cases hp

end Session

/-- The evaluation of a program is related to itself at every step. -/
theorem Env.visits_tracked {env : Env σ} {program : Program} {session : Session σ}
    {x : Execution σ} (hs : session.Fresh) (h : env.Visits program session (.running x)) :
    ∃ w, x.Related (Hinting.simulation env.config env.source) w := by
  obtain ⟨u, hu⟩ := hs.honours
  have hl : env.config.maxAllocBytes.toNat ≤ maxSize :=
    Nat.le_of_lt_succ env.config.maxAllocBytes.toNat_lt
  exact visits_related Hinting.diagonal h ⟨rfl, hu, hl, fun _ h => nomatch h⟩

/-- What holds at every step of an evaluation: no value has a number that is still free, and the
length that a value declares is the length of its bytes as far as a size can count. -/
theorem Env.visits_hinted {env : Env σ} {program : Program} {session : Session σ} {x : Execution σ}
    (hs : session.Fresh) (h : env.Visits program session (.running x)) :
    ∃ w, x.state.session.Honours True w ∧
      ∀ v ∈ x.state.frame.stack, hinted env.source.answers v w := by
  obtain ⟨w, hw⟩ := visits_tracked hs h
  exact ⟨w, hw.state.memory.2.1, (Watching.of_itself hw.state.frame.stack).2⟩

end ChainRead
