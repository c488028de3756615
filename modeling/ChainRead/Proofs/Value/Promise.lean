import Mathlib.Algebra.Group.Nat.Defs
import Mathlib.Data.List.Forall2
import Mathlib.Data.Set.Basic
import Mathlib.Logic.Function.Basic
import ChainRead.Proofs.Evaluation.Coupling
import ChainRead.Proofs.Value.Resolve

/-! # Promises about pending values

A ledger says what is known of the values that an evaluation made: what the bytes of each pending
value are like, which bytes some of them have, and how many bytes were charged for them so far. A
session honours a ledger if the outcomes that are settled are as promised. Resolving values keeps
that so.
-/

namespace ChainRead

structure Ledger where
  /-- What holds of the bytes of the pending value with a number. -/
  promised : Nat → Option (Bytes → Prop)
  /-- Outcomes that pending values turned out to have. -/
  found : Set (Nat × Outcome)
  charged : Nat

namespace Ledger

instance : Preorder Ledger where
  le w v := (∀ id φ, w.promised id = some φ → v.promised id = some φ) ∧ w.found ⊆ v.found ∧
    w.charged ≤ v.charged
  le_refl w := ⟨fun _ _ h => h, subset_rfl, le_rfl⟩
  le_trans u v w h h' :=
    ⟨fun id φ hp => h'.1 id φ (h.1 id φ hp), h.2.1.trans h'.2.1, h.2.2.trans h'.2.2⟩

def new : Ledger := ⟨fun _ => none, ∅, 0⟩

variable (w : Ledger)

def promise (id : Nat) (φ : Bytes → Prop) : Ledger :=
  { w with promised := Function.update w.promised id (some φ) }

def learn {σ : Type} (s : Session σ) : Ledger :=
  { w with found := { p | s.outcome? p.1 = some p.2 } }

def charge (n : Nat) : Ledger := { w with charged := w.charged + n }

variable {w}

theorem le_promise {id : Nat} (h : w.promised id = none) (φ : Bytes → Prop) :
    w ≤ w.promise id φ := by
  refine ⟨fun i ψ hi => ?_, subset_rfl, le_rfl⟩
  have hne : i ≠ id := by
    rintro rfl
    rw [h] at hi
    cases hi
  exact (Function.update_of_ne hne _ _).trans hi

theorem le_charge (n : Nat) : w ≤ w.charge n :=
  ⟨fun _ _ h => h, subset_rfl, Nat.le_add_right _ _⟩

theorem promised_promise (w : Ledger) (id : Nat) (φ : Bytes → Prop) :
    (w.promise id φ).promised id = some φ := Function.update_self ..

/-- A length that a byte string can have from the start, or that was charged. -/
def bounded (n : Nat) : Fact Ledger where
  toFun w := n < 2 ^ 63 ∨ n ≤ w.charged
  monotone' _ _ h := Or.imp_right fun hn => hn.trans h.2.2

/-- Two lengths do not exceed any size together if their sum can still be charged. -/
theorem bounded_add {m n left : Nat} (hm : bounded m w) (hn : bounded n w)
    (hl : left + w.charged ≤ maxSize) (h : clampSize (m + n) ≤ left) : m + n ≤ maxSize := by
  have hm : m < 2 ^ 63 ∨ m ≤ w.charged := hm
  have hn : n < 2 ^ 63 ∨ n ≤ w.charged := hn
  -- together they would need more bytes than were left if one of them was charged before
  unfold clampSize maxSize at *
  omega

end Ledger

/-- What something says of a ledger does not change with what becomes known of values. -/
def Steady {τ : Type} (R : τ → Ledger → Prop) : Prop :=
  ∀ ⦃a w w'⦄, R a w → w ≤ w' → w'.charged = w.charged → R a w'

def Fits {α : Type} (mayFail : Prop) (φ : α → Prop) : Except EvalError α → Prop
  | .ok a => φ a
  | .error _ => mayFail

variable {Q σ α β : Type} {answers : Answers Q σ} {mayFail : Prop} {w : Ledger}

open Ledger

theorem Fits.imp {φ ψ : α → Prop} {r : Except EvalError α} (h : Fits mayFail φ r)
    (hφ : ∀ a, φ a → ψ a) : Fits mayFail ψ r := by
  cases r with
  | ok a => exact hφ a h
  | error => exact h

theorem eq_ok_of_fits {a : α} {r : Except EvalError α} (h : Fits False (· = a) r) : r = .ok a := by
  cases r with
  | ok b => exact congrArg Except.ok h
  | error => cases h

/-- The settled outcomes of a session are as a ledger says. -/
structure Session.Honours (s : Session σ) (mayFail : Prop) (w : Ledger) : Prop where
  fresh : ∀ id, s.next ≤ id → w.promised id = none
  settled : ∀ {id o}, s.outcome? id = some o → ∃ φ, w.promised id = some φ ∧ Fits mayFail φ o
  found : ∀ {id o}, (id, o) ∈ w.found → s.outcome? id = some o

namespace Session.Honours

variable {s : Session σ}

theorem new (source : σ) : Session.Honours { source } mayFail .new :=
  ⟨fun _ _ => rfl, fun h => (nomatch h), fun h => (nomatch h)⟩

theorem charge (h : s.Honours mayFail w) (n : Nat) : s.Honours mayFail (w.charge n) :=
  ⟨h.fresh, h.settled, h.found⟩

theorem learn (h : s.Honours mayFail w) : s.Honours mayFail (w.learn s) :=
  ⟨h.fresh, h.settled, fun h => h⟩

theorem le_learn (h : s.Honours mayFail w) : w ≤ w.learn s :=
  ⟨fun _ _ h => h, fun _ => h.found, le_rfl⟩

theorem le_promise (h : s.Honours mayFail w) (φ : Bytes → Prop) : w ≤ w.promise s.next φ :=
  Ledger.le_promise (h.fresh _ le_rfl) φ

theorem promise (h : s.Honours mayFail w) (φ : Bytes → Prop) :
    ({ s with next := s.next + 1 } : Session σ).Honours mayFail (w.promise s.next φ) where
  fresh id hid := by
    have hid : s.next + 1 ≤ id := hid
    exact (Function.update_of_ne (by omega) _ _).trans (h.fresh id (by omega))
  settled ho := by
    obtain ⟨ψ, hp, hf⟩ := h.settled ho
    exact ⟨ψ, (h.le_promise φ).1 _ _ hp, hf⟩
  found := h.found

theorem skip (h : s.Honours mayFail w) (ran : List Nat) :
    ({ s with next := s.next + 1, ran } : Session σ).Honours mayFail w :=
  ⟨fun id hid => h.fresh id (Nat.le_of_succ_le hid), h.settled, h.found⟩

end Session.Honours

def Session.Learns (s : Session σ) (mayFail : Prop) (w : Ledger) (K : Ledger → Prop) : Prop :=
  ∃ w', w ≤ w' ∧ w'.charged = w.charged ∧ s.Honours mayFail w' ∧ K w'

namespace Session.Honours

variable {s : Session σ} {K : Ledger → Prop}

theorem learns (hs : s.Honours mayFail w) (h : K w) : s.Learns mayFail w K :=
  ⟨w, le_rfl, rfl, hs, h⟩

theorem learns_found (hs : s.Honours mayFail w) {id : Nat} {bytes : Bytes}
    (hb : s.outcome? id = some (.ok bytes))
    (h : ∀ w', w ≤ w' → (id, .ok bytes) ∈ w'.found → K w') : s.Learns mayFail w K :=
  ⟨w.learn s, hs.le_learn, rfl, hs.learn, h _ hs.le_learn hb⟩

end Session.Honours

/-- A computation on sessions keeps what they honour, and its result is as promised. -/
def Gives (mayFail : Prop) (w : Ledger) (φ : α → Prop) (x : Fallible EvalError (Session σ) α) :
    Prop :=
  ∀ s, s.Honours mayFail w → Fits mayFail φ (x s).1 ∧ (x s).2.Honours mayFail w

namespace Gives

open Session

theorem ofExcept {φ : α → Prop} {r : Except EvalError α} (h : Fits mayFail φ r) :
    Gives (σ := σ) mayFail w φ (.ofExcept r) := fun _ hs => ⟨h, hs⟩

theorem pure {φ : α → Prop} {a : α} (h : φ a) : Gives (σ := σ) mayFail w φ (Pure.pure a) :=
  fun _ hs => ⟨h, hs⟩

theorem mark (id : Nat) : Gives (σ := σ) mayFail w (fun _ => True) (mark id) :=
  fun _ hs => ⟨trivial, hs.fresh, hs.settled, hs.found⟩

theorem ask {φ : Bytes → Prop} {q : Q} (h : ∀ s, Fits mayFail φ (answers q s).1) :
    Gives mayFail w φ (ask answers q) :=
  fun s hs => ⟨h s.source, hs.fresh, hs.settled, hs.found⟩

theorem bind {x : Fallible EvalError (Session σ) α} {f : α → Fallible EvalError (Session σ) β}
    {φ : α → Prop} {ψ : β → Prop} (hx : Gives mayFail w φ x)
    (hf : ∀ a, φ a → Gives mayFail w ψ (f a)) : Gives mayFail w ψ (x >>= f) := by
  intro s hs
  obtain ⟨hr, ht⟩ := hx s hs
  rw [Fallible.bind_apply]
  rcases hp : x s with ⟨e | a, t⟩ <;> rw [hp] at hr ht
  · exact ⟨hr, ht⟩
  · exact hf a hr t ht

/-- An outcome that is there was promised; otherwise the value is computed now. -/
theorem once {id : Nat} {φ : Bytes → Prop} (hp : w.promised id = some φ)
    {x : Fallible EvalError (Session σ) Bytes} (hx : Gives mayFail w φ x) :
    Gives mayFail w φ (once id x) := by
  intro s hs
  rcases ho : s.outcome? id with _ | o
  · obtain ⟨hr, ht⟩ := hx s hs
    rw [once_of_not_settled ho]
    refine ⟨hr, ht.fresh, fun {i o} hi => ?_, fun {i bytes} hi => ?_⟩
    · rw [outcome?_settle] at hi
      split at hi
      · cases hi
        exact ⟨φ, ‹i = id› ▸ hp, hr⟩
      · exact ht.settled hi
    · have hne : i ≠ id := by
        rintro rfl
        rw [hs.found hi] at ho
        cases ho
      rw [outcome?_settle, if_neg hne]
      exact ht.found hi
  · obtain ⟨ψ, hψ, hf⟩ := hs.settled ho
    rw [once_of_settled ho]
    cases hp.symm.trans hψ
    exact ⟨hf, hs⟩

end Gives

/-- What a value promises of its bytes by the way it was made, or because it was looked at. -/
inductive Means (answers : Answers Q σ) (mayFail : Prop) (w : Ledger) :
    Value Q → (Bytes → Prop) → Prop
  | known {bytes : Bytes} {φ : Bytes → Prop} (h : φ bytes) :
    Means answers mayFail w (.known bytes) φ
  | found {v : Value Q} {id : Nat} {bytes : Bytes} {φ : Bytes → Prop} (hv : v.id? = some id)
    (hf : (id, .ok bytes) ∈ w.found) (h : φ bytes) : Means answers mayFail w v φ
  | asked {id : Nat} {hint : Option Nat} {q : Q} {φ : Bytes → Prop} (hp : w.promised id = some φ)
    (h : ∀ s, Fits mayFail φ (answers q s).1) : Means answers mayFail w (.asked id hint q) φ
  | joined {id : Nat} {hint : Option Nat} {parts : List (Value Q)} {φ : Bytes → Prop}
    {φs : List (Bytes → Prop)} (hp : w.promised id = some φ)
    (hs : List.Forall₂ (Means answers mayFail w) parts φs)
    (h : ∀ bs, List.Forall₂ (fun φ b => φ b) φs bs → φ bs.flatten) :
    Means answers mayFail w (.joined id hint parts) φ
  | mapped {id : Nat} {hint : Option Nat} {base : Value Q} {f : Bytes → Outcome}
    {φ ψ : Bytes → Prop} (hp : w.promised id = some φ) (hb : Means answers mayFail w base ψ)
    (h : ∀ b, ψ b → Fits mayFail φ (f b)) : Means answers mayFail w (.mapped id hint base f) φ

namespace Means

variable {s : Session σ} {v : Value Q} {φ : Bytes → Prop}

mutual

theorem mono {w' : Ledger} (hw : w ≤ w') (v : Value Q) {φ : Bytes → Prop}
    (h : Means answers mayFail w v φ) : Means answers mayFail w' v φ := by
  cases h with
  | known h => exact .known h
  | found hv hf h => exact .found hv (hw.2.1 hf) h
  | asked hp h => exact .asked (hw.1 _ _ hp) h
  | @joined id hint parts φ φs hp hs h => exact .joined (hw.1 _ _ hp) (monoAll hw parts hs) h
  | @mapped id hint base f φ ψ hp hb h => exact .mapped (hw.1 _ _ hp) (mono hw base hb) h

theorem monoAll {w' : Ledger} (hw : w ≤ w') (vs : List (Value Q)) {φs : List (Bytes → Prop)}
    (h : List.Forall₂ (Means answers mayFail w) vs φs) :
    List.Forall₂ (Means answers mayFail w') vs φs := by
  cases h with
  | nil => exact .nil
  | @cons v φ vs φs hv hvs => exact .cons (mono hw v hv) (monoAll hw vs hvs)

end

mutual

/-- What a value resolves to is as promised. -/
theorem resolve (v : Value Q) {φ : Bytes → Prop} (h : Means answers mayFail w v φ) :
    Gives mayFail w φ (v.resolve answers) := by
  cases h with
  | known h =>
    rw [Value.resolve]
    exact .pure h
  | found hv hf h =>
    intro s hs
    rw [Value.resolve_of_settled hv (hs.found hf)]
    exact ⟨h, hs⟩
  | asked hp h =>
    rw [Value.resolve]
    exact .once hp (.bind (.mark _) fun _ _ => .ask h)
  | @joined id hint parts φ φs hp hs h =>
    rw [Value.resolve]
    exact .once hp (.bind (resolveAll parts hs) fun bs hbs => .pure (h bs hbs))
  | @mapped id hint base f φ ψ hp hb h =>
    rw [Value.resolve]
    refine .once hp (.bind (resolve base hb) fun b hb => ?_)
    exact .bind (.mark id) fun _ _ => .ofExcept (h b hb)

theorem resolveAll (vs : List (Value Q)) {φs : List (Bytes → Prop)}
    (h : List.Forall₂ (Means answers mayFail w) vs φs) :
    Gives mayFail w (fun bs => List.Forall₂ (fun φ b => φ b) φs bs)
      (Value.resolveAll answers vs) := by
  cases h with
  | nil => exact .pure .nil
  | @cons v φ vs φs hv hvs =>
    rw [Value.resolveAll]
    refine .bind (resolve v hv) fun b hb => ?_
    exact .bind (resolveAll vs hvs) fun bs hbs => .pure (.cons hb hbs)

end

theorem peek (h : Means answers mayFail w v φ) (hs : s.Honours mayFail w) {bytes : Bytes}
    (hb : v.peek s = some bytes) : φ bytes := by
  have hr := (h.resolve v s hs).1
  rwa [Value.resolve_of_peek hb] at hr

end Means

/-- A value promises something of its bytes, and the length that it declares agrees with that. -/
structure Describes (answers : Answers Q σ) (mayFail : Prop) (w : Ledger) (v : Value Q)
    (φ : Bytes → Prop) : Prop where
  means : Means answers mayFail w v φ
  hint : ∀ {n b}, v.hint? = some n → φ b → b.length = n

namespace Describes

variable {s : Session σ} {v : Value Q} {φ : Bytes → Prop}

theorem known {bytes : Bytes} (h : φ bytes) : Describes answers mayFail w (.known bytes) φ :=
  ⟨.known h, fun h => (nomatch h)⟩

theorem mono {w' : Ledger} (h : Describes answers mayFail w v φ) (hw : w ≤ w') :
    Describes answers mayFail w' v φ := ⟨h.means.mono hw v, h.hint⟩

theorem length? (h : Describes answers mayFail w v φ) {n : Nat} (hn : v.length? s = some n) :
    (∀ b, φ b → b.length = n) ∨ ∃ b, v.peek s = some b ∧ b.length = n := by
  unfold Value.length? at hn
  rcases hh : v.hint? with _ | m <;> rw [hh] at hn
  · right
    simpa using hn
  · left
    cases hn
    exact fun b hb => h.hint hh hb

end Describes

/-- A value promises something, and the lengths that it may have are bounded. It may fail. -/
def held (answers : Answers Q σ) (v : Value Q) : Fact Ledger where
  toFun w := ∃ φ, Describes answers True w v φ ∧ (∃ b, φ b) ∧ ∀ b, φ b → bounded b.length w
  monotone' := by
    rintro w w' hw ⟨φ, hd, hi, hb⟩
    exact ⟨φ, hd.mono hw, hi, fun b h => (bounded b.length).monotone hw (hb b h)⟩

section Held

variable {s : Session σ} {v : Value Q}

theorem held_known {bytes : Bytes} (h : bounded bytes.length w) :
    held answers (.known bytes) w :=
  ⟨(· = bytes), .known rfl, ⟨bytes, rfl⟩, fun _ hb => hb ▸ h⟩

theorem held_of_length {n : Nat} (h : Describes answers True w v fun b => b.length = n)
    (hn : bounded n w) : held answers v w :=
  ⟨_, h, ⟨List.replicate n 0, List.length_replicate⟩, fun _ hb => hb ▸ hn⟩

theorem held_resolve (h : held answers v w) :
    Gives True w (fun b => bounded b.length w) (v.resolve answers) := by
  obtain ⟨φ, hd, _, hb⟩ := h
  intro s hs
  obtain ⟨hr, ht⟩ := hd.means.resolve v s hs
  exact ⟨hr.imp hb, ht⟩

theorem honours_resolveEach (vs : List (Value Q)) (hv : ∀ v ∈ vs, held answers v w)
    (hs : s.Honours True w) : (Value.resolveEach answers vs s).2.Honours True w := by
  induction vs generalizing s with
  | nil => exact hs
  | cons v vs ih =>
    rw [List.forall_mem_cons] at hv
    exact ih hv.2 (held_resolve hv.1 s hs).2

theorem held_length? (h : held answers v w) (hs : s.Honours True w) {n : Nat}
    (hn : v.length? s = some n) : bounded n w := by
  obtain ⟨φ, hd, ⟨b, hb⟩, hl⟩ := h
  rcases hd.length? hn with h | ⟨c, hc, rfl⟩
  · exact h b hb ▸ hl b hb
  · exact hl c (hd.means.peek hs hc)

theorem held_peek (h : held answers v w) (hs : s.Honours True w) {n : Nat} {b : Bytes}
    (hn : v.length? s = some n) (hb : v.peek s = some b) : b.length = n := by
  obtain ⟨φ, hd, _, _⟩ := h
  rcases hd.length? hn with h | ⟨c, hc, rfl⟩
  · exact h b (hd.means.peek hs hb)
  · rw [hb] at hc
    cases hc
    rfl

/-- The bytes that a value promises have one length, which is bounded. -/
def measured (answers : Answers Q σ) (n : Nat) (v : Value Q) : Fact Ledger where
  toFun w := bounded n w ∧ ∃ φ, Means answers True w v φ ∧ ∀ b, φ b → b.length = n
  monotone' := by
    rintro w w' hw ⟨hn, φ, hv, hl⟩
    exact ⟨(bounded n).monotone hw hn, φ, hv.mono hw, hl⟩

theorem held_measured (h : held answers v w) (hs : s.Honours True w) {n : Nat}
    (hn : v.length? s = some n) : s.Learns True w (measured answers n v) := by
  have hb := held_length? h hs hn
  obtain ⟨φ, hd, _, _⟩ := h
  rcases hd.length? hn with hl | ⟨c, hc, rfl⟩
  · exact hs.learns ⟨hb, φ, hd.means, hl⟩
  · rcases Value.peek_eq_some hc with rfl | ⟨id, hv, ho⟩
    · exact hs.learns ⟨hb, (· = c), .known rfl, fun _ h => h ▸ rfl⟩
    · refine hs.learns_found ho fun w' hw hf => ⟨(bounded _).monotone hw hb, (· = c), ?_⟩
      exact ⟨.found hv hf rfl, fun _ h => h ▸ rfl⟩

theorem measured_peek {n : Nat} {b : Bytes} (h : measured answers n v w) (hs : s.Honours True w)
    (hb : v.peek s = some b) : b.length = n := by
  obtain ⟨_, φ, hv, hl⟩ := h
  exact hl b (hv.peek hs hb)

end Held

theorem length_flatten {n : Nat} {as : List α} {bs : List Bytes}
    (h : List.Forall₂ (fun _ (b : Bytes) => b.length = n) as bs) :
    bs.flatten.length = as.length * n := by
  induction h with
  | nil => simp
  | cons hb _ ih =>
    rw [List.flatten_cons, List.length_append, hb, ih, List.length_cons, Nat.succ_mul, Nat.add_comm]

def Meant (answers : Answers Q σ) (mayFail : Prop) (w : Ledger) (φ : Bytes → Prop)
    (p : Value Q × Session σ) : Prop :=
  p.2.Learns mayFail w fun w' => Means answers mayFail w' p.1 φ

def Promises (answers : Answers Q σ) (mayFail : Prop) (w : Ledger) (φ : Bytes → Prop)
    (p : Value Q × Session σ) : Prop :=
  p.2.Learns mayFail w fun w' => Describes answers mayFail w' p.1 φ

theorem Meant.promises {φ : Bytes → Prop} {p : Value Q × Session σ}
    (h : Meant answers mayFail w φ p) (hn : ∀ {n b}, p.1.hint? = some n → φ b → b.length = n) :
    Promises answers mayFail w φ p := by
  obtain ⟨w', hw, hc, hs, hv⟩ := h
  exact ⟨w', hw, hc, hs, hv, hn⟩

namespace Session.Honours

variable {s : Session σ} (hs : s.Honours mayFail w) {φ : Bytes → Prop} {hint : Option Nat}
include hs

theorem asked {q : Q} (h : ∀ s, Fits mayFail φ (answers q s).1) :
    Meant answers mayFail w φ (Value.ofQuestion hint q s) :=
  ⟨_, hs.le_promise φ, rfl, hs.promise φ, .asked (w.promised_promise _ φ) h⟩

theorem joined {parts : List (Value Q)} {φs : List (Bytes → Prop)}
    (hp : List.Forall₂ (Means answers mayFail w) parts φs)
    (h : ∀ bs, List.Forall₂ (fun φ b => φ b) φs bs → φ bs.flatten) :
    Meant answers mayFail w φ (Value.ofParts hint parts s) := by
  refine ⟨_, hs.le_promise φ, rfl, hs.promise φ, .joined (w.promised_promise _ φ) ?_ h⟩
  exact Means.monoAll (hs.le_promise φ) parts hp

theorem mapped {v : Value Q} {ψ : Bytes → Prop} (hv : Means answers mayFail w v ψ)
    {f : Bytes → Bytes} (h : ∀ b, ψ b → φ (f b)) :
    Meant answers mayFail w φ (v.map hint (fun b => .ok (f b)) s) := by
  cases v with
  | known b => exact (hs.skip _).learns (.known (h b (hv.peek hs rfl)))
  | _ =>
    refine ⟨_, hs.le_promise φ, rfl, hs.promise φ, .mapped (w.promised_promise _ φ) ?_ h⟩
    exact hv.mono (hs.le_promise φ) _

variable (hn : ∀ {n b}, hint = some n → φ b → b.length = n)
include hn

theorem ofQuestion {q : Q} (h : ∀ s, Fits mayFail φ (answers q s).1) :
    Promises answers mayFail w φ (Value.ofQuestion hint q s) :=
  (hs.asked h).promises hn

theorem ofParts {parts : List (Value Q)} {φs : List (Bytes → Prop)}
    (hp : List.Forall₂ (Means answers mayFail w) parts φs)
    (h : ∀ bs, List.Forall₂ (fun φ b => φ b) φs bs → φ bs.flatten) :
    Promises answers mayFail w φ (Value.ofParts hint parts s) :=
  (hs.joined hp h).promises hn

theorem map {v : Value Q} {ψ : Bytes → Prop} (hv : Means answers mayFail w v ψ) {f : Bytes → Bytes}
    (h : ∀ b, ψ b → φ (f b)) :
    Promises answers mayFail w φ (v.map hint (fun b => .ok (f b)) s) := by
  refine (hs.mapped hv h).promises fun {n b} hh hb => ?_
  cases v with
  | known => cases hh
  | _ => exact hn hh hb

omit hn in
theorem mapLength {n : Nat} {v : Value Q} {ψ : Bytes → Prop} (hv : Means answers mayFail w v ψ)
    {f : Bytes → Bytes} (h : ∀ b, ψ b → (f b).length = n) :
    Promises answers mayFail w (fun b => b.length = n)
      (v.map (some n) (fun b => .ok (f b)) s) := by
  refine hs.map ?_ hv h
  rintro _ b ⟨⟩ hb
  exact hb

omit hn in
theorem ofWords {size : Nat} {vs : List (Value Q)} (hsize : size = vs.length * 32)
    (hv : ∀ v ∈ vs, Describes answers mayFail w v fun b => b.length = 32) :
    Promises answers mayFail w (fun b => b.length = size) (Value.ofParts (some size) vs s) := by
  have means : List.Forall₂ (Means answers mayFail w) vs (vs.map fun _ b => b.length = 32) := by
    rw [List.forall₂_map_right_iff, List.forall₂_same]
    exact fun v h => (hv v h).means
  refine hs.ofParts ?_ means fun bs hbs => ?_
  · rintro _ b ⟨⟩ hb
    exact hb
  · rw [List.forall₂_map_left_iff] at hbs
    rw [length_flatten hbs, hsize]

end Session.Honours

end ChainRead
