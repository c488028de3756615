import Mathlib.Logic.Function.Basic
import Mathlib.Order.Defs.PartialOrder
import ChainRead.Proofs.Value.Alike

/-! # What values will resolve to

If the outcomes of questions are fixed, then so are those of values. A forecast gives the outcomes
of the pending values made so far. As long as the settled outcomes of a session are as forecast, a
value resolves to what it denotes, whatever was resolved before.
-/

namespace ChainRead

variable {Q σ α β : Type} {answers : Answers Q σ} {g g' : Q → Outcome} {K : Q → Q → Prop}

namespace Value

mutual

/-- What a value resolves to if `g` gives the outcomes of questions. -/
def denote (g : Q → Outcome) : Value Q → Outcome
  | known bytes => .ok bytes
  | asked _ _ q => g q
  | joined _ _ parts => do
    let bytes ← denoteAll g parts
    return bytes.flatten
  | mapped _ _ base f => denote g base >>= f

def denoteAll (g : Q → Outcome) : List (Value Q) → Except EvalError (List Bytes)
  | [] => .ok []
  | v :: vs => do
    let bytes ← denote g v
    let rest ← denoteAll g vs
    return bytes :: rest

end

end Value

theorem bind_eq_ok {x y : Except EvalError α} {f k : α → Except EvalError β} {b : β}
    (hx : ∀ a, x = .ok a → y = .ok a) (hf : ∀ a, f a = .ok b → k a = .ok b)
    (h : x >>= f = .ok b) : y >>= k = .ok b := by
  rcases x with e | a
  · cases h
  · rw [hx a rfl]
    exact hf a h

namespace Value.Twin

mutual

theorem denote (hK : ∀ {q q' b}, K q q' → g q = .ok b → g' q' = .ok b) (v : Value Q)
    {v' : Value Q} (h : v.Twin K v') {b : Bytes} (hb : v.denote g = .ok b) :
    v'.denote g' = .ok b := by
  cases h with
  | known bytes => exact hb
  | asked id hint hq => exact hK hq hb
  | @joined id hint parts _ hp =>
    exact bind_eq_ok (fun bs => denoteAll hK parts hp) (fun _ h => h) hb
  | @mapped id hint base _ f hv =>
    exact bind_eq_ok (fun b => denote hK base hv) (fun _ h => h) hb

theorem denoteAll (hK : ∀ {q q' b}, K q q' → g q = .ok b → g' q' = .ok b) (vs : List (Value Q))
    {vs' : List (Value Q)} (h : List.Forall₂ (Value.Twin K) vs vs') {bs : List Bytes}
    (hb : Value.denoteAll g vs = .ok bs) : Value.denoteAll g' vs' = .ok bs := by
  cases h with
  | nil => exact hb
  | @cons v _ vs _ hv hvs =>
    exact bind_eq_ok (fun b => denote hK v hv)
      (fun b => bind_eq_ok (fun bs => denoteAll hK vs hvs) fun _ h => h) hb

end

end Value.Twin

/-- The outcomes of pending values, by their numbers. -/
structure Forecast where
  outcome? : Nat → Option Outcome

namespace Forecast

instance : Preorder Forecast where
  le F G := ∀ id o, F.outcome? id = some o → G.outcome? id = some o
  le_refl _ _ _ h := h
  le_trans _ _ _ h h' id o ho := h' id o (h id o ho)

def new : Forecast := ⟨fun _ => none⟩

def add (F : Forecast) (id : Nat) (o : Outcome) : Forecast :=
  ⟨Function.update F.outcome? id (some o)⟩

variable {F : Forecast} {id : Nat} {o : Outcome}

theorem outcome?_add : (F.add id o).outcome? id = some o := Function.update_self ..

theorem le_add (h : F.outcome? id = none) : F ≤ F.add id o := by
  intro i p hi
  have hne : i ≠ id := by
    rintro rfl
    rw [h] at hi
    cases hi
  exact (Function.update_of_ne hne _ _).trans hi

end Forecast

/-- A forecast gives the outcomes of all pending parts of a value. -/
inductive Value.Foreseen (g : Q → Outcome) (F : Forecast) : Value Q → Prop
  | known (bytes : Bytes) : Foreseen g F (.known bytes)
  | asked {id : Nat} {hint : Option Nat} {q : Q} (ho : F.outcome? id = some (g q)) :
    Foreseen g F (.asked id hint q)
  | joined {id : Nat} {hint : Option Nat} {parts : List (Value Q)}
    (ho : F.outcome? id = some (denote g (.joined id hint parts)))
    (hp : ∀ v ∈ parts, Foreseen g F v) : Foreseen g F (.joined id hint parts)
  | mapped {id : Nat} {hint : Option Nat} {base : Value Q} {f : Bytes → Outcome}
    (ho : F.outcome? id = some (denote g (.mapped id hint base f))) (hb : Foreseen g F base) :
    Foreseen g F (.mapped id hint base f)

theorem Value.Foreseen.mono {F G : Forecast} {v : Value Q} (h : v.Foreseen g F) (hF : F ≤ G) :
    v.Foreseen g G := by
  induction h with
  | known bytes => exact .known bytes
  | asked ho => exact .asked (hF _ _ ho)
  | joined ho _ ih => exact .joined (hF _ _ ho) ih
  | mapped ho _ ih => exact .mapped (hF _ _ ho) ih

/-- What a session has settled is as forecast, and no value to come is forecast. -/
structure Session.Agrees (s : Session σ) (F : Forecast) : Prop where
  fresh : ∀ id, s.next ≤ id → F.outcome? id = none
  settled : ∀ {id o}, s.outcome? id = some o → F.outcome? id = some o

/-- A computation has a certain result in every session that agrees with a forecast, and the session
still agrees after it. -/
def Foretells (F : Forecast) (r : Except EvalError α) (x : Fallible EvalError (Session σ) α) :
    Prop :=
  ∀ s, s.Agrees F → (x s).1 = r ∧ (x s).2.Agrees F

namespace Foretells

open Session

variable {F : Forecast}

theorem ofExcept (r : Except EvalError α) : Foretells (σ := σ) F r (.ofExcept r) :=
  fun _ hs => ⟨rfl, hs⟩

theorem mark (id : Nat) : Foretells (σ := σ) F (.ok ()) (mark id) :=
  fun _ hs => ⟨rfl, hs.fresh, hs.settled⟩

theorem ask {q : Q} (h : ∀ s, (answers q s).1 = g q) : Foretells F (g q) (ask answers q) :=
  fun s hs => ⟨h s.source, hs.fresh, hs.settled⟩

theorem bind {x : Fallible EvalError (Session σ) α} {f : α → Fallible EvalError (Session σ) β}
    {r : Except EvalError α} {k : α → Except EvalError β} (hx : Foretells F r x)
    (hf : ∀ a, Foretells F (k a) (f a)) : Foretells F (r >>= k) (x >>= f) := by
  intro s hs
  obtain ⟨hr, ht⟩ := hx s hs
  rw [Fallible.bind_apply, ← hr]
  rcases hp : x s with ⟨e | a, t⟩ <;> rw [hp] at ht
  · exact ⟨rfl, ht⟩
  · exact hf a t ht

theorem once {id : Nat} {o : Outcome} (ho : F.outcome? id = some o)
    {x : Fallible EvalError (Session σ) Bytes} (hx : Foretells F o x) :
    Foretells F o (once id x) := by
  intro s hs
  rcases h : s.outcome? id with _ | p
  · obtain ⟨hr, ht⟩ := hx s hs
    rw [once_of_not_settled h]
    refine ⟨hr, ht.fresh, fun {i p} hi => ?_⟩
    rw [outcome?_settle] at hi
    split at hi
    · cases hi
      rw [‹i = id›, ho, hr]
    · exact ht.settled hi
  · rw [once_of_settled h]
    exact ⟨Option.some.inj ((hs.settled h).symm.trans ho), hs⟩

theorem resolveAll {vs : List (Value Q)}
    (h : ∀ v ∈ vs, Foretells F (v.denote g) (v.resolve answers)) :
    Foretells F (Value.denoteAll g vs) (Value.resolveAll answers vs) := by
  induction vs with
  | nil => exact .ofExcept (.ok [])
  | cons v vs ih =>
    rw [List.forall_mem_cons] at h
    rw [Value.resolveAll, Value.denoteAll]
    exact h.1.bind fun b => (ih h.2).bind fun bs => .ofExcept (.ok (b :: bs))

end Foretells

section Resolve

variable (hg : ∀ q s, (answers q s).1 = g q) {F : Forecast}
include hg

/-- A value resolves to what it denotes. -/
theorem Value.Foreseen.resolve {v : Value Q} (h : v.Foreseen g F) :
    Foretells F (v.denote g) (v.resolve answers) := by
  induction h with
  | known bytes =>
    rw [Value.resolve]
    exact .ofExcept (.ok bytes)
  | @asked _ _ q ho =>
    rw [Value.resolve]
    exact .once ho ((Foretells.mark _).bind fun _ => .ask (hg q))
  | joined ho _ ih =>
    rw [Value.resolve]
    exact .once ho ((Foretells.resolveAll ih).bind fun bs => .ofExcept (.ok bs.flatten))
  | @mapped _ _ _ f ho _ ih =>
    rw [Value.resolve]
    exact .once ho (ih.bind fun b => (Foretells.mark _).bind fun _ => .ofExcept (f b))

theorem Session.Agrees.resolveEach {s : Session σ} (hs : s.Agrees F) {vs : List (Value Q)}
    (h : ∀ v ∈ vs, v.Foreseen g F) :
    (Value.resolveEach answers vs s).1 = vs.map (Value.denote g) ∧
      (Value.resolveEach answers vs s).2.Agrees F := by
  induction vs generalizing s with
  | nil => exact ⟨rfl, hs⟩
  | cons v vs ih =>
    rw [List.forall_mem_cons] at h
    obtain ⟨hr, hs⟩ := h.1.resolve hg s hs
    obtain ⟨hrs, hs⟩ := ih hs h.2
    rw [Value.resolveEach_cons]
    exact ⟨congrArg₂ List.cons hr hrs, hs⟩

end Resolve

def Foretold (g : Q → Outcome) (F : Forecast) (p : Value Q × Session σ) : Prop :=
  ∃ G, F ≤ G ∧ p.2.Agrees G ∧ p.1.Foreseen g G

namespace Session.Agrees

variable {s : Session σ} {F : Forecast}

theorem new (source : σ) : Session.Agrees { source } .new :=
  ⟨fun _ _ => rfl, fun h => nomatch h⟩

variable (hs : s.Agrees F)
include hs

theorem skip (ran : List Nat) : ({ s with next := s.next + 1, ran } : Session σ).Agrees F :=
  ⟨fun id hid => hs.fresh id (Nat.le_of_succ_le hid), hs.settled⟩

theorem le_add (o : Outcome) : F ≤ F.add s.next o := Forecast.le_add (hs.fresh _ (Nat.le_refl _))

theorem add (o : Outcome) :
    ({ s with next := s.next + 1 } : Session σ).Agrees (F.add s.next o) where
  fresh id hid := by
    have hid : s.next + 1 ≤ id := hid
    exact (Function.update_of_ne (by omega) _ _).trans (hs.fresh id (by omega))
  settled ho := hs.le_add o _ _ (hs.settled ho)

theorem ofQuestion (hint : Option Nat) (q : Q) : Foretold g F (Value.ofQuestion hint q s) :=
  ⟨_, hs.le_add (g q), hs.add _, .asked Forecast.outcome?_add⟩

theorem ofParts (hint : Option Nat) {parts : List (Value Q)} (h : ∀ v ∈ parts, v.Foreseen g F) :
    Foretold g F (Value.ofParts hint parts s) :=
  ⟨_, hs.le_add _, hs.add _, .joined Forecast.outcome?_add fun v hv => (h v hv).mono (hs.le_add _)⟩

theorem map {v : Value Q} (hint : Option Nat) (hv : v.Foreseen g F) (f : Bytes → Bytes) :
    Foretold g F (v.map hint (fun b => .ok (f b)) s) := by
  cases v with
  | known b => exact ⟨F, le_refl F, hs.skip _, .known (f b)⟩
  | _ => exact ⟨_, hs.le_add _, hs.add _, .mapped Forecast.outcome?_add (hv.mono (hs.le_add _))⟩

end Session.Agrees

end ChainRead
