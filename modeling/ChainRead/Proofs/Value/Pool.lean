import Mathlib.Data.List.Basic
import ChainRead.Proofs.Value.Computing

/-! # The values at hand

Values are made, copied, mapped and resolved in any order. Each pending value has a number of its
own, which its copies share, and a larger one than its parts, which are at hand as well. A number is
settled once, and the work of a value is done when it is settled, if at all. A function that is
applied to a known value does its work before.
-/

namespace ChainRead

/-- An operation on the values at hand, which are numbered as they came. It leaves out the values
that are not there. -/
inductive Operation (Q : Type)
  | known (bytes : Bytes)
  | pending (hint : Option Nat) (question : Q)
  | join (hint : Option Nat) (handles : List Nat)
  | default
  | clone (handle : Nat)
  | map (handle : Nat) (hint : Option Nat) (f : Bytes → Outcome)
  | peek (handle : Nat)
  | length (handle : Nat)
  | resolve (handle : Nat)
  | resolveAll (handles : List Nat)

structure Pool (Q σ : Type) where
  values : List (Value Q) := []
  session : Session σ

variable {Q σ : Type}

namespace Pool

def select (p : Pool Q σ) (handles : List Nat) : List (Value Q) := handles.filterMap (p.values[·]?)

def add (p : Pool Q σ) (make : StateM (Session σ) (Value Q)) : Pool Q σ :=
  ⟨p.values ++ [(make p.session).1], (make p.session).2⟩

def next (answers : Answers Q σ) (p : Pool Q σ) : Operation Q → Pool Q σ
  | .known bytes => p.add (pure (.known bytes))
  | .pending hint question => p.add (Value.ofQuestion hint question)
  | .join hint handles => p.add (Value.ofParts hint (p.select handles))
  | .default => p.add (pure default)
  | .clone handle => match p.values[handle]? with
    | some v => p.add (pure v)
    | none => p
  | .map handle hint f => match p.values[handle]? with
    | some v => p.add (v.map hint f)
    | none => p
  | .peek _ | .length _ => p
  | .resolve handle => match p.values[handle]? with
    | some v => { p with session := (v.resolve answers p.session).2 }
    | none => p
  | .resolveAll handles =>
    { p with session := (Value.resolveAll answers (p.select handles) p.session).2 }

def after (answers : Answers Q σ) (p : Pool Q σ) (operations : List (Operation Q)) : Pool Q σ :=
  operations.foldl (next answers) p

theorem after_append (answers : Answers Q σ) (p : Pool Q σ) (operations : List (Operation Q))
    (op : Operation Q) :
    p.after answers (operations ++ [op]) = (p.after answers operations).next answers op :=
  List.foldl_append

theorem mem_of_getElem? {p : Pool Q σ} {handle : Nat} {v : Value Q}
    (h : p.values[handle]? = some v) : v ∈ p.values := List.mem_of_getElem? h

theorem mem_of_mem_select {p : Pool Q σ} {handles : List Nat} {v : Value Q}
    (h : v ∈ p.select handles) : v ∈ p.values := by
  obtain ⟨handle, -, hv⟩ := List.mem_filterMap.mp h
  exact mem_of_getElem? hv

end Pool

/-! ## Numbers -/

/-- Values of which the parts are there, with numbers below `n` that tell them apart. -/
structure Numbered (n : Nat) (vs : List (Value Q)) : Prop where
  below : ∀ v ∈ vs, v.Below n
  alike : ∀ v ∈ vs, ∀ w ∈ vs, ∀ id, v.id? = some id → w.id? = some id → v = w
  ordered : ∀ v ∈ vs, v.Ordered
  closed : ∀ v ∈ vs, ∀ w, w.Part v → w ∈ vs

namespace Numbered

variable {m n : Nat} {vs : List (Value Q)} {v : Value Q}

theorem nil : Numbered n ([] : List (Value Q)) := ⟨nofun, nofun, nofun, nofun⟩

theorem mem_copy {w : Value Q} (hv : v ∈ vs) : w ∈ vs ++ [v] ↔ w ∈ vs := by
  rw [List.mem_append, List.mem_singleton, or_iff_left_iff_imp]
  rintro rfl
  exact hv

theorem copy (h : Numbered n vs) (hv : v ∈ vs) : Numbered n (vs ++ [v]) := by
  constructor <;> simp only [mem_copy hv]
  · exact h.below
  · exact h.alike
  · exact h.ordered
  · exact h.closed

theorem add (h : Numbered n vs) (hm : n ≤ m) (hid : ∀ id, v.id? = some id → n ≤ id ∧ id < m)
    (ho : v.Ordered) (hp : ∀ w, w.Part v → w = v ∨ w ∈ vs) : Numbered m (vs ++ [v]) := by
  have new {w : Value Q} (hw : w ∈ vs) {id : Nat} (hv : v.id? = some id) : w.id? ≠ some id :=
    fun hid' => Nat.not_lt_of_le (hid id hv).1 (h.below w hw id hid')
  constructor
  · intro w hw
    rcases List.mem_append.mp hw with hw | hw
    · exact (h.below w hw).mono hm
    · obtain rfl := List.mem_singleton.mp hw
      exact fun id hv => (hid id hv).2
  · intro w hw u hu id hwid huid
    rcases List.mem_append.mp hw with hw | hw <;> rcases List.mem_append.mp hu with hu | hu
    · exact h.alike w hw u hu id hwid huid
    · exact absurd hwid (new hw (List.mem_singleton.mp hu ▸ huid))
    · exact absurd huid (new hu (List.mem_singleton.mp hw ▸ hwid))
    · rw [List.mem_singleton.mp hw, List.mem_singleton.mp hu]
  · intro w hw
    rcases List.mem_append.mp hw with hw | hw
    · exact h.ordered w hw
    · exact List.mem_singleton.mp hw ▸ ho
  · intro w hw u hu
    rcases List.mem_append.mp hw with hw | hw
    · exact List.mem_append_left _ (h.closed w hw u hu)
    · obtain rfl := List.mem_singleton.mp hw
      rcases hp u hu with rfl | hu
      · exact List.mem_append_right _ (List.mem_singleton_self _)
      · exact List.mem_append_left _ hu

end Numbered

/-! ## Accounts -/

/-- What a session has on record about values. -/
structure Session.Accounts (vs : List (Value Q)) (s : Session σ) : Prop where
  settled_once : (s.settled.map Prod.fst).Nodup
  ran_once : s.ran.Nodup
  settled_of : ∀ id o, s.outcome? id = some o → ∃ v ∈ vs, v.id? = some id
  ran_lt : ∀ id ∈ s.ran, id < s.next
  ran_settled : ∀ v ∈ vs, ∀ id, v.id? = some id → id ∈ s.ran → ∃ o, s.outcome? id = some o
  mapped : ∀ id hint base f o, .mapped id hint base f ∈ vs → s.outcome? id = some o →
    ∃ r, base.outcome? s = some r ∧ o = r.bind f ∧ (id ∈ s.ran ↔ ∃ bytes, r = .ok bytes)

namespace Session.Accounts

variable {vs : List (Value Q)} {s t : Session σ} {v w : Value Q} {answers : Answers Q σ}

theorem new (source : σ) : Accounts ([] : List (Value Q)) { source } :=
  ⟨List.nodup_nil, List.nodup_nil, nofun, nofun, nofun, nofun⟩

theorem outcome?_eq_none (h : Accounts vs s) (hn : Numbered s.next vs) {id : Nat}
    (hid : s.next ≤ id) : s.outcome? id = none := by
  refine Option.eq_none_iff_forall_ne_some.mpr fun o ho => ?_
  obtain ⟨v, hv, hvid⟩ := h.settled_of id o ho
  exact Nat.not_lt_of_le hid (hn.below v hv id hvid)

theorem copy (h : Accounts vs s) (hv : v ∈ vs) : Accounts (vs ++ [v]) s := by
  refine ⟨h.settled_once, h.ran_once, ?_, h.ran_lt, ?_, ?_⟩ <;> simp only [Numbered.mem_copy hv]
  · exact h.settled_of
  · exact h.ran_settled
  · exact h.mapped

theorem add (h : Accounts vs s) (hn : Numbered s.next vs) {m : Nat} (hm : s.next ≤ m)
    (hid : ∀ id, v.id? = some id → s.next ≤ id) :
    Accounts (vs ++ [v]) { s with next := m } := by
  refine ⟨h.settled_once, h.ran_once, fun id o ho => ?_, fun id hr =>
    Nat.lt_of_lt_of_le (h.ran_lt id hr) hm, fun w hw id hw' hr => ?_, ?_⟩
  · obtain ⟨w, hw, hid⟩ := h.settled_of id o ho
    exact ⟨w, List.mem_append_left _ hw, hid⟩
  · rcases List.mem_append.mp hw with hw | hw
    · exact h.ran_settled w hw id hw' hr
    · obtain rfl := List.mem_singleton.mp hw
      exact absurd (h.ran_lt id hr) (Nat.not_lt_of_le (hid id hw'))
  · intro id hint base f o hw ho
    rcases List.mem_append.mp hw with hw | hw
    · obtain ⟨r, hr, heq, hran⟩ := h.mapped id hint base f o hw ho
      exact ⟨r, Value.outcome?_mono (fun _ _ h => h) hr, heq, hran⟩
    · obtain rfl := List.mem_singleton.mp hw
      cases (h.outcome?_eq_none hn (hid id rfl)).symm.trans ho

theorem mark (h : Accounts vs s) {id : Nat} (hlt : id < s.next) (hr : id ∉ s.ran)
    (hv : ∀ v ∈ vs, v.id? ≠ some id) : Accounts vs { s with ran := id :: s.ran } := by
  refine ⟨h.settled_once, List.nodup_cons.mpr ⟨hr, h.ran_once⟩, h.settled_of,
    List.forall_mem_cons.mpr ⟨hlt, h.ran_lt⟩, fun v hm i hi hran => ?_, ?_⟩
  · rcases List.mem_cons.mp hran with rfl | hran
    · exact absurd hi (hv v hm)
    · exact h.ran_settled v hm i hi hran
  · intro i hint base f o hm ho
    obtain ⟨r, hb, heq, hran⟩ := h.mapped i hint base f o hm ho
    have hne : i ≠ id := by
      rintro rfl
      exact hv _ hm rfl
    exact ⟨r, Value.outcome?_mono (fun _ _ h => h) hb, heq, by simpa [hne] using hran⟩

/-- A value that is computed has not done its work before. -/
theorem computes (h : Accounts vs s) (hn : Numbered s.next vs) (hw : w ∈ vs)
    (hc : Computes answers s w t) : Accounts vs t := by
  have settles := hc.settles
  obtain ⟨id, o, hid, hnone, hs, hnext, hran⟩ := hc.effect
  have out := outcome?_of_settled hs
  have hidle : id ∉ s.ran := by
    intro hr
    obtain ⟨o, ho⟩ := h.ran_settled w hw id hid hr
    cases hnone.symm.trans ho
  have mem_ran {i : Nat} (hi : i ∈ t.ran) : i = id ∨ i ∈ s.ran := by
    rcases hran with hran | hran <;> rw [hran] at hi
    · exact Or.inr hi
    · exact List.mem_cons.mp hi
  constructor
  · rw [hs, List.map_cons, List.nodup_cons]
    refine ⟨fun hm => ?_, h.settled_once⟩
    obtain ⟨p, hp, hpid⟩ := List.mem_map.mp hm
    have hne := List.lookup_eq_none_iff.mp hnone p hp
    simp [hpid] at hne
  · rcases hran with hran | hran <;> rw [hran]
    · exact h.ran_once
    · exact List.nodup_cons.mpr ⟨hidle, h.ran_once⟩
  · intro i r hr
    rw [out] at hr
    split at hr
    · next heq => exact ⟨w, hw, heq ▸ hid⟩
    · exact h.settled_of i r hr
  · intro i hi
    rw [hnext]
    rcases mem_ran hi with rfl | hi
    · exact hn.below w hw _ hid
    · exact h.ran_lt i hi
  · intro v hv i hi hr
    rw [out]
    split
    · exact ⟨o, rfl⟩
    · next hne => exact h.ran_settled v hv i hi ((mem_ran hr).resolve_left hne)
  · intro i hint base f r hm hr
    by_cases hi : i = id
    · subst hi
      -- numbers tell pending values apart, so this is the value that was computed
      obtain rfl := hn.alike w hw _ hm i hid rfl
      cases hc with
      | applied _ hb =>
        refine ⟨_, Value.outcome?_mono settles hb, ?_, by simp⟩
        rw [out, if_pos rfl] at hr
        cases hr
        exact (Prod.mk.inj (List.cons.inj hs).1).2.symm
      | passed _ hb =>
        refine ⟨_, Value.outcome?_mono settles hb, ?_, by simpa using hidle⟩
        rw [out, if_pos rfl] at hr
        cases hr
        exact (Prod.mk.inj (List.cons.inj hs).1).2.symm
    · rw [out, if_neg hi] at hr
      obtain ⟨q, hb, heq, hq⟩ := h.mapped i hint base f r hm hr
      refine ⟨q, Value.outcome?_mono settles hb, heq, ?_⟩
      rcases hran with hran | hran <;> rw [hran]
      · exact hq
      · simpa [hi] using hq

theorem path {P : Value Q → Prop} (h : Accounts vs s) (hn : Numbered s.next vs)
    (hP : ∀ w, P w → w ∈ vs) (hp : Path answers P s t) :
    Accounts vs t ∧ t.next = s.next ∧ Settles s t := by
  induction hp with
  | refl => exact ⟨h, rfl, fun _ _ h => h⟩
  | tail _ hw hc ih =>
    obtain ⟨hacc, hnext, hset⟩ := ih
    obtain ⟨-, -, -, -, -, hnext', -⟩ := hc.effect
    exact ⟨hacc.computes (hnext ▸ hn) (hP _ hw) hc, hnext'.trans hnext,
      fun i o ho => hc.settles i o (hset i o ho)⟩

end Session.Accounts

/-! ## Operations -/

namespace Value

variable {v : Value Q} {hint : Option Nat} {f : Bytes → Outcome} {s : Session σ}

theorem map_known_ok {bytes result : Bytes} (hf : f bytes = .ok result) :
    (known bytes : Value Q).map hint f s =
      (.known result, { s with next := s.next + 1, ran := s.next :: s.ran }) := by
  simp only [map, hf]

theorem map_known_error {bytes : Bytes} {e : EvalError} (hf : f bytes = .error e) :
    (known bytes : Value Q).map hint f s = (.mapped s.next hint (.known bytes) f, { s with
      next := s.next + 1
      settled := (s.next, .error e) :: s.settled
      ran := s.next :: s.ran }) := by
  simp only [map, hf]

theorem map_pending {id : Nat} (h : v.id? = some id) :
    v.map hint f s = (.mapped s.next hint v f, { s with next := s.next + 1 }) := by
  cases v with
  | known => cases h
  | asked | joined | mapped => rfl

end Value

namespace Pool

open Session Value

def start (source : σ) : Pool Q σ := { session := { source } }

structure Proper (p : Pool Q σ) : Prop where
  numbered : Numbered p.session.next p.values
  accounts : p.session.Accounts p.values

theorem Proper.start (source : σ) : (start source : Pool Q σ).Proper := ⟨.nil, .new source⟩

/-- A value that an operation resolves, or a part of one. -/
def Reaches (p : Pool Q σ) : Operation Q → Value Q → Prop
  | .resolve handle, w => ∃ v, p.values[handle]? = some v ∧ w.Part v
  | .resolveAll handles, w => ∃ v ∈ p.select handles, w.Part v
  | _, _ => False

inductive Effect (answers : Answers Q σ) (p : Pool Q σ) : Operation Q → Pool Q σ → Prop
  | nothing {op : Operation Q} : Effect answers p op p
  | copied {op : Operation Q} {v : Value Q} (hv : v ∈ p.values) :
      Effect answers p op ⟨p.values ++ [v], p.session⟩
  | made {op : Operation Q} {v : Value Q} {n : Nat} (hn : p.session.next ≤ n)
      (hid : ∀ id, v.id? = some id → p.session.next ≤ id ∧ id < n) (ho : v.Ordered)
      (hp : ∀ w, w.Part v → w = v ∨ w ∈ p.values) :
      Effect answers p op ⟨p.values ++ [v], { p.session with next := n }⟩
  | applied {handle : Nat} {hint : Option Nat} {f : Bytes → Outcome} {bytes result : Bytes}
      (hv : p.values[handle]? = some (.known bytes)) (hf : f bytes = .ok result) :
      Effect answers p (.map handle hint f) ⟨p.values ++ [.known result], { p.session with
        next := p.session.next + 1
        ran := p.session.next :: p.session.ran }⟩
  | failed {handle : Nat} {hint : Option Nat} {f : Bytes → Outcome} {bytes : Bytes} {e : EvalError}
      (hv : p.values[handle]? = some (.known bytes)) (hf : f bytes = .error e) :
      Effect answers p (.map handle hint f)
        ⟨p.values ++ [.mapped p.session.next hint (.known bytes) f], { p.session with
          next := p.session.next + 1
          settled := (p.session.next, .error e) :: p.session.settled
          ran := p.session.next :: p.session.ran }⟩
  | resolved {op : Operation Q} {t : Session σ}
      (path : Path answers (p.Reaches op) p.session t) : Effect answers p op ⟨p.values, t⟩

variable {answers : Answers Q σ} {p q : Pool Q σ} {op : Operation Q}

theorem part_known {w : Value Q} {bytes : Bytes} (h : w.Part (.known bytes)) :
    w = .known bytes := by
  cases h
  rfl

theorem Effect.pending {v : Value Q} (hid : v.id? = some p.session.next) (ho : v.Ordered)
    (hp : ∀ w, w.Part v → w = v ∨ w ∈ p.values) :
    Effect answers p op ⟨p.values ++ [v], { p.session with next := p.session.next + 1 }⟩ :=
  .made (Nat.le_succ _) (fun id h => by cases hid.symm.trans h; omega) ho hp

theorem Proper.part_mapped (h : p.Proper) {v w : Value Q} (hv : v ∈ p.values) {id : Nat}
    {hint : Option Nat} {f : Bytes → Outcome} (hw : w.Part (.mapped id hint v f)) :
    w = .mapped id hint v f ∨ w ∈ p.values := by
  cases hw with
  | self => exact Or.inl rfl
  | mapped hw => exact Or.inr (h.numbered.closed v hv w hw)

theorem Proper.map_effect (h : p.Proper) {handle : Nat} {v : Value Q}
    (hv : p.values[handle]? = some v) (hint : Option Nat) (f : Bytes → Outcome) :
    Effect answers p (.map handle hint f) (p.add (v.map hint f)) := by
  have hm := mem_of_getElem? hv
  rcases hid : v.id? with _ | id
  · obtain ⟨bytes, rfl⟩ := eq_known hid
    rcases hf : f bytes with e | result
    · rw [add, map_known_error hf]
      exact .failed hv hf
    · rw [add, map_known_ok hf]
      exact .applied hv hf
  · rw [add, map_pending hid]
    exact .pending rfl (.mapped (h.numbered.ordered v hm) (h.numbered.below v hm))
      fun w hw => h.part_mapped hm hw

theorem Proper.next_effect (h : p.Proper) (answers : Answers Q σ) (op : Operation Q) :
    Effect answers p op (p.next answers op) := by
  have known (bytes : Bytes) : Effect answers p op ⟨p.values ++ [.known bytes], p.session⟩ :=
    .made (Nat.le_refl _) nofun (.known bytes) fun w hw => Or.inl (part_known hw)
  cases op with
  | known bytes => exact known bytes
  | default => exact known []
  | pending hint question =>
    refine .pending rfl (.asked _ hint question) fun w hw => ?_
    cases hw
    exact Or.inl rfl
  | join hint handles =>
    have hm {v : Value Q} (hv : v ∈ p.select handles) := mem_of_mem_select hv
    refine .pending rfl (.joined (fun v hv => h.numbered.ordered v (hm hv))
      fun v hv => h.numbered.below v (hm hv)) fun w hw => ?_
    cases hw with
    | self => exact Or.inl rfl
    | joined hv hw => exact Or.inr (h.numbered.closed _ (hm hv) w hw)
  | clone handle =>
    rw [next]
    split
    · next v hv => exact .copied (mem_of_getElem? hv)
    · exact .nothing
  | map handle hint f =>
    rw [next]
    split
    · next v hv => exact h.map_effect hv hint f
    · exact .nothing
  | peek | length => exact .nothing
  | resolve handle =>
    rw [next]
    split
    · next v hv =>
      have ho := h.numbered.ordered v (mem_of_getElem? hv)
      exact .resolved ((ho.path v p.session).mono fun w hw => ⟨v, hv, hw⟩)
    · exact .nothing
  | resolveAll handles =>
    exact .resolved (pathAll _ (fun v hv => h.numbered.ordered v (mem_of_mem_select hv)) p.session)

theorem Proper.mem_of_reaches (h : p.Proper) {w : Value Q} (hw : p.Reaches op w) :
    w ∈ p.values := by
  cases op with
  | resolve handle =>
    obtain ⟨v, hv, hw⟩ := hw
    exact h.numbered.closed v (mem_of_getElem? hv) w hw
  | resolveAll handles =>
    obtain ⟨v, hv, hw⟩ := hw
    exact h.numbered.closed v (mem_of_mem_select hv) w hw
  | _ => cases hw

theorem Proper.made (h : p.Proper) {v : Value Q} {n : Nat} (hn : p.session.next ≤ n)
    (hid : ∀ id, v.id? = some id → p.session.next ≤ id ∧ id < n) (ho : v.Ordered)
    (hp : ∀ w, w.Part v → w = v ∨ w ∈ p.values) :
    Proper ⟨p.values ++ [v], { p.session with next := n }⟩ :=
  ⟨h.numbered.add hn hid ho hp, h.accounts.add h.numbered hn fun id hv => (hid id hv).1⟩

theorem Proper.computes (h : p.Proper) {P : Value Q → Prop} {t : Session σ}
    (path : Path answers P p.session t) (hP : ∀ w, P w → w ∈ p.values) :
    Proper ⟨p.values, t⟩ ∧ Settles p.session t := by
  obtain ⟨ha, hn, hs⟩ := h.accounts.path h.numbered hP path
  exact ⟨⟨hn ▸ h.numbered, ha⟩, hs⟩

section Effects

variable (h : p.Proper) (he : Effect answers p op q)
include h he

theorem Effect.proper : q.Proper := by
  cases he with
  | nothing => exact h
  | copied hv => exact ⟨h.numbered.copy hv, h.accounts.copy hv⟩
  | made hn hid ho hp => exact h.made hn hid ho hp
  | @applied _ _ _ _ result =>
    obtain ⟨hn, ha⟩ := h.made (v := .known result) (Nat.le_succ _) nofun (.known result)
      fun w hw => Or.inl (part_known hw)
    refine ⟨hn, ha.mark (Nat.lt_succ_self _) (fun hr => ?_) fun v hv hid => ?_⟩
    · exact Nat.lt_irrefl _ (h.accounts.ran_lt _ hr)
    · rcases List.mem_append.mp hv with hv | hv
      · exact Nat.lt_irrefl _ (h.numbered.below v hv _ hid)
      · cases List.mem_singleton.mp hv
        cases hid
  | @failed _ hint f bytes e hv hf =>
    -- the value is made, and then it is computed at once
    have hm := mem_of_getElem? hv
    obtain ⟨hn, ha⟩ := h.made (v := .mapped p.session.next hint (.known bytes) f) (Nat.le_succ _)
      (fun id hid => by cases hid; omega) (.mapped (.known bytes) nofun)
      fun w hw => h.part_mapped hm hw
    refine ⟨hn, ha.computes hn (List.mem_append_right _ (List.mem_singleton_self _))
      (?_ : Computes answers _ _ _)⟩
    rw [← hf]
    exact .applied (h.accounts.outcome?_eq_none h.numbered (Nat.le_refl _)) rfl
  | resolved path => exact (h.computes path fun w hw => h.mem_of_reaches hw).1

theorem Effect.settles : Settles p.session q.session := by
  cases he with
  | nothing | copied | made | applied => exact fun _ _ h => h
  | failed =>
    intro id o ho
    rw [outcome?_of_settled rfl, if_neg]
    · exact ho
    · rintro rfl
      cases (h.accounts.outcome?_eq_none h.numbered (Nat.le_refl _)).symm.trans ho
  | resolved path => exact (h.computes path fun w hw => h.mem_of_reaches hw).2

end Effects

section Effects

variable (he : Effect answers p op q)
include he

theorem Effect.values : ∃ new, q.values = p.values ++ new := by
  cases he with
  | nothing | resolved => exact ⟨[], (List.append_nil _).symm⟩
  | copied | made | applied | failed => exact ⟨_, rfl⟩

/-- What is resolved does its work now, and so does a function that is applied to a known value. -/
theorem Effect.ran : ∃ now, q.session.ran = now ++ p.session.ran ∧ ∀ id ∈ now,
    (∃ w, p.Reaches op w ∧ w.id? = some id) ∨ id = p.session.next ∧
      ∃ handle hint f bytes, op = .map handle hint f ∧ p.values[handle]? = some (.known bytes) := by
  cases he with
  | nothing | copied | made => exact ⟨[], rfl, nofun⟩
  | applied hv | failed hv =>
    refine ⟨[p.session.next], rfl, fun id hid => Or.inr ⟨List.mem_singleton.mp hid, ?_⟩⟩
    exact ⟨_, _, _, _, rfl, hv⟩
  | resolved path =>
    obtain ⟨now, hnow, hP⟩ := path.ran_eq
    exact ⟨now, hnow, fun id hid => Or.inl (hP id hid)⟩

theorem Effect.source (hr : ∀ w, ¬p.Reaches op w) : q.session.source = p.session.source := by
  cases he with
  | nothing | copied | made | applied | failed => rfl
  | resolved path =>
    cases path with
    | refl => rfl
    | tail _ hw => exact absurd hw (hr _)

end Effects

section Histories

variable {operations : List (Operation Q)}

theorem Proper.after (h : p.Proper) (answers : Answers Q σ) (operations : List (Operation Q)) :
    (p.after answers operations).Proper := by
  induction operations generalizing p with
  | nil => exact h
  | cons op operations ih => exact ih ((h.next_effect answers op).proper h)

theorem Proper.settles_after (h : p.Proper) :
    Settles p.session (p.after answers operations).session := by
  induction operations generalizing p with
  | nil => exact fun _ _ h => h
  | cons op operations ih =>
    have he := h.next_effect answers op
    exact fun id o ho => ih (he.proper h) id o (he.settles h id o ho)

theorem Proper.mem_after (h : p.Proper) {v : Value Q} (hv : v ∈ p.values) :
    v ∈ (p.after answers operations).values := by
  induction operations generalizing p with
  | nil => exact hv
  | cons op operations ih =>
    have he := h.next_effect answers op
    obtain ⟨new, hnew⟩ := he.values
    exact ih (he.proper h) (hnew ▸ List.mem_append_left new hv)

theorem Proper.ran_after (h : p.Proper) {id : Nat} (hid : id ∈ p.session.ran) :
    id ∈ (p.after answers operations).session.ran := by
  induction operations generalizing p with
  | nil => exact hid
  | cons op operations ih =>
    have he := h.next_effect answers op
    obtain ⟨now, hnow, -⟩ := he.ran
    exact ih (he.proper h) (hnow ▸ List.mem_append_right now hid)

end Histories

end Pool

end ChainRead
