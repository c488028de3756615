import Mathlib.Data.List.Induction
import Mathlib.Data.List.Nodup
import Mathlib.Data.List.Perm.Subperm
import ChainRead.Proofs.Value.Pool

/-! # Values are computed at most once

However values are made, copied, mapped and resolved, no work is done twice. A pending value is
computed when it or something made of it is resolved, and has the same outcome ever after. A
function of a value sees the bytes that the value resolves to, or is not applied.
-/

namespace ChainRead

variable {Q σ : Type}

/-- Answers that note the questions, latest first. -/
def Answers.noting (answers : Answers Q σ) : Answers Q (σ × List Q) := fun question (source, log) =>
  let (outcome, source) := answers question source
  (outcome, (source, question :: log))

/-- The question that an operation makes a value for. -/
def Operation.question? : Operation Q → Option Q
  | .pending _ question => some question
  | _ => none

namespace Pool

open Session Value

variable {answers : Answers Q σ} {p : Pool Q σ}

/-- The values at hand are computed late and at most once. -/
structure Memoizes (answers : Answers Q σ) (p : Pool Q σ) : Prop where
  /-- No question was put twice for a value, and no function was applied twice. -/
  ran_once : p.session.ran.Nodup
  /-- No value was computed twice. -/
  settled_once : (p.session.settled.map Prod.fst).Nodup
  /-- An operation does the work of what it resolves, or applies a function to a known value. -/
  late : ∀ op, ∃ now, (p.next answers op).session.ran = now ++ p.session.ran ∧ ∀ id ∈ now,
    (∃ w, p.Reaches op w ∧ w.id? = some id) ∨ id = p.session.next ∧
      ∃ handle hint f bytes, op = .map handle hint f ∧ p.values[handle]? = some (.known bytes)
  /-- An operation that resolves nothing puts no question. -/
  unasked : ∀ op, (∀ w, ¬p.Reaches op w) → (p.next answers op).session.source = p.session.source
  /-- A function is applied to a known value at once. -/
  eager : ∀ handle hint f bytes, p.values[handle]? = some (.known bytes) →
    (p.next answers (.map handle hint f)).session.ran = p.session.next :: p.session.ran
  /-- A copy is the same value. -/
  copied : ∀ handle v, p.values[handle]? = some v →
    p.next answers (.clone handle) = ⟨p.values ++ [v], p.session⟩
  /-- What a value resolves to, it and its copies resolve to ever after. -/
  stable : ∀ v ∈ p.values, ∀ operations,
    let r := v.resolve answers p.session
    let t := (Pool.after answers ⟨p.values, r.2⟩ operations).session
    v.resolve answers t = (r.1, t) ∧ v.peek t = r.1.toOption
  /-- Bytes are there without work only if the value resolves to them. -/
  peeked : ∀ v ∈ p.values, ∀ bytes, v.peek p.session = some bytes →
    v.resolve answers p.session = (.ok bytes, p.session)
  /-- A function is applied to what its base resolves to, and not if that is a failure. -/
  mapped : ∀ handle hint f v, p.values[handle]? = some v → ∀ operations,
    let made := p.next answers (.map handle hint f)
    let t := (made.after answers operations).session
    let r := (v.resolve answers t).1
    ∃ w, made.values = p.values ++ [w] ∧ (w.resolve answers t).1 = r.bind f ∧
      (p.session.next ∈ (w.resolve answers t).2.ran ↔ ∃ bytes, r = .ok bytes)
  /-- Values are resolved in order up to the first failure. -/
  ordered : ∀ handles,
    let vs := p.select handles
    let r := resolveAll answers vs p.session
    (∃ bss : List Bytes, r.1 = .ok bss ∧ resolveEach answers vs p.session = (bss.map .ok, r.2)) ∨
    ∃ first v rest, ∃ bss : List Bytes, ∃ e, vs = first ++ v :: rest ∧ r.1 = .error e ∧
      resolveEach answers (first ++ [v]) p.session = (bss.map .ok ++ [.error e], r.2)

theorem Proper.path (h : p.Proper) {v : Value Q} (hv : v ∈ p.values) (answers : Answers Q σ) :
    Path answers (·.Part v) p.session (v.resolve answers p.session).2 :=
  (h.numbered.ordered v hv).path v p.session

theorem Proper.resolve (h : p.Proper) {v : Value Q} (hv : v ∈ p.values) (answers : Answers Q σ) :
    Proper ⟨p.values, (v.resolve answers p.session).2⟩ :=
  (h.computes (h.path hv answers) fun w hw => h.numbered.closed v hv w hw).1

theorem Proper.resolve_mapped (h : p.Proper) {id : Nat} {hint : Option Nat} {base : Value Q}
    {f : Bytes → Outcome} (hv : .mapped id hint base f ∈ p.values) (answers : Answers Q σ) :
    let w : Value Q := .mapped id hint base f
    let r := (base.resolve answers p.session).1
    (w.resolve answers p.session).1 = r.bind f ∧
      (id ∈ (w.resolve answers p.session).2.ran ↔ ∃ bytes, r = .ok bytes) := by
  intro w r
  obtain ⟨q, hq, heq, hran⟩ := (h.resolve hv answers).accounts.mapped id hint base f _ hv
    (outcome?_resolve answers w p.session)
  suffices hr : r = q by
    rw [hr]
    exact ⟨heq, hran⟩
  rcases hw : p.session.outcome? id with _ | o
  · -- the base is resolved first, and what it resolves to is settled when the function is applied
    obtain ⟨ho, hb⟩ := (h.numbered.ordered w hv).base
    have path := h.path (h.numbered.closed w hv base (.mapped .self)) answers
    have hn := (path.outcome?_eq fun u hu => ho.below_part hu hb).trans hw
    have hc : Computes answers _ w (w.resolve answers p.session).2 := computes_mapped hw hn
    have settled := outcome?_mono hc.settles (outcome?_resolve answers base p.session)
    exact Option.some.inj (settled.symm.trans hq)
  · have hs : w.resolve answers p.session = (o, p.session) := resolve_of_settled rfl hw
    rw [hs] at hq
    exact congrArg Prod.fst (resolve_of_outcome? hq)

theorem Proper.resolve_map (h : p.Proper) {handle : Nat} {v : Value Q}
    (hv : p.values[handle]? = some v) (answers : Answers Q σ) (hint : Option Nat)
    (f : Bytes → Outcome) (operations : List (Operation Q)) :
    let made := p.next answers (.map handle hint f)
    let t := (made.after answers operations).session
    let r := (v.resolve answers t).1
    ∃ w, made.values = p.values ++ [w] ∧ (w.resolve answers t).1 = r.bind f ∧
      (p.session.next ∈ (w.resolve answers t).2.ran ↔ ∃ bytes, r = .ok bytes) := by
  intro made t r
  have hm : made.Proper := (h.next_effect answers _).proper h
  have heq : made = p.add (v.map hint f) := by simp only [made, next, hv]
  refine ⟨(v.map hint f p.session).1, by rw [heq]; rfl, ?_⟩
  have pending (hw : (v.map hint f p.session).1 = .mapped p.session.next hint v f) :
      ((v.map hint f p.session).1.resolve answers t).1 = r.bind f ∧
        (p.session.next ∈ ((v.map hint f p.session).1.resolve answers t).2.ran ↔
          ∃ bytes, r = .ok bytes) := by
    rw [hw]
    refine (hm.after answers operations).resolve_mapped (hm.mem_after ?_) answers
    rw [heq, ← hw]
    exact List.mem_append_right _ (List.mem_singleton_self _)
  rcases hid : v.id? with _ | id
  · obtain ⟨bytes, rfl⟩ := eq_known hid
    rcases hf : f bytes with e | result
    · exact pending (by rw [map_known_error hf])
    · have hran : p.session.next ∈ t.ran := by
        refine hm.ran_after ?_
        rw [heq, add, map_known_ok hf]
        exact List.mem_cons_self
      rw [map_known_ok hf]
      exact ⟨hf.symm, iff_of_true hran ⟨bytes, rfl⟩⟩
  · exact pending (by rw [map_pending hid])

theorem resolveAll_cases (answers : Answers Q σ) (vs : List (Value Q)) (s : Session σ) :
    let r := resolveAll answers vs s
    (∃ bss : List Bytes, r.1 = .ok bss ∧ resolveEach answers vs s = (bss.map .ok, r.2)) ∨
    ∃ first v rest, ∃ bss : List Bytes, ∃ e, vs = first ++ v :: rest ∧ r.1 = .error e ∧
      resolveEach answers (first ++ [v]) s = (bss.map .ok ++ [.error e], r.2) := by
  induction vs generalizing s with
  | nil => exact Or.inl ⟨[], rfl, rfl⟩
  | cons v vs ih =>
    dsimp only
    rw [resolveAll, Fallible.bind_apply]
    rcases hv : v.resolve answers s with ⟨e | bytes, t⟩
    · refine Or.inr ⟨[], v, vs, [], e, rfl, rfl, ?_⟩
      rw [List.nil_append, resolveEach_cons, hv]
      rfl
    · dsimp only
      rw [Fallible.bind_apply]
      rcases ih t with ⟨bss, hr, he⟩ | ⟨first, w, rest, bss, e, rfl, hr, he⟩ <;>
        rcases hs : resolveAll answers _ t with ⟨_, t'⟩ <;> rw [hs] at hr he <;> cases hr
      · refine Or.inl ⟨bytes :: bss, rfl, ?_⟩
        rw [resolveEach_cons, hv, he]
        rfl
      · refine Or.inr ⟨v :: first, w, rest, bytes :: bss, e, rfl, rfl, ?_⟩
        rw [List.cons_append, resolveEach_cons, hv, he]
        rfl

theorem Proper.memoizes (h : p.Proper) (answers : Answers Q σ) : p.Memoizes answers where
  ran_once := h.accounts.ran_once
  settled_once := h.accounts.settled_once
  late op := (h.next_effect answers op).ran
  unasked op hr := (h.next_effect answers op).source hr
  eager handle hint f bytes hv := by
    simp only [next, hv, add]
    rcases hf : f bytes with e | result
    · rw [map_known_error hf]
    · rw [map_known_ok hf]
  copied handle v hv := by simp only [next, hv, add]; rfl
  stable v hv operations := by
    intro r t
    have ho : v.outcome? t = some r.1 :=
      outcome?_mono (h.resolve hv answers).settles_after (outcome?_resolve answers v p.session)
    exact ⟨resolve_of_outcome? ho, by rw [peek_eq, ho, Option.bind_some]⟩
  peeked v hv bytes hb := resolve_of_peek hb
  mapped handle hint f v hv operations := h.resolve_map hv answers hint f operations
  ordered handles := resolveAll_cases answers (p.select handles) p.session

/-! ## Questions -/

section Questions

variable {created : List (Nat × Q)} {s t : Session (σ × List Q)}

/-- The questions that were noted were put for different values that were created and have been
settled. -/
def Noted (created : List (Nat × Q)) (s : Session (σ × List Q)) : Prop :=
  ∃ asked : List (Nat × Q), asked.map Prod.snd = s.source.2 ∧ (asked.map Prod.fst).Nodup ∧
    asked ⊆ created ∧ ∀ a ∈ asked, ∃ o, s.outcome? a.1 = some o

theorem Noted.mono {created' : List (Nat × Q)} (h : Noted created s) (hc : created ⊆ created')
    (hs : Settles s t) (hl : t.source.2 = s.source.2) : Noted created' t := by
  obtain ⟨asked, hlog, hn, hsub, hset⟩ := h
  refine ⟨asked, hlog.trans hl.symm, hn, List.Subset.trans hsub hc, fun a ha => ?_⟩
  obtain ⟨o, ho⟩ := hset a ha
  exact ⟨o, hs a.1 o ho⟩

theorem Noted.computes {w : Value Q} (h : Noted created s) (hc : Computes answers.noting s w t)
    (hw : ∀ id hint q, w = .asked id hint q → (id, q) ∈ created) : Noted created t := by
  have settles := hc.settles
  cases hc with
  | @asked id hint q hn =>
    obtain ⟨asked, hlog, hnodup, hsub, hset⟩ := h
    refine ⟨(id, q) :: asked, ?_, ?_, List.cons_subset.mpr ⟨hw id hint q rfl, hsub⟩, ?_⟩
    · rw [List.map_cons, hlog]
      rfl
    · rw [List.map_cons, List.nodup_cons]
      refine ⟨fun hm => ?_, hnodup⟩
      obtain ⟨a, ha, rfl⟩ := List.mem_map.mp hm
      obtain ⟨o, ho⟩ := hset a ha
      cases hn.symm.trans ho
    · intro a ha
      rcases List.mem_cons.mp ha with rfl | ha
      · exact ⟨_, (outcome?_of_settled rfl id).trans (if_pos rfl)⟩
      · obtain ⟨o, ho⟩ := hset a ha
        exact ⟨o, settles a.1 o ho⟩
  | joined | applied | passed => exact h.mono (List.Subset.refl _) settles rfl

theorem Noted.path {P : Value Q → Prop} (h : Noted created s) (hp : Path answers.noting P s t)
    (hP : ∀ id hint q, P (.asked id hint q) → (id, q) ∈ created) : Noted created t := by
  induction hp with
  | refl => exact h
  | tail _ hw hc ih =>
    refine ih.computes hc fun id hint q heq => hP id hint q ?_
    rwa [← heq]

theorem asked_next {op : Operation Q} {id : Nat} {hint : Option Nat} {q : Q}
    (hv : .asked id hint q ∈ (p.next answers op).values) :
    .asked id hint q ∈ p.values ∨ id = p.session.next ∧ op.question? = some q := by
  have new {make : StateM (Session σ) (Value Q)} (hv : .asked id hint q ∈ (p.add make).values) :
      .asked id hint q ∈ p.values ∨ .asked id hint q = (make p.session).1 := by
    simpa [add] using hv
  cases op with
  | pending =>
    rcases new hv with hv | heq
    · exact Or.inl hv
    · cases heq
      exact Or.inr ⟨rfl, rfl⟩
  | known | default | join =>
    rcases new hv with hv | heq
    · exact Or.inl hv
    · cases heq
  | clone handle =>
    rw [next] at hv
    split at hv
    · next v hm =>
      rcases new hv with hv | heq
      · exact Or.inl hv
      · have heq : .asked id hint q = v := heq
        exact Or.inl (heq ▸ mem_of_getElem? hm)
    · exact Or.inl hv
  | map handle hint f =>
    rw [next] at hv
    split at hv
    · next v hm =>
      rcases new hv with hv | heq
      · exact Or.inl hv
      rcases hid : v.id? with _ | id
      · obtain ⟨bytes, rfl⟩ := eq_known hid
        rcases hf : f bytes with e | result
        · rw [map_known_error hf] at heq
          cases heq
        · rw [map_known_ok hf] at heq
          cases heq
      · rw [map_pending hid] at heq
        cases heq
    · exact Or.inl hv
  | peek | length | resolveAll => exact Or.inl hv
  | resolve handle =>
    rw [next] at hv
    split at hv <;> exact Or.inl hv

theorem noted_after (answers : Answers Q σ) (source : σ) (operations : List (Operation Q)) :
    let p := (start (source, [])).after answers.noting operations
    ∃ created : List (Nat × Q), created.map Prod.snd = operations.filterMap Operation.question? ∧
      (∀ id hint q, .asked id hint q ∈ p.values → (id, q) ∈ created) ∧
      Noted created p.session := by
  induction operations using List.reverseRecOn with
  | nil => exact ⟨[], rfl, nofun, [], rfl, List.nodup_nil, List.Subset.refl _, nofun⟩
  | append_singleton operations op ih =>
    obtain ⟨created, hc, hv, hn⟩ := ih
    rw [after_append]
    generalize hp : (start (source, [])).after answers.noting operations = p at hv hn
    have proper : p.Proper := hp ▸ (Proper.start (source, [])).after answers.noting operations
    have sub := List.subset_append_left created (op.question?.toList.map (p.session.next, ·))
    refine ⟨_, ?_, fun id hint q hm => ?_, Noted.mono ?_ sub (fun _ _ h => h) rfl⟩
    · rw [List.map_append, hc, List.filterMap_append]
      rcases hq : op.question? with _ | q <;> simp [hq]
    · rcases asked_next hm with hm | ⟨rfl, hq⟩
      · exact sub (hv id hint q hm)
      · simp [hq]
    · have he := proper.next_effect answers.noting op
      have hs := he.settles proper
      show Noted created (p.next answers.noting op).session
      generalize p.next answers.noting op = q at he hs
      cases he with
      | nothing | copied | made | applied | failed => exact hn.mono (List.Subset.refl _) hs rfl
      | resolved path =>
        exact hn.path path fun id hint q hw => hv id hint q (proper.mem_of_reaches hw)

end Questions

/-- From the start on, values are computed late and at most once. Every question that is put was put
for another value that an operation made for it. -/
theorem memoizes_after (answers : Answers Q σ) (source : σ) (operations : List (Operation Q)) :
    ((start source).after answers operations).Memoizes answers ∧
    ((start (source, [])).after answers.noting operations).session.source.2.Subperm
      (operations.filterMap Operation.question?) := by
  refine ⟨((Proper.start source).after answers operations).memoizes answers, ?_⟩
  obtain ⟨created, hc, -, asked, hlog, hn, hsub, -⟩ := noted_after answers source operations
  rw [← hc, ← hlog]
  obtain ⟨l, hl, hs⟩ := List.subperm_of_subset (List.Nodup.of_map Prod.fst hn) hsub
  exact ⟨l.map Prod.snd, hl.map Prod.snd, hs.map Prod.snd⟩

/-- A function of an answer and its copy: one question is put, and both have the same bytes. -/
theorem memoizes_after_copy :
    let answers : Answers UInt8 Nat := fun question count => (.ok [question], count + 1)
    let p := (start 0).after answers
      [.pending none 7, .map 0 none fun bytes => .ok (bytes ++ bytes), .clone 1]
    let t := (p.after answers [.resolve 2, .resolve 1]).session
    ∃ v, p.values[1]? = some v ∧ p.values[2]? = some v ∧ v.peek p.session = none ∧
      v.resolve answers t = (.ok [7, 7], t) ∧ v.peek t = some [7, 7] ∧ t.source = 1 := by
  intro answers p t
  have memoizes := (memoizes_after answers 0
    [.pending none 7, .map 0 none fun bytes => .ok (bytes ++ bytes), .clone 1]).1
  obtain ⟨hr, hp⟩ := memoizes.stable (.mapped 1 none (.asked 0 none 7) fun bytes =>
    .ok (bytes ++ bytes)) (List.mem_of_getElem? (i := 1) rfl) [.resolve 1]
  exact ⟨_, rfl, rfl, rfl, hr, hp, rfl⟩

end Pool

end ChainRead
