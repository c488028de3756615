import ChainRead.Proofs.Trace.Calls
import ChainRead.Source.Basic

/-! # Which target a read belongs to

A slot read belongs to the nearest target before it. Later calls leave needs in their places, and
all that they may change is that the target selected last becomes required. So a read belongs to its
own target for good, and under the strict policy that target is required.
-/

namespace ChainRead

variable {Q : Type}

namespace Need

/-- The address that a need selects, and whether an account proof of it is required. -/
def selection? : Need Q → Option (Address × Bool)
  | target a r => some (a, r)
  | read _ => none

/-- The selection that a read behind these needs belongs to. -/
def nearest (needs : List (Need Q)) : Option (Address × Bool) :=
  (needs.filterMap selection?).getLast?

theorem nearest_append (l m : List (Need Q)) : nearest (l ++ m) = (nearest m).or (nearest l) := by
  unfold nearest
  rw [List.filterMap_append, List.getLast?_append]

theorem nearest_cons (n : Need Q) (l : List (Need Q)) :
    nearest (n :: l) = (nearest l).or n.selection? := by
  rw [← List.singleton_append, nearest_append]
  cases n <;> rfl

theorem nearest_reads (rs : List (Read Q)) : nearest (rs.map read) = none := by
  induction rs with
  | nil => rfl
  | cons r rs ih => rw [List.map_cons, nearest_cons, ih]; rfl

theorem selected_eq (l : List (Need Q)) : selected l = (nearest l).map Prod.fst := by
  induction l with
  | nil => rfl
  | cons n l ih =>
    rw [nearest_cons]
    cases n with
    | target a r =>
      rw [selected_target, ih]
      cases nearest l <;> rfl
    | read r =>
      rw [selected_read, ih]
      cases nearest l <;> rfl

/-- The same needs, of which the last target may have become required. -/
inductive Raised : List (Need Q) → List (Need Q) → Prop
  | nil : Raised [] []
  | cons (n : Need Q) {l m : List (Need Q)} (h : Raised l m) : Raised (n :: l) (n :: m)
  | raise (a : Address) (reads : List (Read Q)) :
    Raised (target a false :: reads.map read) (target a true :: reads.map read)

namespace Raised

variable {l m k : List (Need Q)}

theorem refl (l : List (Need Q)) : Raised l l := by
  induction l with
  | nil => exact .nil
  | cons n l ih => exact .cons n ih

theorem eq_of_reads {rs : List (Read Q)} (h : Raised (rs.map read) m) : m = rs.map read := by
  induction rs generalizing m with
  | nil => cases h with | nil => rfl
  | cons r rs ih => cases h with | cons _ h => rw [ih h, List.map_cons]

theorem reads_eq {rs : List (Read Q)} (h : Raised l (rs.map read)) : l = rs.map read := by
  induction rs generalizing l with
  | nil => cases h with | nil => rfl
  | cons r rs ih => cases h with | cons _ h => rw [ih h, List.map_cons]

theorem trans (h : Raised l m) (h' : Raised m k) : Raised l k := by
  induction h generalizing k with
  | nil => exact h'
  | cons n h ih =>
    cases h' with
    | cons _ h' => exact .cons n (ih h')
    | raise a reads =>
      -- only reads are behind this target, so nothing was raised before
      rw [h.reads_eq]
      exact .raise a reads
  | raise a reads =>
    cases h' with
    | cons _ h' =>
      rw [h'.eq_of_reads]
      exact .raise a reads

theorem append_left (k : List (Need Q)) (h : Raised l m) : Raised (k ++ l) (k ++ m) := by
  induction k with
  | nil => exact h
  | cons n k ih => exact .cons n ih

theorem split (h : Raised l m) (n : Nat) :
    Raised (l.take n) (m.take n) ∧ Raised (l.drop n) (m.drop n) := by
  induction h generalizing n with
  | nil => simpa using Raised.nil
  | cons x h ih =>
    cases n with
    | zero => exact ⟨.nil, .cons x h⟩
    | succ n => exact ⟨.cons x (ih n).1, (ih n).2⟩
  | raise a reads =>
    cases n with
    | zero => exact ⟨.nil, .raise a reads⟩
    | succ n =>
      rw [List.take_succ_cons, List.take_succ_cons, ← List.map_take]
      exact ⟨.raise a _, .refl _⟩

/-- The nearest target stays the same, or it becomes required. -/
theorem nearest (h : Raised l m) : Need.nearest m = Need.nearest l ∨
    ∃ a, Need.nearest l = some (a, false) ∧ Need.nearest m = some (a, true) := by
  induction h with
  | nil => exact Or.inl rfl
  | cons n _ ih =>
    simp only [nearest_cons]
    rcases ih with ih | ⟨a, hl, hm⟩
    · exact Or.inl (by rw [ih])
    · exact Or.inr ⟨a, by rw [hl]; rfl, by rw [hm]; rfl⟩
  | raise a reads =>
    simp only [nearest_cons, nearest_reads]
    exact Or.inr ⟨a, rfl, rfl⟩

theorem nearest_required (h : Raised l m) {a : Address} (hl : Need.nearest l = some (a, true)) :
    Need.nearest m = some (a, true) := by
  rcases h.nearest with h | ⟨b, hb, _⟩
  · exact h.trans hl
  · cases hl.symm.trans hb

end Raised

/-- Later needs: those before in their places, of which the last target may have become required,
and new ones behind them. -/
def Extends (l m : List (Need Q)) : Prop := ∃ kept new, m = kept ++ new ∧ Raised l kept

namespace Extends

variable {l m k : List (Need Q)}

theorem append (l new : List (Need Q)) : Extends l (l ++ new) := ⟨l, new, rfl, .refl l⟩

theorem refl (l : List (Need Q)) : Extends l l := ⟨l, [], (List.append_nil l).symm, .refl l⟩

theorem of_raised (h : Raised l m) : Extends l m := ⟨m, [], (List.append_nil m).symm, h⟩

theorem trans (h : Extends l m) (h' : Extends m k) : Extends l k := by
  obtain ⟨kept, new, rfl, hr⟩ := h
  obtain ⟨kept', new', rfl, hr'⟩ := h'
  obtain ⟨before, -⟩ := hr'.split kept.length
  rw [List.take_left] at before
  refine ⟨kept'.take kept.length, kept'.drop kept.length ++ new', ?_, hr.trans before⟩
  rw [← List.append_assoc, List.take_append_drop]

end Extends

/-- Every slot that is read stands under a target that is required. -/
def Anchored (needs : List (Need Q)) : Prop :=
  ∀ before s after, needs = before ++ read (.storage s) :: after →
    ∃ a, nearest before = some (a, true)

namespace Anchored

variable {l m : List (Need Q)}

theorem nil : Anchored ([] : List (Need Q)) := by
  intro before s after h
  cases before <;> cases h

theorem raised (h : Anchored l) (hr : Raised l m) : Anchored m := by
  rintro before s after rfl
  obtain ⟨hb, ha⟩ := hr.split before.length
  rw [List.take_left] at hb
  rw [List.drop_left] at ha
  generalize hd : l.drop before.length = d at ha
  -- the need at this place is the same read on both sides, so what is raised stands before it
  cases ha with
  | cons _ ha =>
    obtain ⟨a, hn⟩ := h (l.take before.length) s _ (by rw [← hd, List.take_append_drop])
    exact ⟨a, hb.nearest_required hn⟩

theorem concat (h : Anchored l) {n : Need Q}
    (hn : ∀ s, n = read (.storage s) → ∃ a, nearest l = some (a, true)) : Anchored (l ++ [n]) := by
  intro before s after he
  rcases List.eq_nil_or_concat after with rfl | ⟨after, x, rfl⟩
  · obtain ⟨rfl, hs⟩ := List.append_inj' he rfl
    cases hs
    exact hn s rfl
  · rw [List.concat_eq_append, ← List.cons_append, ← List.append_assoc] at he
    exact h before s after (List.append_inj' he rfl).1

end Anchored

/-- How the read of a slot is registered behind the needs `l`: under its target if that is the
nearest one, behind a new selection of its target, or under no target while none is selected and the
policy lets it. A strict policy wants the target required. -/
inductive Attributed (strict : Bool) (l : List (Need Q)) (a : Address) (s : Word) :
    List (Need Q) → Prop
  | under {kept : List (Need Q)} {r : Bool} (raised : Raised l kept)
    (last : nearest kept = some (a, r)) (required : strict = true → r = true) :
    Attributed strict l a s (kept ++ [read (.storage s)])
  | selecting : Attributed strict l a s (l ++ [target a strict] ++ [read (.storage s)])
  | unselected (lax : strict = false) (before : nearest l = none) :
    Attributed strict l a s (l ++ [read (.storage s)])

namespace Attributed

variable {strict : Bool} {l m : List (Need Q)} {a : Address} {s : Word}

theorem extends_needs (h : Attributed strict l a s m) : Extends l m := by
  cases h with
  | under raised => exact ⟨_, _, rfl, raised⟩
  | selecting =>
    rw [List.append_assoc]
    exact .append l _
  | unselected => exact .append l _

theorem anchored (h : Attributed true l a s m) (hl : Anchored l) : Anchored m := by
  cases h with
  | under raised last required =>
    refine (hl.raised raised).concat fun _ _ => ⟨a, ?_⟩
    rw [last, required rfl]
  | selecting =>
    have selected : Anchored (l ++ [target a true]) := hl.concat fun _ h => nomatch h
    refine selected.concat fun _ _ => ⟨a, ?_⟩
    rw [nearest_append]
    rfl
  | unselected lax => cases lax

end Attributed

end Need

namespace Trace

open Need

variable {t u : Trace Q}

theorem nearest_needs :
    nearest t.needs = t.sections.head?.map fun s => (s.address, s.required) := by
  unfold needs
  rw [nearest_append]
  rcases t.sections with _ | ⟨s, rest⟩
  · exact nearest_reads _
  · rw [List.reverse_cons, List.flatMap_append, nearest_append, List.flatMap_singleton,
      Section.needs, nearest_cons, nearest_reads]
    rfl

theorem raised_require (t : Trace Q) : Raised t.needs t.require.needs := by
  unfold require
  rcases ht : t.sections with _ | ⟨⟨a, r, reads⟩, rest⟩
  · exact .refl _
  · simp only [needs, ht, List.reverse_cons, List.flatMap_append, List.flatMap_singleton,
      Section.needs]
    refine .append_left _ (.append_left _ ?_)
    cases r
    · exact .raise a _
    · exact .refl _

theorem nearest_require {a : Address} (h : t.lastTarget? = some a) :
    nearest t.require.needs = some (a, true) := by
  rw [nearest_needs]
  unfold lastTarget? at h
  unfold require
  rcases ht : t.sections with _ | ⟨s, rest⟩ <;> rw [ht] at h <;> cases h
  rfl

theorem exists_nearest {a : Address} (h : t.lastTarget? = some a) :
    ∃ r, nearest t.needs = some (a, r) := by
  rw [← selected_needs, selected_eq] at h
  obtain ⟨⟨b, r⟩, hn, rfl⟩ := Option.map_eq_some_iff.mp h
  exact ⟨r, hn⟩

theorem attributed_aim {a : Address} {v : Trace Q} (s : Word) (hu : aim a t = (.ok (), u))
    (hv : v.needs = u.needs ++ [.read (.storage s)]) :
    Attributed t.requireTargetBeforeSlot t.needs a s v.needs := by
  rw [hv]
  unfold aim at hu
  split at hu
  · next hl =>
    cases hu
    split
    · exact .under (raised_require t) (nearest_require hl) fun _ => rfl
    · next lax =>
      obtain ⟨r, hn⟩ := exists_nearest hl
      exact .under (.refl _) hn fun h => absurd h lax
  · rw [← addTarget_eq] at hu
    have selects := (Effect.addTarget a t.requireTargetBeforeSlot).post (congrArg Prod.fst hu)
    rw [hu] at selects
    rw [selects]
    exact .selecting

theorem attributed_addStorage {a : Address} {s : Word} (h : addStorage a s t = (.ok (), u)) :
    Attributed t.requireTargetBeforeSlot t.needs a s u.needs := by
  by_cases ht : t.lastTarget? ≠ none ∨ t.requireTargetBeforeSlot = true
  · rw [addStorage_eq a s ht] at h
    obtain ⟨_, v, hv, hu⟩ := Fallible.bind_ok h
    have last := (Effect.aim a).post (congrArg Prod.fst hv)
    rw [hv] at last
    have slot := (Effect.addSlot s last.1).post (congrArg Prod.fst hu)
    rw [hu] at slot
    exact attributed_aim s hv slot
  · rw [not_or, not_not, Bool.not_eq_true] at ht
    rw [addStorage_of_unselected a s ht.1 ht.2] at h
    have none : selected t.needs = none := selected_needs.trans ht.1
    have slot := (Effect.register (needs_record (.storage s)) (fun u => .record _)
      (ProofKey.keys_unselected s none) (fun h => nomatch h)).post (congrArg Prod.fst h)
    rw [h] at slot
    rw [slot]
    refine .unselected ht.2 ?_
    rwa [selected_eq, Option.map_eq_none_iff] at none

theorem policy_record (r : Read Q) (t : Trace Q) :
    (record r t).requireTargetBeforeSlot = t.requireTargetBeforeSlot := by
  unfold record
  split <;> rfl

theorem aside_policy : Aside fun t : Trace Q => t.requireTargetBeforeSlot where
  pay k _ := policy_pay k
  select _ _ _ := rfl
  slot s t := policy_record _ t
  require t := by
    unfold require
    split <;> rfl

/-- A later trace: its needs extend those before, and if the policy is strict and every slot read
before was anchored, so is every slot read until then. -/
structure Follows (t u : Trace Q) : Prop where
  policy : u.requireTargetBeforeSlot = t.requireTargetBeforeSlot
  extends_needs : Extends t.needs u.needs
  anchored : t.requireTargetBeforeSlot = true → Anchored t.needs → Anchored u.needs

namespace Follows

theorem refl (t : Trace Q) : Follows t t := ⟨rfl, .refl _, fun _ h => h⟩

theorem trans {v : Trace Q} (h : Follows t u) (h' : Follows u v) : Follows t v where
  policy := h'.policy.trans h.policy
  extends_needs := h.extends_needs.trans h'.extends_needs
  anchored hs hb := h'.anchored (h.policy.trans hs) (h.anchored hs hb)

theorem concat {n : Need Q} (hp : u.requireTargetBeforeSlot = t.requireTargetBeforeSlot)
    (hu : u.needs = t.needs ++ [n]) (hn : ∀ s, n ≠ .read (.storage s)) : Follows t u where
  policy := hp
  extends_needs := by
    rw [hu]
    exact .append _ _
  anchored _ hb := by
    rw [hu]
    exact hb.concat fun s h => absurd h (hn s)

theorem of_silent (hp : u.requireTargetBeforeSlot = t.requireTargetBeforeSlot)
    (h : Silent t u) : Follows t u where
  policy := hp
  extends_needs := by
    rw [h.needs]
    exact .refl _
  anchored _ hb := by rwa [h.needs]

theorem require (t : Trace Q) : Follows t t.require where
  policy := aside_policy.require t
  extends_needs := .of_raised (raised_require t)
  anchored _ hb := hb.raised (raised_require t)

theorem addTarget {a : Address} {r : Bool} (h : (addTarget a r t).1 = .ok ()) :
    Follows t (addTarget a r t).2 :=
  .concat (aside_policy.addTarget a r t) ((Effect.addTarget a r).post h) fun _ h => nomatch h

theorem requireTarget {a : Address} (h : (requireTarget a t).1 = .ok ()) :
    Follows t (requireTarget a t).2 := by
  rw [requireTarget_eq] at h ⊢
  split at h
  · next ha =>
    rw [if_pos ha]
    exact .require t
  · next ha =>
    rw [if_neg ha, ← addTarget_eq]
    rw [← addTarget_eq] at h
    exact .addTarget h

theorem addStorage {a : Address} {s : Word} (h : addStorage a s t = (.ok (), u)) :
    Follows t u where
  policy := (congrArg (fun p => p.2.requireTargetBeforeSlot) h).symm.trans
    (aside_policy.addStorage a s t)
  extends_needs := (attributed_addStorage h).extends_needs
  anchored hs := by
    have attributed := attributed_addStorage h
    rw [hs] at attributed
    exact attributed.anchored

theorem addHashed {hash : Word} {v : Value Q} (h : (addHashed hash v t).1 = .ok ()) :
    Follows t (addHashed hash v t).2 := by
  refine .concat ?_ ((Effect.addHashed hash v).post h) fun _ h => nomatch h
  rw [addHashed_eq]
  exact aside_policy.register _ (policy_record _) t

theorem alloc (n : Nat) (t : Trace Q) : Follows t (alloc n t).2 := by
  refine .of_silent ?_ (silent_alloc n t)
  unfold Trace.alloc
  split <;> rfl

theorem allocWords (n : Nat) (t : Trace Q) : Follows t (allocWords n t).2 := by
  unfold Trace.allocWords
  split
  · rw [Fallible.bind_apply]
    have h := alloc (n * 32) t
    rcases ha : Trace.alloc (n * 32) t with ⟨_ | _, u⟩ <;> rw [ha] at h <;> exact h
  · exact .refl t

end Follows

end Trace

namespace TraceCall

open Need Trace

variable {t u : Trace Q}

theorem run_follows {c : TraceCall Q} (hc : c.registers = true → (c.run t).1 = .ok ()) :
    Follows t (c.run t).2 := by
  cases c with
  | addTarget a r => exact .addTarget (hc rfl)
  | requireTarget a => exact .requireTarget (hc rfl)
  | addStorage a s => exact .addStorage (Prod.ext (hc rfl) rfl)
  | addHashed hash v => exact .addHashed (hc rfl)
  | alloc n => exact .alloc n t
  | allocWords n =>
    have hs : ((allocWords n).run t).2 = (Trace.allocWords n t).2 := by
      simp only [run, Fallible.bind_apply]
      rcases Trace.allocWords n t with ⟨_ | _, _⟩ <;> rfl
    rw [hs]
    exact .allocWords n t

theorem Succeed.follows {cs : List (TraceCall Q)} (h : Succeed cs t u) : Follows t u := by
  induction h with
  | nil => exact .refl _
  | cons hc _ ih => exact (run_follows hc).trans ih

/-- Whatever calls made a trace `t` and whatever calls came later, the needs of `t` keep their
places and contents, except that the target selected last may become required. A slot that is read
next is registered once, under its own target or, by a lax policy, under none while none is
selected. A strict policy has every slot read under a target that is required. -/
theorem reads_attributed (c : Config) {calls later : List (TraceCall Q)}
    (h : Succeed calls (new c) t) (h' : Succeed later t u) :
    Extends t.needs u.needs ∧ (c.requireTargetBeforeSlot = true → Anchored u.needs) ∧
      ∀ a s v, Trace.addStorage a s u = (.ok (), v) →
        Attributed c.requireTargetBeforeSlot u.needs a s v.needs := by
  have made : Follows (new c) u := h.follows.trans h'.follows
  refine ⟨h'.follows.extends_needs, fun hs => made.anchored hs .nil, fun a s v hv => ?_⟩
  have attributed := attributed_addStorage hv
  rwa [made.policy] at attributed

/-- A trace in which a target was left for another after one of its slots was read. -/
def twoTargets : Trace Question :=
  { new {} with
    sections := [⟨2, false, []⟩, ⟨1, true, [.storage 5]⟩]
    proofsLeft := 125
    targets := [2, 1]
    slots := [(1, 5)] }

/-- A slot of the target that was left selects it again. -/
theorem reads_attributed_stale :
    ∃ u v : Trace Question,
      Succeed [.addTarget 1 false, .addStorage 1 5, .addTarget 2 false] (new {}) twoTargets ∧
      Succeed [.addStorage 2 5, .requireTarget 2] twoTargets u ∧
      Trace.addStorage 1 6 u = (.ok (), v) ∧ Extends twoTargets.needs u.needs ∧
      Anchored u.needs ∧ Attributed true u.needs 1 6 v.needs ∧
      v.needs = [.target 1 true, .read (.storage 5), .target 2 true, .read (.storage 5),
        .target 1 true, .read (.storage 6)] := by
  have h : Succeed [.addTarget 1 false, .addStorage 1 5, .addTarget 2 false] (new {}) twoTargets :=
    .cons (fun _ => rfl) <| .cons (fun _ => rfl) <| .cons (fun _ => rfl) <| .nil _
  have h' : Succeed [.addStorage 2 5, .requireTarget 2] twoTargets _ :=
    .cons (fun _ => rfl) <| .cons (fun _ => rfl) <| .nil _
  obtain ⟨keeps, anchored, attributed⟩ := reads_attributed {} h h'
  exact ⟨_, _, h, h', rfl, keeps, anchored rfl, attributed 1 6 _ rfl, rfl⟩

end TraceCall

end ChainRead
