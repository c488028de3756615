import ChainRead.Proofs.Evaluation.Laziness
import ChainRead.Proofs.Evaluation.Spending
import ChainRead.Source.Chain

/-! # Slices

A slice has a byte for each of its places: the one that stands there in the byte string, or zero
past the end. So slices cut what was joined back into its parts, and a slice of a slice is a slice
of the whole.
-/

namespace ChainRead

section SlicePadded

variable (bytes : Bytes) (start len : Nat)

theorem getElem?_slicePadded (i : Nat) :
    (slicePadded start len bytes)[i]? =
      if i < len then some (bytes[start + i]?.getD 0) else none := by
  unfold slicePadded
  rw [List.getElem?_append, List.length_take, List.length_drop]
  split
  · next h =>
    rw [List.getElem?_take_of_lt (by omega), List.getElem?_drop, if_pos (by omega),
      List.getElem?_eq_getElem (by omega), Option.getD_some]
  · next h =>
    rw [List.getElem?_replicate]
    split
    · next hi =>
      rw [if_pos (by omega), List.getElem?_eq_none (by omega), Option.getD_none]
    · next hi => rw [if_neg (by omega)]

variable {bytes start len}

theorem slicePadded_eq {part : Bytes} (hl : part.length = len)
    (h : ∀ i < len, bytes[start + i]?.getD 0 = part[i]?.getD 0) :
    slicePadded start len bytes = part := by
  refine List.ext_getElem? fun i => ?_
  rw [getElem?_slicePadded]
  split
  · next hi => rw [h i hi, List.getElem?_eq_getElem (by omega), Option.getD_some]
  · next hi => rw [List.getElem?_eq_none (by omega)]

theorem slicePadded_append_left (a b : Bytes) : slicePadded 0 a.length (a ++ b) = a :=
  slicePadded_eq rfl fun i hi => by rw [Nat.zero_add, List.getElem?_append_left hi]

theorem slicePadded_append_right (a b : Bytes) : slicePadded a.length b.length (a ++ b) = b :=
  slicePadded_eq rfl fun i _ => by
    rw [List.getElem?_append_right (Nat.le_add_right _ _), Nat.add_sub_cancel_left]

theorem slicePadded_slicePadded {o₁ l₁ o₂ l₂ : Nat} (h : o₂ + l₂ ≤ l₁) (bytes : Bytes) :
    slicePadded o₂ l₂ (slicePadded o₁ l₁ bytes) = slicePadded (o₁ + o₂) l₂ bytes :=
  slicePadded_eq (length_slicePadded _ _ _) fun i hi => by
    rw [getElem?_slicePadded, getElem?_slicePadded, if_pos (by omega), if_pos hi, Nat.add_assoc]

/-- The end of the bytes that are there, if sizes are counted up to the largest one. -/
def sliceEnd (start len size : Nat) : Nat := min (clampSize (start + len)) size

/-- A slice can be made by copying the bytes up to its clamped end over zero bytes. -/
theorem slicePadded_copied (hb : bytes.length ≤ maxSize) (hs : start < bytes.length) :
    start ≤ sliceEnd start len bytes.length ∧ sliceEnd start len bytes.length - start ≤ len ∧
      slicePadded start len bytes =
        (bytes.take (sliceEnd start len bytes.length)).drop start ++
          List.replicate (len - (sliceEnd start len bytes.length - start)) 0 := by
  unfold sliceEnd clampSize
  refine ⟨by omega, by omega, ?_⟩
  have copied : (bytes.take (min (min (start + len) maxSize) bytes.length)).drop start =
      (bytes.drop start).take len := by
    rw [List.drop_take, List.take_eq_take_iff, List.length_drop]
    omega
  rw [slicePadded, copied, List.length_take, List.length_drop]
  congr 2
  omega

end SlicePadded

namespace Value

variable {Q σ : Type} {answers : Answers Q σ}

theorem resolve_mapped_ok {t : Session σ} {id : Nat} (hn : t.outcome? id = none)
    (hint : Option Nat) (v : Value Q) (f : Bytes → Bytes) :
    ((mapped id hint v fun b => .ok (f b)).resolve answers t).1 =
      (v.resolve answers t).1.map f := by
  rw [resolve, Session.once_of_not_settled hn, Fallible.bind_apply]
  rcases v.resolve answers t with ⟨_ | _, _⟩ <;> rfl

/-- A function that does not fail is applied to what a value resolves to, now or later. -/
theorem resolve_map_ok {s t : Session σ} {v w : Value Q} {hint : Option Nat} {f : Bytes → Bytes}
    (hs : s.Fresh) (h : v.map hint (fun b => .ok (f b)) s = (w, t)) :
    (w.resolve answers t).1 = (v.resolve answers t).1.map f := by
  have hn : s.outcome? s.next = none := hs _ le_rfl
  cases v with
  | known bytes =>
    cases h
    rw [resolve, resolve]
    rfl
  | _ =>
    cases h
    refine resolve_mapped_ok ?_ hint _ f
    exact hn

end Value

namespace Eval

variable {σ : Type}

/-- The operands of a slice: the value on top of the stack comes last. -/
def sliceOperands (env : Env σ) : Eval σ (Nat × Nat × Value Question) := do
  let len ← popSize env
  let start ← popSize env
  return (len, start, ← pop)

theorem slice_resolves {env : Env σ} {s t u : State σ} {len start : Nat} {v : Value Question}
    (operands : sliceOperands env s = (.ok (len, start, v), u)) (hu : u.session.Fresh)
    (h : execute env .slice s = (.ok (), t)) :
    ∃ w, t.frame.stack = w :: u.frame.stack ∧ (w.resolve env.source.answers t.session).1 =
      (v.resolve env.source.answers t.session).1.map (slicePadded start len) := by
  obtain ⟨_, s₁, h₁, operands⟩ := Fallible.bind_ok operands
  obtain ⟨_, s₂, h₂, operands⟩ := Fallible.bind_ok operands
  obtain ⟨_, s₃, h₃, operands⟩ := Fallible.bind_ok operands
  cases operands
  rw [execute, slice, Fallible.bind_of_ok h₁, Fallible.bind_of_ok h₂, Fallible.bind_of_ok h₃] at h
  obtain ⟨_, s₄, h₄, h⟩ := Fallible.bind_ok h
  obtain ⟨w, s₅, h₅, h⟩ := Fallible.bind_ok h
  have fresh : s₄.session.Fresh := by rwa [session_onTrace h₄]
  have made : v.map (some len) (fun b => .ok (slicePadded start len b)) s₄.session =
      (w, s₅.session) := by
    cases h₅
    rfl
  refine ⟨w, ?_, ?_⟩
  · rw [push_ok h, ← frame_onTrace h₄]
    cases h₅
    rfl
  · rw [push_ok h]
    exact Value.resolve_map_ok fresh made

/-- Every place of a slice has the byte that stands there, or zero past the end, and copying up to
a clamped end makes the same slice. So slices cut joined bytes back into their parts, and a slice of
a slice is one of the whole. This is what the operation makes of its operands. -/
theorem slice_indexes (env : Env σ) :
    (∀ bytes start len, (slicePadded start len bytes).length = len ∧
      ∀ i < len, (slicePadded start len bytes)[i]? = some (bytes[start + i]?.getD 0)) ∧
    (∀ (bytes : Bytes) start len, bytes.length ≤ maxSize → start < bytes.length →
      start ≤ sliceEnd start len bytes.length ∧ sliceEnd start len bytes.length - start ≤ len ∧
        slicePadded start len bytes =
          (bytes.take (sliceEnd start len bytes.length)).drop start ++
            List.replicate (len - (sliceEnd start len bytes.length - start)) 0) ∧
    (∀ a b : Bytes, slicePadded 0 a.length (a ++ b) = a ∧
      slicePadded a.length b.length (a ++ b) = b) ∧
    (∀ bytes o₁ l₁ o₂ l₂, o₂ + l₂ ≤ l₁ →
      slicePadded o₂ l₂ (slicePadded o₁ l₁ bytes) = slicePadded (o₁ + o₂) l₂ bytes) ∧
    ∀ s t u len start v, sliceOperands env s = (.ok (len, start, v), u) → u.session.Fresh →
      execute env .slice s = (.ok (), t) →
        ∃ w, t.frame.stack = w :: u.frame.stack ∧ (w.resolve env.source.answers t.session).1 =
          (v.resolve env.source.answers t.session).1.map (slicePadded start len) := by
  refine ⟨fun bytes start len => ⟨length_slicePadded start len bytes, fun i hi => ?_⟩,
    fun _ _ _ hb hs => slicePadded_copied hb hs,
    fun a b => ⟨slicePadded_append_left a b, slicePadded_append_right a b⟩,
    fun bytes _ _ _ _ h => slicePadded_slicePadded h bytes,
    fun s t u len start v => slice_resolves⟩
  rw [getElem?_slicePadded, if_pos hi]

/-- A word that is still pending is sliced across its end, and the slice is pending too. -/
theorem slice_indexes_pending :
    let env : Env Nat := ⟨(Chain.withStorage {} 0 0 3).source, {}⟩
    let three : Value Question := .asked 0 (some 32) (.storage 0 0)
    let below : State Nat := { env.start ⟨0, []⟩ { source := 0, next := 1 } with
      frame := { stack := [], maxStack := 3 } }
    let s := { below with frame := { below.frame with stack := [.known [2], .known [31], three] } }
    let e := sliceEnd 31 maxSize 32
    ∃ t w, sliceOperands env s = (.ok (2, 31, three), below) ∧ below.session.Fresh ∧
      execute env .slice s = (.ok (), t) ∧ t.frame.stack = [w] ∧
      (w.resolve env.source.answers t.session).1 = .ok [3, 0] ∧
      (31 ≤ e ∧ e - 31 ≤ maxSize) ∧ 1 + 2 ≤ 4 ∧
      slicePadded 1 2 (slicePadded 30 4 (Word.toBytes 3)) = [3, 0] := by
  intro env three below s e
  have operands : sliceOperands env s = (.ok (2, 31, three), below) := rfl
  have fresh : below.session.Fresh := fun _ _ => rfl
  have run : execute env .slice s = (.ok (), (execute env .slice s).2) := rfl
  obtain ⟨-, copied, -, cut, sliced⟩ := slice_indexes env
  obtain ⟨w, hw, resolves⟩ := sliced s _ below 2 31 three operands fresh run
  have copied := copied (Word.toBytes 3) 31 maxSize (by decide) (by decide)
  refine ⟨_, w, operands, fresh, run, hw, resolves.trans rfl, ⟨copied.1, copied.2.1⟩,
    by decide, ?_⟩
  rw [cut (Word.toBytes 3) 30 4 1 2 (by decide)]
  rfl

end Eval

end ChainRead
