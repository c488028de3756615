import ChainRead.Proofs.Evaluation.Following
import ChainRead.Proofs.Word.Arithmetic

/-! # Arithmetic on the stack

A word operation takes its operands off the stack, resolves them and reads them as numbers, padded
on the left. The word of a plain function of these numbers takes their place, unless an operand is
wider than a word.
-/

namespace ChainRead

variable {σ : Type}

/-- What becomes of a state from which `operands` were taken for an operation that gives the number
`n`: the first operand that is wider than a word is refused, or the word of `n` is put on the
stack. -/
def State.operated (s : State σ) (operands : List Bytes) (n : Nat) :
    Except EvalError Unit × State σ :=
  match operands.find? fun bytes => 32 < bytes.length with
  | some wide => (.error (.encoding (.valueTooWide wide.length)), s)
  | none => (.ok (), s.withStack (.known (bigEndian 32 n) :: s.frame.stack))

theorem State.operated_cons (s : State σ) (bytes : Bytes) (operands : List Bytes) (n : Nat) :
    s.operated (bytes :: operands) n =
      if 32 < bytes.length then (.error (.encoding (.valueTooWide bytes.length)), s)
      else s.operated operands n := by
  rw [operated, List.find?_cons]
  by_cases h : 32 < bytes.length <;> simp only [h, decide_true, decide_false, if_true, if_false,
    operated]

theorem Value.resolveAll_cons_ok {Q : Type} {answers : Answers Q σ} {v : Value Q}
    {vs : List (Value Q)} {bytes : Bytes} {rest : List Bytes} {s t : Session σ}
    (h : resolveAll answers (v :: vs) s = (.ok (bytes :: rest), t)) :
    ∃ u, v.resolve answers s = (.ok bytes, u) ∧ resolveAll answers vs u = (.ok rest, t) := by
  rw [resolveAll] at h
  obtain ⟨b, u, hb, h⟩ := Fallible.bind_ok h
  obtain ⟨bs, w, hr, h⟩ := Fallible.bind_ok h
  cases h
  exact ⟨u, hb, hr⟩

namespace Eval

variable {env : Env σ} {s : State σ} {a b : Value Question} {rest : List (Value Question)}
  {x y : Bytes} {t : Session σ}

theorem operand_bind {α : Type} (bytes : Bytes) (f : Word → Eval σ α) (s : State σ) :
    ((.ofExcept ((Word.ofOperand bytes).mapError .encoding) : Eval σ Word) >>= f) s =
      if 32 < bytes.length then (.error (.encoding (.valueTooWide bytes.length)), s)
      else f (Word.ofBytes bytes) s := by
  rw [Fallible.bind_apply, Word.ofOperand]
  by_cases h : 32 < bytes.length
  · rw [if_pos h, if_neg (Nat.not_le_of_lt h)]
    rfl
  · rw [if_neg h, if_pos (Nat.le_of_not_lt h)]
    rfl

theorem pushWord_operated {w : Word} {n : Nat} (h : w.toNat = n)
    (room : s.frame.size < s.frame.maxStack) : pushWord w s = s.operated [] n := by
  subst h
  exact push_of_lt (.known w.toBytes) room

theorem binary_operated (op : BinaryOp) (room : rest.length < s.frame.maxStack)
    (hr : Value.resolveAll env.source.answers [a, b] s.session = (.ok [x, y], t)) :
    binary env op (s.withStack (b :: a :: rest)) =
      ((s.withSession t).withStack rest).operated [x, y]
        (op.onNumbers (ofBigEndian x) (ofBigEndian y)) := by
  obtain ⟨u, ha, hr⟩ := Value.resolveAll_cons_ok hr
  obtain ⟨v, hb, hr⟩ := Value.resolveAll_cons_ok hr
  cases hr
  let s' := (s.withSession t).withStack rest
  have popB : pop (s.withStack (b :: a :: rest)) = (.ok b, s.withStack (a :: rest)) := rfl
  have popA : pop (s.withStack (a :: rest)) = (.ok a, s.withStack rest) := rfl
  have resolveA : resolve env a (s.withStack rest) = (.ok x, (s.withSession u).withStack rest) :=
    resolve_of_ok ha
  have resolveB : resolve env b ((s.withSession u).withStack rest) = (.ok y, s') :=
    resolve_of_ok hb
  rw [binary, Fallible.bind_of_ok popB, Fallible.bind_of_ok popA, Fallible.bind_of_ok resolveA,
    Fallible.bind_of_ok resolveB, operand_bind, operand_bind, State.operated_cons,
    State.operated_cons]
  by_cases hx : 32 < x.length
  · rw [if_pos hx, if_pos hx]
  by_cases hy : 32 < y.length
  · rw [if_neg hx, if_neg hx, if_pos hy, if_pos hy]
  · rw [if_neg hx, if_neg hx, if_neg hy, if_neg hy]
    refine pushWord_operated ?_ room
    rw [BinaryOp.toNat_apply, Word.toNat_ofBytes (Nat.le_of_not_lt hx),
      Word.toNat_ofBytes (Nat.le_of_not_lt hy)]

theorem unary_operated (op : UnaryOp) (room : rest.length < s.frame.maxStack)
    (hr : a.resolve env.source.answers s.session = (.ok x, t)) :
    unary env op (s.withStack (a :: rest)) =
      ((s.withSession t).withStack rest).operated [x] (op.onNumber (ofBigEndian x)) := by
  rw [unary, popWord_eq, bind_assoc, Fallible.bind_of_ok (popBytes_of_ok hr), operand_bind,
    State.operated_cons]
  by_cases hx : 32 < x.length
  · rw [if_pos hx, if_pos hx]
  · rw [if_neg hx, if_neg hx]
    refine pushWord_operated ?_ room
    rw [UnaryOp.toNat_apply, Word.toNat_ofBytes (Nat.le_of_not_lt hx)]

/-- A word operation on values that resolve puts in their place the word of the number that it gives
for theirs. The values are resolved from the deepest on, and so are they refused if one is wider
than a word. -/
theorem operates_on_numbers (env : Env σ) {s : State σ} (size : s.frame.size ≤ s.frame.maxStack)
    {rest : List (Value Question)} {t : Session σ} :
    let taken := (s.withSession t).withStack rest
    (∀ (op : BinaryOp) {a b : Value Question} {x y : Bytes}, s.frame.stack = b :: a :: rest →
      Value.resolveAll env.source.answers [a, b] s.session = (.ok [x, y], t) →
      execute env (.binary op) s =
        taken.operated [x, y] (op.onNumbers (ofBigEndian x) (ofBigEndian y))) ∧
    ∀ (op : UnaryOp) {a : Value Question} {x : Bytes}, s.frame.stack = a :: rest →
      Value.resolveAll env.source.answers [a] s.session = (.ok [x], t) →
      execute env (.unary op) s = taken.operated [x] (op.onNumber (ofBigEndian x)) := by
  intro taken
  have top {vs : List (Value Question)} (h : s.frame.stack = vs) : s.withStack vs = s := h ▸ rfl
  have room {n : Nat} (h : s.frame.stack.length = rest.length + (n + 1)) :
      rest.length < s.frame.maxStack := by
    have hs : s.frame.stack.length ≤ s.frame.maxStack := size
    omega
  refine ⟨fun op a b x y hst hr => ?_, fun op a x hst hr => ?_⟩
  · have h := binary_operated op (room (n := 1) (by rw [hst]; rfl)) hr
    rwa [top hst] at h
  · obtain ⟨u, ha, hr⟩ := Value.resolveAll_cons_ok hr
    cases hr
    have h := unary_operated op (room (n := 0) (by rw [hst]; rfl)) ha
    rwa [top hst] at h

/-- On a full stack, a word that is still pending is raised to the power 256 and shifted by as many
places; of two operands that are wider than a word the deeper one is refused. -/
theorem operates_on_numbers_pending :
    let env : Env Nat := ⟨(Chain.withStorage {} 0 0 3).source, {}⟩
    let three : Value Question := .asked 0 (some 32) (.storage 0 0)
    let wide := fun n => Value.known (Q := Question) (List.replicate n 0)
    let above := fun b a : Value Question => { env.start ⟨0, []⟩ { source := 0, next := 1 } with
      frame := { stack := [b, a], maxStack := 2 } }
    let s := above (.known [1, 0]) three
    (execute env (.binary .pow) s).2.frame.stack = [.known (bigEndian 32 (3 ^ 256 % 2 ^ 256))] ∧
      (execute env (.binary .shiftLeft) s).2.frame.stack = [.known (bigEndian 32 0)] ∧
      (execute env (.binary .plus) (above (wide 34) (wide 33))).1 =
        .error (.encoding (.valueTooWide 33)) := by
  intro env three wide above s
  have resolved : Value.resolveAll env.source.answers [three, .known [1, 0]] s.session =
      (.ok [Word.toBytes 3, [1, 0]], _) := rfl
  have computed (op : BinaryOp) : execute env (.binary op) s = _ :=
    (operates_on_numbers env (s := s) (Nat.le_refl 2)).1 op rfl resolved
  have refused : execute env (.binary .plus) (above (wide 34) (wide 33)) = _ :=
    (operates_on_numbers env (s := above (wide 34) (wide 33)) (Nat.le_refl 2)).1 .plus rfl rfl
  exact ⟨by rw [computed]; rfl, by rw [computed]; rfl, by rw [refused]; rfl⟩

end Eval

end ChainRead
