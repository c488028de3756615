import ChainRead.Source.Basic
import ChainRead.Proofs.Value.Resolve
import ChainRead.Proofs.Word.Digits

/-! # How questions are answered

A question is put as one call, and the result of the call decides the answer. A source may answer
every call by its arguments alone; otherwise nothing is known of it but the calls that it logs.
-/

namespace ChainRead

def Question.call : Question → Call
  | .storage a s => .storage a s
  | .isContract a => .isContract a
  | .hashed h _ => .hashedBytes h

def Question.finish : (q : Question) → Except BackingError q.call.Answer → Outcome
  | .storage .., r => (r.mapError .backing).map Word.toBytes
  | .isContract _, r => (r.mapError .backing).map fun b => (Word.ofBool b).toBytes
  | .hashed h max, r => (r.mapError .backing).bind fun bytes => checkSupplied h max bytes

/-- The failures that answering a question can have. -/
inductive EvalError.FromSource : EvalError → Prop
  | backing (cause : BackingError) : FromSource (.backing cause)
  | suppliedBytes (size max : Nat) : FromSource (.budget (.suppliedBytes size max))
  | hashMismatch (expected actual : Word) : FromSource (.encoding (.hashMismatch expected actual))

namespace Question

theorem finish_error {q : Question} {r : Except BackingError q.call.Answer} {cause : BackingError}
    (h : r = .error cause) : q.finish r = .error (.backing cause) := by
  subst h
  cases q <;> rfl

theorem finish_fromSource {q : Question} {r : Except BackingError q.call.Answer} {e : EvalError}
    (h : q.finish r = .error e) : e.FromSource := by
  rcases r with cause | answer
  · rw [finish_error rfl] at h
    cases h
    exact .backing cause
  · cases q with
    | storage => cases h
    | isContract => cases h
    | hashed hash max =>
      have h : checkSupplied hash max answer = .error e := h
      unfold checkSupplied at h
      split at h
      · cases h
        exact .suppliedBytes _ _
      · split at h
        · cases h
          exact .hashMismatch _ _
        · cases h

/-- The length of every answer to a question, if there is one. -/
def size? : Question → Option Nat
  | storage .. | isContract _ => some 32
  | hashed .. => none

/-- How the lengths of the answers to a question are bounded. No byte string has `2 ^ 63` bytes. -/
def Sized (q : Question) (n : Nat) : Prop := n < 2 ^ 63 ∧ ∀ m, q.size? = some m → n = m

theorem Sized.eq {q : Question} {m n : Nat} (hq : q.size? = some m) (h : q.Sized n) : n = m :=
  h.2 m hq

theorem sized_word {q : Question} (h : q.size? = some 32) (w : Word) :
    q.Sized w.toBytes.length := by
  rw [Word.length_toBytes]
  exact ⟨by decide, fun m hm => Option.some.inj (h.symm.trans hm)⟩

end Question

namespace Source

variable {σ : Type} (src : Source σ)

theorem call_apply (c : Call) (s : σ) :
    src.call c s = ((src.answer c s).1.mapError .backing, (src.answer c s).2) := rfl

theorem answers_apply (q : Question) (s : σ) :
    src.answers q s = (q.finish (src.answer q.call s).1, (src.answer q.call s).2) := by
  cases q <;> simp only [answers, Fallible.bind_apply, call_apply] <;>
    rcases h : (src.answer _ s).1 with cause | answer <;>
    simp only [Question.call] <;> rw [h] <;> rfl

variable {src} in
theorem length_answers {q : Question} {n : Nat} {s : σ} {bytes : Bytes}
    (hq : q.size? = some n) (h : (src.answers q s).1 = .ok bytes) : bytes.length = n := by
  rw [answers_apply] at h
  rcases hr : (src.answer q.call s).1 with cause | answer <;> rw [hr] at h
  · rw [Question.finish_error rfl] at h
    cases h
  · cases q <;> cases hq <;> cases h <;> exact Word.length_toBytes _

theorem logged_answer (c : Call) (s : σ × List Call) :
    src.logged.answer c s = ((src.answer c s.1).1, ((src.answer c s.1).2, c :: s.2)) := rfl

/-- The source answers every call by its arguments, whatever its state. -/
def AnswersBy (f : (c : Call) → Except BackingError c.Answer) : Prop :=
  ∀ c s, (src.answer c s).1 = f c

/-- No byte string that the source supplies has `2 ^ 63` bytes. -/
def Bounded : Prop :=
  ∀ hash s bytes, (src.answer (.hashedBytes hash) s).1 = .ok bytes → bytes.length < 2 ^ 63

variable {src} in
theorem Bounded.sized (h : src.Bounded) {q : Question} {s : σ} {bytes : Bytes}
    (hb : (src.answers q s).1 = .ok bytes) : q.Sized bytes.length := by
  rw [answers_apply] at hb
  rcases hr : (src.answer q.call s).1 with cause | answer <;> rw [hr] at hb
  · rw [Question.finish_error rfl] at hb
    cases hb
  · cases q with
    | storage =>
      cases hb
      exact Question.sized_word rfl _
    | isContract =>
      cases hb
      exact Question.sized_word rfl _
    | hashed hash limit =>
      have hb : checkSupplied hash limit answer = .ok bytes := hb
      unfold checkSupplied at hb
      split at hb
      · cases hb
      · split at hb
        · cases hb
        · cases hb
          exact ⟨h hash s _ hr, fun _ h => nomatch h⟩

/-- Resolving values only adds to the calls that a source logs. -/
theorem kept_log : Session.Kept src.logged.answers fun s t => s.source.2 <:+ t.source.2 where
  refl s := List.suffix_rfl
  trans h h' := h.trans h'
  mark _ _ := List.suffix_rfl
  ask q s := by
    rw [answers_apply]
    exact List.suffix_cons _ _
  settle _ _ h := h

end Source

end ChainRead
