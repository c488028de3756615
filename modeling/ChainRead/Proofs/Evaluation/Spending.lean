import ChainRead.Proofs.Evaluation.Creation
import ChainRead.Proofs.Value.Promise

/-! # What operations charge

An operation that charges bytes and pushes a value charges as many as the value declares. The values
that it reads on the way cost nothing.
-/

namespace ChainRead

/-- The length that a value declares: that of its bytes if they are known. -/
def Value.declared {Q : Type} : Value Q → Option Nat
  | known bytes => some bytes.length
  | v => v.hint?

namespace Eval

variable {σ α : Type} {env : Env σ} {s t : State σ}

/-- A value was pushed between two states, and what it declares was charged. -/
def PushesCharged (s t : State σ) : Prop :=
  ∃ v n, t.frame.stack.head? = some v ∧ v.declared = some n ∧
    t.trace.allocLeft + n = s.trace.allocLeft

theorem trace_kept {x : Eval σ α} {r : Except EvalError α} (h : x s = (r, t))
    (hx : (x s).2.trace = s.trace) : t.trace = s.trace := by
  rwa [h] at hx

theorem push_ok {v : Value Question} {a : Unit} (h : push v s = (.ok a, t)) :
    t = { s with frame := { s.frame with stack := v :: s.frame.stack } } := by
  rw [push, onFrame_apply, Frame.push] at h
  split at h <;> cases h
  rfl

theorem head_push {v : Value Question} {a : Unit} (h : push v s = (.ok a, t)) :
    t.frame.stack.head? = some v ∧ t.trace = s.trace := by
  rw [push_ok h]
  exact ⟨rfl, rfl⟩

theorem trace_onTrace {x : Fallible EvalError (Trace Question) α} {a : α}
    (h : onTrace x s = (.ok a, t)) : x s.trace = (.ok a, t.trace) := by
  rw [← congrArg (fun p => p.2.trace) h]
  exact Prod.ext (congrArg (fun p => p.1) h) rfl

theorem frame_onTrace {x : Fallible EvalError (Trace Question) α} {a : α}
    (h : onTrace x s = (.ok a, t)) : t.frame = s.frame := by
  rw [← congrArg (fun p => p.2.frame) h]
  rfl

theorem session_onTrace {x : Fallible EvalError (Trace Question) α} {a : α}
    (h : onTrace x s = (.ok a, t)) : t.session = s.session := by
  rw [← congrArg (fun p => p.2.session) h]
  rfl

theorem charged_alloc {n : Nat} {a : Unit} (h : onTrace (Trace.alloc n) s = (.ok a, t)) :
    t.trace.allocLeft + n = s.trace.allocLeft := by
  have := Trace.alloc_ok (trace_onTrace h)
  omega

theorem charged_allocWords {n size : Nat} (h : onTrace (Trace.allocWords n) s = (.ok size, t)) :
    t.trace.allocLeft + size = s.trace.allocLeft := by
  have := Trace.alloc_ok (Trace.allocWords_ok (trace_onTrace h)).2.2
  omega

theorem allocLeft_onTrace {x : Fallible EvalError (Trace Question) α} (hx : Trace.ChargesNone x)
    {a : α} (h : onTrace x s = (.ok a, t)) : t.trace.allocLeft = s.trace.allocLeft := by
  have := hx s.trace
  rwa [trace_onTrace h] at this

theorem allocLeft_readWords {a : Address} {count : Nat} {k : Word} {ws : List (Value Question)}
    (h : readWords a count k s = (.ok ws, t)) : t.trace.allocLeft = s.trace.allocLeft := by
  induction count generalizing k ws s with
  | zero =>
    cases h
    rfl
  | succ count ih =>
    obtain ⟨_, s₁, h₁, h⟩ := Fallible.bind_ok h
    obtain ⟨_, s₂, h₂, h⟩ := Fallible.bind_ok h
    obtain ⟨_, s₃, h₃, h⟩ := Fallible.bind_ok h
    cases h
    rw [ih h₃, trace_kept h₂ rfl, allocLeft_onTrace (.addStorage a k) h₁]

theorem allocLeft_readHeader {w : Word} (h : readHeader env s = (.ok w, t)) :
    t.trace.allocLeft = s.trace.allocLeft := by
  obtain ⟨_, s₁, ⟨⟩, h⟩ := Fallible.bind_ok h
  obtain ⟨_, s₂, h₂, h⟩ := Fallible.bind_ok h
  rw [trace_kept h rfl, allocLeft_onTrace (.addStorage _ _) h₂]

theorem pushesCharged {k : StateM (Session σ) (Value Question)} {v : Value Question} {n : Nat}
    {u u' : State σ} {a : Unit} (hk : ∀ session, (k session).1.declared = some n)
    (hn : u.trace.allocLeft + n = s.trace.allocLeft) (hc : create k u = (.ok v, u'))
    (hp : push v u' = (.ok a, t)) : PushesCharged s t := by
  obtain ⟨hv, ht⟩ := head_push hp
  refine ⟨v, n, hv, ?_, ?_⟩
  · cases hc
    exact hk u.session
  · rw [ht, trace_kept hc rfl, hn]

theorem readSlots_charges {a : Unit} (h : readSlots env s = (.ok a, t)) : PushesCharged s t := by
  obtain ⟨count, s₁, h₁, h⟩ := Fallible.bind_ok h
  obtain ⟨size, s₂, h₂, h⟩ := Fallible.bind_ok h
  obtain ⟨f, s₃, ⟨⟩, h⟩ := Fallible.bind_ok h
  obtain ⟨words, s₄, h₄, h⟩ := Fallible.bind_ok h
  obtain ⟨v, s₅, h₅, h⟩ := Fallible.bind_ok h
  refine pushesCharged (n := size) (fun _ => rfl) ?_ h₅ h
  rw [allocLeft_readWords h₄, charged_allocWords h₂, trace_kept h₁ rfl]

theorem spilledBytes_charges {a : Unit} {len : Nat} {u : State σ}
    (hu : u.trace.allocLeft = s.trace.allocLeft)
    (h : (spilledBytes env len >>= push) u = (.ok a, t)) : PushesCharged s t := by
  obtain ⟨v, u₁, h₁, h⟩ := Fallible.bind_ok h
  obtain ⟨_, u₂, h₂, h₁⟩ := Fallible.bind_ok h₁
  dsimp only at h₁
  split at h₁
  · cases h₁
  · obtain ⟨f, u₃, ⟨⟩, h₁⟩ := Fallible.bind_ok h₁
    obtain ⟨words, u₄, h₄, h₁⟩ := Fallible.bind_ok h₁
    obtain ⟨padded, u₅, h₅, h₁⟩ := Fallible.bind_ok h₁
    have hu₅ : u₅.trace.allocLeft + len = s.trace.allocLeft := by
      rw [trace_kept h₅ rfl, allocLeft_readWords h₄, charged_alloc h₂, hu]
    cases h₅
    exact pushesCharged (fun _ => rfl) hu₅ h₁ h

theorem readBytes_charges {a : Unit} (h : readBytes env s = (.ok a, t)) : PushesCharged s t := by
  obtain ⟨header, s₁, h₁, h⟩ := Fallible.bind_ok h
  generalize BytesHeader.decode header = d at h
  rcases d with cause | bytes | len
  · cases h
  · obtain ⟨_, s₂, h₂, h⟩ := Fallible.bind_ok h
    obtain ⟨hv, ht⟩ := head_push h
    exact ⟨_, _, hv, rfl, by rw [ht, charged_alloc h₂, allocLeft_readHeader h₁]⟩
  · exact spilledBytes_charges (allocLeft_readHeader h₁) h

theorem readArray_charges {a : Unit} (h : readArray env s = (.ok a, t)) : PushesCharged s t := by
  obtain ⟨step, s₁, h₁, h⟩ := Fallible.bind_ok h
  split at h
  · cases h
  · obtain ⟨header, s₂, h₂, h⟩ := Fallible.bind_ok h
    generalize arraySlots (clampSize header.toNat) step = slots at h
    rcases slots with cause | count
    · cases h
    · obtain ⟨size, s₃, h₃, h⟩ := Fallible.bind_ok h
      obtain ⟨f, s₄, ⟨⟩, h⟩ := Fallible.bind_ok h
      obtain ⟨words, s₅, h₅, h⟩ := Fallible.bind_ok h
      obtain ⟨v, s₆, h₆, h⟩ := Fallible.bind_ok h
      refine pushesCharged (n := size) (fun _ => rfl) ?_ h₆ h
      rw [allocLeft_readWords h₅, charged_allocWords h₃, allocLeft_readHeader h₂,
        trace_kept h₁ rfl]

theorem declared_map {v : Value Question} {n : Nat} {f : Bytes → Bytes}
    (hf : ∀ b, (f b).length = n) (session : Session σ) :
    (v.map (some n) (fun b => .ok (f b)) session).1.declared = some n := by
  cases v with
  | known b => exact congrArg some (hf b)
  | _ => rfl

theorem slice_charges {a : Unit} (h : slice env s = (.ok a, t)) : PushesCharged s t := by
  obtain ⟨len, s₁, h₁, h⟩ := Fallible.bind_ok h
  obtain ⟨start, s₂, h₂, h⟩ := Fallible.bind_ok h
  obtain ⟨v, s₃, h₃, h⟩ := Fallible.bind_ok h
  obtain ⟨_, s₄, h₄, h⟩ := Fallible.bind_ok h
  obtain ⟨w, s₅, h₅, h⟩ := Fallible.bind_ok h
  refine pushesCharged (declared_map fun b => length_slicePadded start len b) ?_ h₅ h
  rw [charged_alloc h₄, trace_kept h₃ rfl, trace_kept h₂ rfl, trace_kept h₁ rfl]

theorem pop_ok {v : Value Question} (h : pop s = (.ok v, t)) :
    ∃ rest, s.frame.stack = v :: rest ∧ t = { s with frame := { s.frame with stack := rest } } := by
  rw [pop, onFrame_apply, Frame.pop] at h
  split at h <;> cases h
  exact ⟨_, ‹_›, rfl⟩

theorem resolve_ok {v : Value Question} {bytes : Bytes} (h : resolve env v s = (.ok bytes, t)) :
    v.resolve env.source.answers s.session = (.ok bytes, t.session) ∧ t.trace = s.trace := by
  constructor
  · rw [← congrArg (fun p => p.2.session) h]
    exact Prod.ext (congrArg (fun p => p.1) h) rfl
  · exact trace_kept h rfl

/-- How two values in a row were made one, and for how many bytes that was charged: for the lengths
that are there of both without work, or for those of their bytes. -/
inductive Joining (env : Env σ) (s : Session σ) (x y : Value Question) :
    Value Question → Nat → Prop
  | peeked {m n : Nat} {b c : Bytes} (hm : x.length? s = some m) (hn : y.length? s = some n)
    (hb : x.peek s = some b) (hc : y.peek s = some c) :
    Joining env s x y (.known (b ++ c)) (m + n)
  | pending {m n : Nat} (id : Nat) (hm : x.length? s = some m) (hn : y.length? s = some n) :
    Joining env s x y (.joined id (some (clampSize (m + n))) [x, y]) (m + n)
  | resolved {b c : Bytes} {u : Session σ} (hb : x.resolve env.source.answers s = (.ok b, u))
    (hc : (y.resolve env.source.answers u).1 = .ok c) :
    Joining env s x y (.known (b ++ c)) (b.length + c.length)

theorem concat_ok {a : Unit} (h : concat env s = (.ok a, t)) :
    ∃ x y rest u n, s.frame.stack = y :: x :: rest ∧ t.frame.stack.head? = some u ∧
      Joining env s.session x y u n ∧ t.trace.allocLeft + clampSize n = s.trace.allocLeft := by
  obtain ⟨y, s₁, h₁, h⟩ := Fallible.bind_ok h
  obtain ⟨x, s₂, h₂, h⟩ := Fallible.bind_ok h
  obtain ⟨_, s₃, ⟨⟩, h⟩ := Fallible.bind_ok h
  obtain ⟨rest, hst, rfl⟩ := pop_ok h₁
  obtain ⟨rest', rfl : rest = x :: rest', rfl⟩ := pop_ok h₂
  rcases hm : x.length? s.session with _ | m <;> rcases hn : y.length? s.session with _ | n
  case some.some =>
    simp only [hm, hn] at h
    obtain ⟨_, s₄, h₄, h⟩ := Fallible.bind_ok h
    have charged := charged_alloc h₄
    rcases hp : x.peek s.session with _ | b <;> rcases hq : y.peek s.session with _ | c
    case some.some =>
      simp only [hp, hq] at h
      obtain ⟨hv, ht⟩ := head_push h
      exact ⟨x, y, rest', _, _, hst, hv, .peeked hm hn hp hq, ht ▸ charged⟩
    all_goals
      simp only [hp, hq] at h
      obtain ⟨v, s₅, h₅, h⟩ := Fallible.bind_ok h
      obtain ⟨hv, ht⟩ := head_push h
      cases h₅
      exact ⟨x, y, rest', _, _, hst, hv, .pending _ hm hn, ht ▸ charged⟩
  all_goals
    simp only [hm, hn] at h
    obtain ⟨b, s₄, h₄, h⟩ := Fallible.bind_ok h
    obtain ⟨c, s₅, h₅, h⟩ := Fallible.bind_ok h
    obtain ⟨_, s₆, h₆, h⟩ := Fallible.bind_ok h
    obtain ⟨hb, ht⟩ := resolve_ok h₄
    obtain ⟨hc, ht'⟩ := resolve_ok h₅
    obtain ⟨hv, ht''⟩ := head_push h
    refine ⟨x, y, rest', _, _, hst, hv, .resolved hb (congrArg Prod.fst hc), ?_⟩
    rw [ht'', charged_alloc h₆, ht', ht]

section Held

open Ledger

variable {w : Ledger} (hl : s.trace.allocLeft + w.charged ≤ maxSize)
include hl

/-- The clamped sum of two lengths that a program can come by is their sum once it was charged. -/
theorem charged_sum {m n left : Nat} (hm : bounded m w) (hn : bounded n w)
    (h : left + clampSize (m + n) = s.trace.allocLeft) :
    clampSize (m + n) = m + n ∧ left + (m + n) = s.trace.allocLeft := by
  have hsum : clampSize (m + n) = m + n := min_eq_left (bounded_add hm hn hl (by omega))
  constructor <;> omega

variable (hs : s.session.Honours True w)
include hs

theorem follow_charges {a : Unit} (hv : ∀ v ∈ s.frame.stack, held env.source.answers v w)
    (h : follow env s = (.ok a, t)) :
    ∃ v key, s.frame.stack.head? = some v ∧
      v.resolve env.source.answers s.session = (.ok key, t.session) ∧
      t.trace.allocLeft + (key.length + 32) = s.trace.allocLeft := by
  rw [follow, popBytes_eq] at h
  obtain ⟨key, s₁, h₁, h⟩ := Fallible.bind_ok h
  obtain ⟨v, s₂, h₂, h₁⟩ := Fallible.bind_ok h₁
  obtain ⟨rest, hst, rfl⟩ := pop_ok h₂
  obtain ⟨hr, ht⟩ := resolve_ok h₁
  obtain ⟨_, s₃, h₃, h⟩ := Fallible.bind_ok h
  rw [hst, List.forall_mem_cons] at hv
  have hb : bounded key.length w := by
    have hf := (held_resolve hv.1 _ hs).1
    rwa [hr] at hf
  cases h
  refine ⟨v, key, by rw [hst]; rfl, ?_, ?_⟩
  · rw [hr, session_onTrace h₃]
  · exact (charged_sum (n := 32) hl hb (Or.inl (by decide)) ((charged_alloc h₃).trans
      (congrArg Trace.allocLeft ht))).2

theorem concat_charges {a : Unit} (hv : ∀ v ∈ s.frame.stack, held env.source.answers v w)
    (h : concat env s = (.ok a, t)) : PushesCharged s t := by
  obtain ⟨x, y, rest, u, k, hst, hu, joining, charged⟩ := concat_ok h
  simp only [hst, List.forall_mem_cons] at hv
  obtain ⟨hy, hx, _⟩ := hv
  cases joining with
  | peeked hm hn hp hq =>
    obtain ⟨_, hleft⟩ := charged_sum hl (held_length? hx hs hm) (held_length? hy hs hn) charged
    refine ⟨_, _, hu, rfl, ?_⟩
    rw [List.length_append, held_peek hx hs hm hp, held_peek hy hs hn hq, hleft]
  | pending id hm hn =>
    obtain ⟨hc, hleft⟩ := charged_sum hl (held_length? hx hs hm) (held_length? hy hs hn) charged
    exact ⟨_, _, hu, congrArg some hc, hleft⟩
  | resolved hr hr' =>
    obtain ⟨hb, hs₁⟩ := held_resolve hx _ hs
    rw [hr] at hb hs₁
    have hc := (held_resolve hy _ hs₁).1
    rw [hr'] at hc
    refine ⟨_, _, hu, rfl, ?_⟩
    rw [List.length_append, (charged_sum hl hb hc charged).2]

end Held

end Eval

end ChainRead
