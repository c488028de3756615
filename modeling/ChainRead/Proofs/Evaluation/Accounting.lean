import Mathlib.Algebra.GroupWithZero.Nat
import ChainRead.Proofs.Evaluation.History
import ChainRead.Proofs.Evaluation.Spending

/-! # Accounting for allocated bytes

A history is accounted for if the bytes that were charged are those of the values that its
instructions charged for. The lengths of these values are settled by what they promise, so they do
not depend on when and in which order the values are resolved.
-/

namespace ChainRead

open Ledger

variable {Q σ : Type}

section Sizes

variable {answers : Answers Q σ} {v : Value Q} {w w' : Ledger} {s : Session σ} {n : Nat}

theorem size_of_declared (hv : held answers v w) (hn : v.declared = some n) (hw : w ≤ w')
    (hs : s.Honours True w') : v.size answers s = n := by
  obtain ⟨φ, hd, _, _⟩ := hv
  have hr := ((hd.mono hw).means.resolve v s hs).1
  unfold Value.size
  rcases h : (v.resolve answers s).1 with e | b <;> rw [h] at hr
  · cases v with
    | known => cases h
    | _ => exact congrArg (Option.getD · 0) hn
  · cases v with
    | known =>
      cases h
      exact Option.some.inj hn
    | _ => exact hd.hint hn hr

theorem learns_size {b : Bytes} {t : Session σ} (hr : v.resolve answers s = (.ok b, t))
    (ht : t.Honours True w) : t.Learns True w fun w' =>
      ∀ {v' u}, w' ≤ v' → u.Honours True v' → v.size answers u = b.length := by
  rcases hv : v.id? with _ | id
  · cases v with
    | known =>
      cases hr
      exact ht.learns fun _ _ => rfl
    | _ => cases hv
  · have ho : (v.resolve answers s).2.outcome? id = some (v.resolve answers s).1 :=
      Value.resolve_settles s hv
    rw [hr] at ho
    refine ht.learns_found ho fun w' _ hf {v' u} hw hu => ?_
    rw [Value.size, Value.resolve_of_settled hv (hu.found (hw.2.1 hf))]

end Sizes

def Instruction.charges : Instruction → Bool
  | .plain op => op.charges
  | _ => false

namespace Moment

variable (answers : Answers Question σ) (m : Moment σ)

variable {m} in
theorem bytes_of_free {s : Session σ} (h : m.instruction.charges = false) :
    m.bytes answers s = 0 := by
  obtain ⟨i, before, after⟩ := m
  cases i with
  | plain op => cases op <;> first | rfl | cases h
  | _ => rfl

/-- A value that an instruction left on the stack of its frame or among the outputs. -/
def Holds (v : Value Question) : Prop := v ∈ m.after.frame.stack ∨ v ∈ m.after.outputs

/-- The bytes to account for at a moment, whatever is resolved from then on. -/
def weighs (n : Nat) : Fact Ledger where
  toFun w := ∀ {w' s}, w ≤ w' → s.Honours True w' → m.bytes answers s = n
  monotone' _ _ hw h _ _ hw' hs := h (hw.trans hw') hs

structure Balanced (limit : Nat) (w : Ledger) : Prop where
  honours : m.after.session.Honours True w
  held : ∀ v, m.Holds v → held answers v w
  left : m.after.trace.allocLeft + w.charged = limit

end Moment

/-- The bytes that were charged are those to account for in a history, latest moment first. -/
inductive Accounted (answers : Answers Question σ) (limit : Nat) :
    List (Moment σ) → Ledger → Prop
  | nil {w : Ledger} (h : w.charged = 0) : Accounted answers limit [] w
  | cons {m : Moment σ} {H : List (Moment σ)} {u v w : Ledger} {n : Nat}
    (earlier : Accounted answers limit H u) (le : u ≤ v) (charged : v.charged = u.charged + n)
    (weighs : m.weighs answers n v) (balanced : m.Balanced answers limit v) (le' : v ≤ w)
    (kept : w.charged = v.charged) : Accounted answers limit (m :: H) w

namespace Accounted

variable {answers : Answers Question σ} {limit : Nat} {H H' : List (Moment σ)} {w w' : Ledger}

theorem steady : Steady (Accounted answers limit) := by
  intro H w w' h hw hc
  cases h with
  | nil h => exact .nil (hc.trans h)
  | cons earlier le charged weighs balanced le' kept =>
    exact .cons earlier le charged weighs balanced (le'.trans hw) (hc.trans kept)

/-- What was charged is the sum of the bytes to account for, in whatever session. -/
theorem sum_bytes (h : Accounted answers limit H w) (hw : w ≤ w') {s : Session σ}
    (hs : s.Honours True w') : (H.map (Moment.bytes answers s)).sum = w.charged := by
  induction h with
  | nil h => exact h.symm
  | @cons m H u v w n _ le charged weighs _ le' kept ih =>
    rw [List.map_cons, List.sum_cons, weighs (le'.trans hw) hs, ih (le.trans (le'.trans hw)), kept,
      charged, Nat.add_comm]

theorem suffix (h : Accounted answers limit H w) {m : Moment σ} (hH : m :: H' <:+ H) :
    ∃ v, v ≤ w ∧ Accounted answers limit (m :: H') v ∧ m.Balanced answers limit v := by
  induction h with
  | nil => cases List.suffix_nil.mp hH
  | cons earlier le charged weighs balanced le' kept ih =>
    rcases List.suffix_cons_iff.mp hH with heq | hH
    · cases heq
      exact ⟨_, le', .cons earlier le charged weighs balanced le_rfl rfl, balanced⟩
    · obtain ⟨v, hv, h⟩ := ih hH
      exact ⟨v, hv.trans (le.trans le'), h⟩

theorem held (h : Accounted answers limit H w) {m : Moment σ} (hm : m ∈ H) {v : Value Question}
    (hv : m.Holds v) : held answers v w := by
  induction h with
  | nil => cases hm
  | cons _ le _ _ balanced le' _ ih =>
    rcases List.mem_cons.mp hm with rfl | hm
    · exact (ChainRead.held answers v).monotone le' (balanced.held v hv)
    · exact (ChainRead.held answers v).monotone (le.trans le') (ih hm)

end Accounted

end ChainRead
