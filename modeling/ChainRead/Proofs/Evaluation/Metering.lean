import ChainRead.Proofs.Evaluation.Creation
import ChainRead.Proofs.Trace.Allocation
import ChainRead.Proofs.Trace.Values
import ChainRead.Proofs.Value.Promise

/-! # Metered simulations

In a metered simulation the traces differ in values alone and a ledger counts the bytes that were
charged. What the traces do then keeps everything related, whatever the values stand for, and
nothing is charged without being counted.
-/

namespace ChainRead

/-- A comparison of two sources by what a ledger says of values. -/
structure Metered (σ τ : Type) where
  config : Config
  left : Source σ
  right : Source τ
  value : Value Question → Value Question → Fact Ledger
  sessions : Session σ → Session τ → Ledger → Prop
  gone : σ → Prop
  /-- What is still known after both sides failed. -/
  failed : σ → τ → Prop
  failed_of : ∀ {s t w}, sessions s t w → failed s.source t.source

namespace Metered

variable {σ τ : Type} (M : Metered σ τ)

def Charges : Prop := ∀ {s t w}, M.sessions s t w → ∀ n, M.sessions s t (w.charge n)

def simulation : Simulation Ledger σ τ where
  config := M.config
  left := M.left
  right := M.right
  value := M.value
  target _ := ⊤
  inv m n w := M.sessions m.1 n.1 w ∧ Trace.Rel False (fun v v' => M.value v v' w) m.2 n.2 ∧
    m.2.allocLeft + w.charged = M.config.maxAllocBytes.toNat
  ended p q := M.gone p.2.1.source ∨
    ∃ e, p.1 = .error e ∧ q.1 = .error e ∧ M.failed p.2.1.source q.2.1.source
  ended_left e h := by
    rcases h with h | ⟨_, h, _⟩
    · exact Or.inl h
    · cases h
  ended_right q h := by
    rcases h with h | ⟨_, _, h, _⟩
    · exact Or.inl h
    · cases h

variable {M} {α : Type} {P : Fact Ledger}

open Coupling Eval Ledger

theorem fails {m : Memory σ} {n : Memory τ} {w : Ledger} (e : EvalError)
    (h : M.simulation.inv m n w) : M.simulation.ended (.error e, m) (.error e, n) :=
  Or.inr ⟨e, rfl, rfl, M.failed_of h.1⟩

theorem persists {s s' : State σ} {r : Except EvalError Unit} {q : Except EvalError Unit × State τ}
    (h : M.simulation.memory.ended (.ok (), s) q) (hs : M.gone s.session.source →
      M.gone s'.session.source) : M.simulation.memory.ended (r, s') q := by
  rcases h with h | ⟨_, h, _⟩
  · exact Or.inl (hs h)
  · cases h

theorem grow {m : Memory σ} {n : Memory τ} {w w' : Ledger} (h : M.simulation.inv m n w)
    (hw : w ≤ w') (hc : w'.charged = w.charged) {s : Session σ} {t : Session τ}
    (hs : M.sessions s t w') : M.simulation.inv (s, m.2) (t, n.2) w' :=
  ⟨hs, h.2.1.mono fun v v' hv => (M.value v v').monotone hw hv, hc ▸ h.2.2⟩

theorem traced {x y : Fallible EvalError (Trace Question) α}
    (h : ∀ w, P w → Trace.Alike False (fun v v' => M.value v v' w) x y) (hx : Trace.ChargesNone x) :
    M.simulation.memory.Follows P (onTrace x) (onTrace y) same where
  run {w s t} hw hi := by
    obtain ⟨hs, ht, hc⟩ := hi
    obtain ⟨he, hr⟩ := (h w hw).same ht
    have hn := hx s.trace
    simp only [onTrace, Fallible.zoom_apply]
    rcases hp : x s.trace with ⟨e | a, u⟩ <;> rcases hq : y t.trace with ⟨e' | a', u'⟩ <;>
      simp only [State.memory, hp, hq] at he hr hn <;> cases he
    · exact .halted (fails e ⟨hs, hr, hn ▸ hc⟩)
    · exact .both w a a le_rfl rfl rfl rfl ⟨hs, hr, hn ▸ hc⟩
  stays h := persists h id

theorem select (a : Address) : M.simulation.memory.Follows ⊤
    (onTrace (Trace.addTarget a false)) (onTrace (Trace.addTarget a false))
    fun _ _ => M.simulation.target a :=
  (traced (fun _ _ => .addTarget a false) (.addTarget a false)).weaken le_rfl fun _ _ => le_top

theorem addStorage (a : Address) (k : Word) : M.simulation.memory.Follows P
    (onTrace (Trace.addStorage a k)) (onTrace (Trace.addStorage a k)) same :=
  traced (fun _ _ => .addStorage a k) (.addStorage a k)

section Charges

variable (hM : M.Charges)
include hM

theorem charged {x : Fallible EvalError (Trace Question) α} {n : α → Nat} {K : α → Fact Ledger}
    (h : ∀ w, P w → Trace.Alike False (fun v v' => M.value v v' w) x x)
    (hn : ∀ {t a u}, x t = (.ok a, u) → n a ≤ t.allocLeft ∧ u.allocLeft = t.allocLeft - n a)
    (hK : ∀ {w left a}, P w → left + w.charged = M.config.maxAllocBytes.toNat → n a ≤ left →
      K a (w.charge (n a))) :
    M.simulation.memory.Follows P (onTrace x) (onTrace x) fun a b => Fact.of (a = b) ⊓ K a where
  run {w s t} hw hi := by
    obtain ⟨hs, ht, hc⟩ := hi
    obtain ⟨he, hr⟩ := (h w hw).same ht
    simp only [onTrace, Fallible.zoom_apply]
    rcases hp : x s.trace with ⟨e | a, u⟩ <;> rcases hq : x t.trace with ⟨e' | a', u'⟩ <;>
      simp only [State.memory, hp, hq] at he hr hc <;> cases he
    · exact .halted (Or.inr ⟨e, rfl, rfl, M.failed_of hs⟩)
    · obtain ⟨hl, hu⟩ := hn hp
      have hle := Ledger.le_charge (w := w) (n a)
      refine .both (w.charge (n a)) a a hle rfl rfl ⟨rfl, hK hw hc hl⟩ ⟨?_, ?_, ?_⟩
      · exact hM hs (n a)
      · exact hr.mono fun v v' hv => (M.value v v').monotone hle hv
      · simp only [State.memory, Ledger.charge, hu]
        omega
  stays h := persists h id

theorem alloc (n : Nat) : M.simulation.memory.Follows P (onTrace (Trace.alloc n))
    (onTrace (Trace.alloc n)) fun _ _ => bounded n :=
  (charged hM (fun _ _ => .alloc n) Trace.alloc_ok fun {w _ _} _ _ _ =>
    Or.inr (Nat.le_add_left n w.charged)).weaken le_rfl fun _ _ => inf_le_right

/-- Lengths whose sum is charged do not exceed any size together. -/
theorem allocSum (m n : Nat) : M.simulation.memory.Follows (bounded m ⊓ bounded n)
    (onTrace (Trace.alloc (clampSize (m + n)))) (onTrace (Trace.alloc (clampSize (m + n))))
    fun _ _ => bounded (m + n) ⊓ Fact.of (m + n ≤ maxSize) := by
  refine (charged hM (fun _ _ => .alloc _) Trace.alloc_ok fun {w left _} hw hl hn => ?_).weaken
    le_rfl fun _ _ => inf_le_right
  have hle : M.config.maxAllocBytes.toNat ≤ maxSize :=
    Nat.le_of_lt_succ M.config.maxAllocBytes.toNat_lt
  have hs : m + n ≤ maxSize := bounded_add hw.1 hw.2 (hl.trans_le hle) hn
  refine ⟨Or.inr ?_, hs⟩
  simp only [Ledger.charge, clampSize]
  omega

theorem allocWords (n : Nat) : M.simulation.memory.Follows P (onTrace (Trace.allocWords n))
    (onTrace (Trace.allocWords n)) fun size size' => Fact.of (size = size') ⊓ bounded size := by
  refine charged hM (fun _ _ => .allocWords n) (fun {t size u} h => ?_) fun {w _ size} _ _ _ =>
    Or.inr (Nat.le_add_left size w.charged)
  exact Trace.alloc_ok (Trace.allocWords_ok h).2.2

end Charges

end Metered

end ChainRead
