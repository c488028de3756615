import ChainRead.Proofs.Evaluation.Spending
import ChainRead.Proofs.Trace.Registering

/-! # Reading slots in a row

Slots in a row are registered under the keys of the slots, as long as there are proofs for them, and
what is read is one question for each slot. Nothing is fetched before the values are used.
-/

namespace ChainRead

/-- Slots in a row from `start` on. The last slot is followed by the first. -/
def consecutive (start : Word) (count : Nat) : List Word :=
  (List.range count).map fun i => start + BitVec.ofNat 256 i

theorem consecutive_succ (start : Word) (count : Nat) :
    consecutive start (count + 1) = start :: consecutive (start + 1) count := by
  unfold consecutive
  rw [List.range_succ_eq_map, List.map_cons, List.map_map]
  refine congrArg₂ List.cons (BitVec.add_zero start) (List.map_congr_left fun i _ => ?_)
  show start + BitVec.ofNat 256 (i + 1) = start + 1 + BitVec.ofNat 256 i
  rw [BitVec.add_assoc, Nat.add_comm i 1, BitVec.ofNat_add]
  rfl

theorem length_consecutive (start : Word) (count : Nat) :
    (consecutive start count).length = count := by
  rw [consecutive, List.length_map, List.length_range]

def slotNeeds (slots : List Word) : List (Need Question) := slots.map fun k => .read (.storage k)

/-- Pending words of slots of a target, numbered from `next` on. -/
def pendingWords (a : Address) (next : Nat) (slots : List Word) : List (Value Question) :=
  slots.mapIdx fun i k => .asked (next + i) (some 32) (.storage a k)

theorem pendingWords_cons (a : Address) (next : Nat) (k : Word) (slots : List Word) :
    pendingWords a next (k :: slots) =
      .asked next (some 32) (.storage a k) :: pendingWords a (next + 1) slots := by
  unfold pendingWords
  rw [List.mapIdx_cons]
  refine congrArg₂ List.cons rfl (congrArg (List.mapIdx · slots) (funext fun i => ?_))
  funext k
  exact congrArg (Value.asked · _ _) (Nat.add_right_comm next i 1)

namespace Eval

open Trace

variable {σ α : Type} {s t : State σ} {ks : List ProofKey}

theorem onTrace_registers {x : Fallible EvalError (Trace Question) α}
    {P : α → Trace Question → Prop} (h : Registers id s.trace ks P (x s.trace)) :
    Registers State.trace s.trace ks (fun a t => ∃ u, t = { s with trace := u } ∧ P a u)
      (onTrace x s) where
  paid hk := by
    obtain ⟨a, u, hx, hp, hP⟩ := h.paid hk
    refine ⟨a, { s with trace := u }, ?_, hp, u, rfl, hP⟩
    rw [onTrace, Fallible.zoom_apply, hx]
  refused hk := by
    rw [onTrace, Fallible.zoom_apply]
    exact h.refused hk

theorem readWords_registers {a : Address} (h : Aimed a s.trace) (count : Nat) (start : Word) :
    Registers State.trace s.trace ((consecutive start count).map (s.trace.slotKey a))
      (fun words t => words = pendingWords a s.session.next (consecutive start count) ∧ ∃ u,
        t = { s with trace := u, session := { s.session with next := s.session.next + count } } ∧
        u.needs = s.trace.needs ++ slotNeeds (consecutive start count) ∧ AimedFrom a s.trace u)
      (readWords a count start s) := by
  induction count generalizing start s with
  | zero => exact .nothing State.trace .rfl ⟨rfl, _, rfl, (List.append_nil _).symm, h, rfl, rfl⟩
  | succ count ih =>
    rw [consecutive_succ]
    refine (onTrace_registers (h.registers start)).bind
      ((consecutive (start + 1) count).map (s.trace.slotKey a)) fun _ _ _ hu => ?_
    obtain ⟨u, rfl, hn, hf⟩ := hu
    rw [← hf.key]
    let s' : State σ :=
      { s with trace := u, session := { s.session with next := s.session.next + 1 } }
    have rest := ih (s := s') hf.aimed (start + 1)
    refine rest.andThen (b := fun words =>
      .asked s.session.next (some 32) (.storage a start) :: words) (g := fun _ t => t)
      (fun _ _ => rfl) fun words t ht => ⟨rfl, ?_⟩
    obtain ⟨rfl, v, rfl, hn', hf'⟩ := ht
    refine ⟨?_, v, ?_, ?_, hf'.aimed, hf'.key.trans hf.key, hf'.allocLeft.trans hf.allocLeft⟩
    · rw [pendingWords_cons]
    · show _ = { s with trace := v, session := _ }
      rw [Nat.add_comm count 1, ← Nat.add_assoc]
    · rw [hn', hn, List.append_assoc]
      rfl

def charged (s : State σ) (bytes : Nat) : State σ :=
  { s with trace := { s.trace with allocLeft := s.trace.allocLeft - bytes } }

theorem onTrace_alloc {n : Nat} (h : n ≤ s.trace.allocLeft) :
    onTrace (Trace.alloc n) s = (.ok (), charged s n) := by
  rw [onTrace, Fallible.zoom_apply, Trace.alloc, if_pos h]
  rfl

theorem onTrace_alloc_error {n : Nat} (h : ¬ n ≤ s.trace.allocLeft) :
    onTrace (Trace.alloc n) s = (.error (.budget (.allocOverflow s.trace.allocLimit)), s) := by
  rw [onTrace, Fallible.zoom_apply, Trace.alloc, if_neg h]

theorem onTrace_allocWords {n : Nat} (hm : n * 32 ≤ maxSize) (h : n * 32 ≤ s.trace.allocLeft) :
    onTrace (Trace.allocWords n) s = (.ok (n * 32), charged s (n * 32)) := by
  rw [onTrace, Fallible.zoom_apply, Trace.allocWords, if_pos hm, Fallible.bind_apply, Trace.alloc,
    if_pos h]
  rfl

theorem onTrace_allocWords_error {n : Nat} (h : maxSize < n * 32 ∨ s.trace.allocLeft < n * 32) :
    onTrace (Trace.allocWords n) s =
      (.error (.budget (.allocOverflow s.trace.allocLimit)), s) := by
  rw [onTrace, Fallible.zoom_apply, Trace.allocWords]
  by_cases hm : n * 32 ≤ maxSize
  · rw [if_pos hm, Fallible.bind_apply, Trace.alloc, if_neg (by omega)]
  · rw [if_neg hm]
    rfl

/-- Between two states bytes were charged and slots of a target were registered. As many values were
made as there are slots, and `more`, and nothing was asked. -/
structure Registered (s : State σ) (bytes : Nat) (slots : List Word) (more : Nat) (t : State σ) :
    Prop where
  charged : t.trace.allocLeft = s.trace.allocLeft - bytes
  needs : t.trace.needs = s.trace.needs ++ slotNeeds slots
  session : t.session = { s.session with next := s.session.next + slots.length + more }

/-- A read goes on from a state: slots of the selected target are registered and a value is pushed,
as far as there are proofs for the slots and there is room for the value. -/
inductive GoesOn (s : State σ) (bytes : Nat) (slots : List Word) (more : Nat) (v : Value Question) :
    Except EvalError Unit × State σ → Prop
  | refused {t : State σ}
    (proofs : ¬ s.trace.AffordsAll (slots.map (s.trace.slotKey s.frame.target))) :
    GoesOn s bytes slots more v (.error (.budget (.tooManyProofs s.trace.proofLimit)), t)
  | full {t : State σ} (proofs : s.trace.AffordsAll (slots.map (s.trace.slotKey s.frame.target)))
    (room : ¬ s.frame.size < s.frame.maxStack) (registered : Registered s bytes slots more t) :
    GoesOn s bytes slots more v (.error (.stack (.overflow s.frame.maxStack)), t)
  | pushed {t : State σ} (proofs : s.trace.AffordsAll (slots.map (s.trace.slotKey s.frame.target)))
    (room : s.frame.size < s.frame.maxStack) (registered : Registered s bytes slots more t)
    (frame : t.frame = { s.frame with stack := v :: s.frame.stack }) :
    GoesOn s bytes slots more v (.ok (), t)

theorem goesOn_push {v : Value Question} {bytes more : Nat} {slots : List Word}
    (proofs : s.trace.AffordsAll (slots.map (s.trace.slotKey s.frame.target)))
    (ht : Registered s bytes slots more t) (hf : t.frame = s.frame) :
    GoesOn s bytes slots more v (push v t) := by
  rw [push, onFrame_apply, hf, Frame.push]
  by_cases hr : s.frame.size < s.frame.maxStack
  · rw [if_pos hr]
    exact .pushed proofs hr ⟨ht.charged, ht.needs, ht.session⟩ rfl
  · rw [if_neg hr]
    exact .full proofs hr ⟨ht.charged, ht.needs, ht.session⟩

/-- Slots in a row are read once their bytes are charged, and what is made of them is pushed. -/
theorem goesOn_readWords (h : Aimed s.frame.target s.trace) (bytes : Nat) (count : Nat)
    (start : Word) {make : List (Value Question) → Eval σ (Value Question)} (more : Nat)
    (value : List (Value Question) → Nat → Value Question)
    (hmake : ∀ words u, make words u = (.ok (value words u.session.next),
      { u with session := { u.session with next := u.session.next + more } })) :
    GoesOn s bytes (consecutive start count) more
      (value (pendingWords s.frame.target s.session.next (consecutive start count))
        (s.session.next + count))
      ((readWords s.frame.target count start >>= fun words => make words >>= push)
        (charged s bytes)) := by
  have same : SameCharges s.trace (charged s bytes).trace :=
    ⟨rfl, rfl, funext fun k => by cases k <;> rfl⟩
  have affords {ks : List ProofKey} :
      s.trace.AffordsAll ks ↔ (charged s bytes).trace.AffordsAll ks :=
    (Paid.nil same).affordsAll_append
  have hw := readWords_registers (s := charged s bytes) (a := s.frame.target) h count start
  by_cases ha : s.trace.AffordsAll ((consecutive start count).map (s.trace.slotKey s.frame.target))
  · obtain ⟨words, _, hr, _, rfl, u, rfl, hn, hf⟩ := hw.paid (affords.mp ha)
    rw [Fallible.bind_of_ok hr, Fallible.bind_of_ok (hmake _ _)]
    refine goesOn_push ha ⟨hf.allocLeft, hn, ?_⟩ rfl
    rw [length_consecutive]
    rfl
  · have he := hw.refused (mt affords.mpr ha)
    rw [Fallible.bind_apply]
    rcases hr : readWords s.frame.target count start (charged s bytes) with ⟨e | words, u⟩ <;>
      rw [hr] at he <;> cases he
    exact .refused ha

theorem addStorage_ok {a : Address} {k : Word} {u : Unit}
    (h : onTrace (Trace.addStorage a k) s = (.ok u, t)) :
    ∃ v, t = { s with trace := v } ∧
      (∃ n, Aims a s.trace.needs n ∧ v.needs = n ++ slotNeeds [k]) ∧ AimedFrom a s.trace v := by
  have hr := onTrace_registers (s := s) (addStorage_registers (t := s.trace) a k)
  rw [h] at hr
  exact hr.of_ok.2

end Eval

end ChainRead
