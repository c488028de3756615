import Mathlib.Order.Bounds.Basic
import ChainRead.Proofs.Evaluation.Reading
import ChainRead.Proofs.Trace.Operations
import ChainRead.Source.Chain

/-! # Headers under the allocation budget

A header word may claim any length below `2 ^ 256`. Lengths are clamped to sizes before they are
charged, and yet the charge goes through exactly if the length as it stands is within the budget:
wherever a clamp loses something, the size in bytes of what remains is too large for any budget.
-/

namespace ChainRead

/-- The least number of slots for `len` elements of `step` bytes, where narrow elements share a slot
and wide ones take whole slots. -/
def IsSlotCount (len step n : Nat) : Prop :=
  (step < 32 → IsLeast {m | len ≤ m * (32 / step)} n) ∧ (32 ≤ step → n = len * ((step + 31) / 32))

theorem isLeast_shares {p : Nat} (hp : 0 < p) (len : Nat) :
    IsLeast {m | len ≤ m * p} ((len + p - 1) / p) := by
  have h (m : Nat) : len ≤ m * p ↔ (len + p - 1) / p ≤ m := by
    rw [Nat.div_le_iff_le_mul_add_pred hp, Nat.mul_comm p m]
    omega
  exact ⟨(h _).mpr le_rfl, fun m hm => (h m).mp hm⟩

theorem exists_isSlotCount (len : Nat) {step : Nat} (hs : 1 ≤ step) :
    ∃ n, IsSlotCount len step n := by
  by_cases h : step < 32
  · exact ⟨_, fun _ => isLeast_shares (Nat.div_pos (by omega) hs) len, fun h' => by omega⟩
  · exact ⟨_, fun h' => absurd h' h, fun _ => rfl⟩

/-- A count that is exact up to a clamp gives the exact size in bytes, or one beyond any size. -/
theorem clamped_words (len : Nat) {n count : Nat} (hexact : len ≤ maxSize → count = clampSize n)
    (hlong : maxSize < len → maxSize ≤ count * 32) (hn : len ≤ n * 32) :
    32 * (n + 1) ≤ maxSize ∧ count = n ∧ clampSize (count + 1) = n + 1 ∨
      maxSize < 32 * (n + 1) ∧ maxSize < clampSize (count + 1) * 32 := by
  unfold clampSize maxSize at *
  by_cases hl : len ≤ 18446744073709551615
  · have := hexact hl
    omega
  · have := hlong (by omega)
    omega

theorem arraySlots_exact {len step n : Nat} (hs : 1 ≤ step) (hn : IsSlotCount len step n) :
    ∃ count, arraySlots (clampSize len) step = .ok count ∧
      (32 * (n + 1) ≤ maxSize ∧ count = n ∧ clampSize (count + 1) = n + 1 ∨
        maxSize < 32 * (n + 1) ∧ maxSize < clampSize (count + 1) * 32) := by
  unfold arraySlots
  rw [if_neg (by omega)]
  by_cases h : step < 32
  · have hp : 0 < 32 / step := Nat.div_pos (by omega) hs
    have hp' : 32 / step ≤ 32 := Nat.div_le_self 32 step
    have hn := hn.1 h
    rw [if_pos h]
    generalize 32 / step = p at *
    -- a slot has at most 32 shares, so a clamped length still takes too many bytes
    have shares (m : Nat) : m * p ≤ m * 32 := Nat.mul_le_mul_left m hp'
    refine ⟨_, rfl, clamped_words len (fun hl => ?_) (fun hl => ?_)
      (hn.1.trans (shares n))⟩
    · have hle : n ≤ len := hn.2 (Nat.le_mul_of_pos_right len hp)
      rw [clampSize, clampSize, min_eq_left hl, min_eq_left (hle.trans hl)]
      exact (isLeast_shares hp len).unique hn
    · have hc := (isLeast_shares hp (clampSize len)).1
      rw [clampSize, min_eq_right hl.le] at hc ⊢
      exact hc.trans (shares _)
  · have hk : 1 ≤ (step + 31) / 32 := by omega
    have hn := hn.2 (by omega)
    rw [if_neg h]
    generalize (step + 31) / 32 = k at *
    have wide (m : Nat) : m ≤ m * k := Nat.le_mul_of_pos_right m hk
    refine ⟨_, rfl, clamped_words len (fun hl => ?_) (fun hl => ?_) ?_⟩
    · rw [hn, clampSize, clampSize, clampSize, min_eq_left hl]
    · have := wide maxSize
      rw [clampSize, clampSize, min_eq_right hl.le, min_eq_right this]
      omega
    · have := wide len
      omega

namespace Eval

open Trace

variable {σ : Type} {env : Env σ} {s s₁ s₂ t : State σ}

/-- Refused for the allocation budget: nothing was registered, charged a proof for or asked. -/
structure Refused (s : State σ) (p : Except EvalError Unit × State σ) : Prop where
  fails : ∃ limit, p.1 = .error (.budget (.allocOverflow limit))
  silent : Silent s.trace p.2.trace
  session : p.2.session = s.session

def dataSlots (s : State σ) (count : Nat) : List Word := consecutive (dataSlot s.frame.slot) count

/-- The value of an array: its header and the words of its data slots. -/
def arrayValue (s : State σ) (header : Word) (count : Nat) : Value Question :=
  .joined (s.session.next + count) (some (32 * (count + 1)))
    (.known header.toBytes :: pendingWords s.frame.target s.session.next (dataSlots s count))

/-- The value of a byte string: the words of its data slots, cut to its length. -/
def bytesValue (s : State σ) (len : Nat) : Value Question :=
  let count := (len + 31) / 32
  .mapped (s.session.next + count + 1) (some len)
    (.joined (s.session.next + count) (some (count * 32))
      (pendingWords s.frame.target s.session.next (dataSlots s count)))
    fun bytes => .ok (bytes.take len)

theorem readHeader_ok {header : Word} (h : readHeader env s = (.ok header, t)) :
    t.frame = s.frame ∧ AimedFrom s.frame.target s.trace t.trace := by
  obtain ⟨f, s₁, hf, h⟩ := Fallible.bind_ok h
  cases hf
  obtain ⟨_, s₂, h₂, h⟩ := Fallible.bind_ok h
  obtain ⟨v, rfl, _, ha⟩ := addStorage_ok h₂
  rw [show t = (call env _ { s with trace := v }).2 from (congrArg Prod.snd h).symm]
  exact ⟨rfl, ha⟩

theorem goesOn_spilledBytes (env : Env σ) (h : Aimed s.frame.target s.trace) {len : Nat}
    (hl : len ≤ s.trace.allocLeft) (hm : (len + 31) / 32 * 32 ≤ maxSize) :
    GoesOn s len (dataSlots s ((len + 31) / 32)) 2 (bytesValue s len)
      ((spilledBytes env len >>= push) s) := by
  rw [spilledBytes, bind_assoc, Fallible.bind_of_ok (onTrace_alloc hl)]
  dsimp only
  rw [if_neg (Nat.not_lt.mpr hm), bind_assoc]
  show GoesOn s len _ _ _ (((readWords s.frame.target _ _ >>= _) >>= push) (charged s len))
  rw [bind_assoc]
  exact goesOn_readWords h len _ _ 2 (fun words next =>
    .mapped (next + 1) (some len) (.joined next (some ((len + 31) / 32 * 32)) words)
      fun bytes => .ok (bytes.take len)) fun _ _ => rfl

/-- A clamped length is refused if the length itself is too much or its words have no size. -/
theorem refused_spilledBytes {len : Nat}
    (hl : ¬(len ≤ s.trace.allocLeft ∧ (len + 31) / 32 * 32 < 2 ^ 64)) :
    Refused s ((spilledBytes env (clampSize len) >>= push) s) := by
  rw [spilledBytes, bind_assoc]
  by_cases hc : clampSize len ≤ s.trace.allocLeft
  · -- the length goes through, but not its words
    have hm : maxSize < (clampSize len + 31) / 32 * 32 := by
      unfold clampSize maxSize at *
      omega
    rw [Fallible.bind_of_ok (onTrace_alloc hc)]
    dsimp only
    rw [if_pos hm, Fallible.bind_apply]
    exact ⟨⟨_, rfl⟩, ⟨rfl, rfl, rfl, funext fun k => by cases k <;> rfl⟩, rfl⟩
  · rw [Fallible.bind_apply, onTrace_alloc_error hc]
    exact ⟨⟨_, rfl⟩, .rfl, rfl⟩

theorem readArray_checked {step n : Nat} {header : Word} (hs : 1 ≤ step)
    (hp : popSize env s = (.ok step, s₁)) (hh : readHeader env s₁ = (.ok header, s₂))
    (hn : IsSlotCount header.toNat step n) (ha : s₂.trace.allocLeft ≤ maxSize) :
    (32 * (n + 1) ≤ s₂.trace.allocLeft →
      GoesOn s₂ (32 * (n + 1)) (dataSlots s₂ n) 1 (arrayValue s₂ header n) (readArray env s)) ∧
    (s₂.trace.allocLeft < 32 * (n + 1) → Refused s₂ (readArray env s)) := by
  obtain ⟨count, hc, hcount⟩ := arraySlots_exact hs hn
  have run : readArray env s = (do
      let size ← onTrace (Trace.allocWords (clampSize (count + 1)))
      let f ← frame
      let words ← readWords f.target count (dataSlot f.slot)
      push (← create (Value.ofParts (some size) (.known header.toBytes :: words)))) s₂ := by
    rw [readArray, Fallible.bind_of_ok hp, if_neg (by omega), Fallible.bind_of_ok hh, hc]
  rw [run]
  constructor
  · intro hl
    rcases hcount with ⟨hm, rfl, hc⟩ | ⟨hm, -⟩
    · rw [hc, Fallible.bind_of_ok (onTrace_allocWords (by omega) (by omega))]
      simp only [arrayValue, Nat.mul_comm 32]
      obtain ⟨hf, h⟩ := readHeader_ok hh
      have h : Aimed s₂.frame.target s₂.trace := hf ▸ h.aimed
      exact goesOn_readWords h _ _ _ 1 (fun words next =>
        .joined next (some ((count + 1) * 32)) (.known header.toBytes :: words)) fun _ _ => rfl
    · omega
  · intro hl
    rw [Fallible.bind_apply, onTrace_allocWords_error (by omega)]
    exact ⟨⟨_, rfl⟩, .rfl, rfl⟩

theorem readBytes_checked {header : Word} (hh : readHeader env s = (.ok header, s₁))
    (hodd : header.toNat % 2 = 1) (ha : s₁.trace.allocLeft ≤ maxSize) :
    (header.toNat / 2 ≤ s₁.trace.allocLeft ∧ (header.toNat / 2 + 31) / 32 * 32 < 2 ^ 64 →
      GoesOn s₁ (header.toNat / 2) (dataSlots s₁ ((header.toNat / 2 + 31) / 32)) 2
        (bytesValue s₁ (header.toNat / 2)) (readBytes env s)) ∧
    (¬(header.toNat / 2 ≤ s₁.trace.allocLeft ∧ (header.toNat / 2 + 31) / 32 * 32 < 2 ^ 64) →
      Refused s₁ (readBytes env s)) := by
  have hd : BytesHeader.decode header = .ok (.spilled (clampSize (header.toNat / 2))) := by
    rw [BytesHeader.decode, if_neg (by omega)]
  have run : readBytes env s = (spilledBytes env (clampSize (header.toNat / 2)) >>= push) s₁ := by
    rw [readBytes, Fallible.bind_of_ok hh, hd]
  obtain ⟨hf, h⟩ := readHeader_ok hh
  rw [run]
  constructor
  · rintro ⟨hl, hm⟩
    have hc : clampSize (header.toNat / 2) = header.toNat / 2 := min_eq_left (hl.trans ha)
    rw [hc]
    exact goesOn_spilledBytes env (hf ▸ h.aimed) hl (Nat.le_of_lt_succ hm)
  · exact refused_spilledBytes

/-- Whatever a header says, an array is read exactly if its header word and its slots are within
what is left to allocate, and a long byte string exactly if its length is and its words have a size.
Then those slots are registered and read, and otherwise nothing more is. A step that is no size is
refused before there is a header. -/
theorem header_checked (env : Env σ) (s : State σ) (ha : s.trace.allocLeft ≤ maxSize) :
    (∀ step s₁ header s₂, popSize env s = (.ok step, s₁) → 1 ≤ step →
      readHeader env s₁ = (.ok header, s₂) → ∃ n, IsSlotCount header.toNat step n ∧
        (32 * (n + 1) ≤ s.trace.allocLeft →
          GoesOn s₂ (32 * (n + 1)) (dataSlots s₂ n) 1 (arrayValue s₂ header n) (readArray env s)) ∧
        (s.trace.allocLeft < 32 * (n + 1) → Refused s₂ (readArray env s))) ∧
    (∀ step s₁, popWord env s = (.ok step, s₁) → maxSize < step.toNat →
      readArray env s = (.error (.encoding (.outOfRange step)), s₁)) ∧
    (∀ header s₁, readHeader env s = (.ok header, s₁) → header.toNat % 2 = 1 →
      let len := header.toNat / 2
      (len ≤ s.trace.allocLeft ∧ (len + 31) / 32 * 32 < 2 ^ 64 →
        GoesOn s₁ len (dataSlots s₁ ((len + 31) / 32)) 2 (bytesValue s₁ len) (readBytes env s)) ∧
      (¬(len ≤ s.trace.allocLeft ∧ (len + 31) / 32 * 32 < 2 ^ 64) →
        Refused s₁ (readBytes env s))) := by
  refine ⟨?_, ?_, ?_⟩
  · intro step s₁ header s₂ hp hs hh
    obtain ⟨n, hn⟩ := exists_isSlotCount header.toNat hs
    have hl : s₂.trace.allocLeft = s.trace.allocLeft := by
      rw [(readHeader_ok hh).2.allocLeft, trace_kept hp rfl]
    rw [← hl] at ha ⊢
    exact ⟨n, hn, readArray_checked hs hp hh hn ha⟩
  · intro step s₁ hp hs
    have hr : step.toSize = .error (.outOfRange step) := if_neg (Nat.not_le.mpr hs)
    rw [readArray, popSize_eq, bind_assoc, Fallible.bind_of_ok hp, hr]
    rfl
  · intro header s₁ hh hodd
    have hl : s₁.trace.allocLeft = s.trace.allocLeft := (readHeader_ok hh).2.allocLeft
    rw [← hl] at ha ⊢
    exact readBytes_checked hh hodd ha

/-- Three elements are read for 128 bytes. With no limit but that of sizes, the longest header is
refused. -/
theorem header_checked_longest :
    let config : Config := { maxAllocBytes := 18446744073709551615 }
    let long : Word := BitVec.allOnes 256
    let chain := (Chain.withStorage {} 1 5 3).withStorage 1 6 long
    let env : Env Nat := ⟨chain.source, config⟩
    let s (slot : Word) : State Nat :=
      { frame := { target := 1, slot, stack := [.known [32]], maxStack := 64 },
        session := { source := 0 }, outputs := [], trace := Trace.new config }
    (∃ s₁ s₂, popSize env (s 5) = (.ok 32, s₁) ∧ readHeader env s₁ = (.ok 3, s₂) ∧
      GoesOn s₂ 128 (dataSlots s₂ 3) 1 (arrayValue s₂ 3 3) (readArray env (s 5))) ∧
    (∃ s₁ s₂, popSize env (s 6) = (.ok 32, s₁) ∧ readHeader env s₁ = (.ok long, s₂) ∧
      Refused s₂ (readArray env (s 6))) ∧
    ∃ s₁, readHeader env (s 6) = (.ok long, s₁) ∧ Refused s₁ (readBytes env (s 6)) := by
  intro config long chain env s
  have ha (slot : Word) : (s slot).trace.allocLeft ≤ maxSize := le_rfl
  have hp (slot : Word) : popSize env (s slot) =
      (.ok 32, { s slot with frame := { (s slot).frame with stack := [] } }) := rfl
  obtain ⟨s₂, hh⟩ : ∃ s₂, readHeader env { s 5 with frame := { (s 5).frame with stack := [] } } =
      (.ok 3, s₂) := ⟨_, rfl⟩
  obtain ⟨s₂', hh'⟩ : ∃ s₂, readHeader env { s 6 with frame := { (s 6).frame with stack := [] } } =
      (.ok long, s₂) := ⟨_, rfl⟩
  obtain ⟨s₁, hb⟩ : ∃ s₁, readHeader env (s 6) = (.ok long, s₁) := ⟨_, rfl⟩
  have hl : long.toNat = 2 ^ 256 - 1 := rfl
  refine ⟨⟨_, s₂, hp 5, hh, ?_⟩, ⟨_, s₂', hp 6, hh', ?_⟩, s₁, hb, ?_⟩
  · obtain ⟨n, hn, hread, -⟩ := (header_checked env (s 5) (ha 5)).1 _ _ _ _ (hp 5) (by decide) hh
    obtain rfl : n = 3 := hn.2 (by decide)
    exact hread (by decide)
  · obtain ⟨n, hn, -, hrefused⟩ :=
      (header_checked env (s 6) (ha 6)).1 _ _ _ _ (hp 6) (by decide) hh'
    have hn : n = (2 ^ 256 - 1) * 1 := hl ▸ hn.2 (by decide)
    have hleft : (s 6).trace.allocLeft = maxSize := rfl
    refine hrefused ?_
    rw [hleft, hn]
    decide
  · refine ((header_checked env (s 6) (ha 6)).2.2 _ _ hb (by decide)).2 ?_
    rw [hl]
    decide

end Eval

end ChainRead
