import ChainRead.Proofs.Evaluation.Headers
import ChainRead.Proofs.Evaluation.Laziness
import ChainRead.Proofs.Source.Layout
import ChainRead.Proofs.Value.Forecast

/-! # Reading byte strings back

A byte string that was written to a chain is read back: the value resolves to the bytes, its length
is declared and charged, and its header and its data slots are registered in order.
-/

namespace ChainRead

open Trace

variable {σ : Type}

theorem Session.Fresh.agrees {s : Session σ} (h : s.Fresh) : s.Agrees ⟨s.outcome?⟩ :=
  ⟨h, fun ho => ho⟩

def Chain.outcome (c : Chain) (q : Question) : Outcome := q.finish (c.answer q.call)

theorem Chain.answers_eq (c : Chain) (q : Question) (clock : Nat) :
    (c.source.answers q clock).1 = c.outcome q := by
  rw [Source.answers_apply]
  rfl

section Pending

variable {g : Question → Outcome} {F : Forecast} {s : Session σ} {a : Address}

theorem pendingWords_foreseen (hs : s.Agrees F) (slots : List Word) :
    ∃ G, F ≤ G ∧ ({ s with next := s.next + slots.length } : Session σ).Agrees G ∧
      ∀ v ∈ pendingWords a s.next slots, v.Foreseen g G := by
  induction slots generalizing s F with
  | nil => exact ⟨F, le_refl F, hs, fun _ h => nomatch h⟩
  | cons k slots ih =>
    obtain ⟨G, hF, hG, hv⟩ := hs.ofQuestion (g := g) (some 32) (.storage a k)
    obtain ⟨H, hGH, hH, hvs⟩ := ih hG
    refine ⟨H, hF.trans hGH, ?_, ?_⟩
    · rw [List.length_cons, Nat.add_comm slots.length 1, ← Nat.add_assoc]
      exact hH
    · rw [pendingWords_cons, List.forall_mem_cons]
      exact ⟨hv.mono hGH, hvs⟩

theorem denoteAll_pendingWords {f : Word → Bytes} (hg : ∀ k, g (.storage a k) = .ok (f k))
    (next : Nat) (slots : List Word) :
    Value.denoteAll g (pendingWords a next slots) = .ok (slots.map f) := by
  induction slots generalizing next with
  | nil => rfl
  | cons k slots ih =>
    rw [pendingWords_cons, Value.denoteAll, Value.denote, hg, ih]
    rfl

end Pending

namespace Eval

variable {config : Config} {chain : Chain} {s : State Nat}

theorem readHeader_registers (config : Config) (chain : Chain) (s : State Nat) :
    Registers State.trace s.trace (s.trace.readKeys s.frame.target [s.frame.slot])
      (fun header t => header = chain.slotValue s.frame.target s.frame.slot ∧ ∃ u clock,
        t = { s with trace := u, session := { s.session with source := clock } } ∧
        (∃ n, Aims s.frame.target s.trace.needs n ∧ u.needs = n ++ slotNeeds [s.frame.slot]) ∧
        AimedFrom s.frame.target s.trace u)
      (readHeader ⟨chain.source, config⟩ s) := by
  have h := onTrace_registers (s := s) (addStorage_registers s.frame.target s.frame.slot)
  refine h.andThen
    (f := fun _ => call ⟨chain.source, config⟩ (.storage s.frame.target s.frame.slot))
    (b := fun _ => chain.slotValue s.frame.target s.frame.slot)
    (g := fun _ t => { t with session :=
      { t.session with source := t.session.source + chain.latency } })
    (fun _ _ => rfl) fun _ t ht => ?_
  obtain ⟨u, rfl, hn, hf⟩ := ht
  exact ⟨rfl, rfl, u, _, rfl, hn, hf⟩

/-- A long byte string resolves to its bytes in every session that agrees with what is foreseen once
it was made. -/
theorem bytesValue_resolves {b : Bytes} (hs : s.session.Fresh)
    (hw : (dataSlots s ((b.length + 31) / 32)).map (chain.slotValue s.frame.target) =
      Chain.pieces ((b.length + 31) / 32) b) :
    ∃ F : Forecast,
      ({ s.session with next := s.session.next + (b.length + 31) / 32 + 2 } :
        Session Nat).Agrees F ∧
      ∀ u : Session Nat, u.Agrees F →
        ((bytesValue s b.length).resolve chain.source.answers u).1 = .ok b := by
  obtain ⟨F, -, hF, hwords⟩ := pendingWords_foreseen (g := chain.outcome) (a := s.frame.target)
    hs.agrees (dataSlots s ((b.length + 31) / 32))
  rw [dataSlots, length_consecutive] at hF
  obtain ⟨G, -, hG, hjoined⟩ := hF.ofParts (some ((b.length + 31) / 32 * 32)) hwords
  obtain ⟨H, -, hH, hv⟩ := hG.map (some b.length) hjoined fun bytes => bytes.take b.length
  have hv : (bytesValue s b.length).Foreseen chain.outcome H := hv
  have spelled : ((dataSlots s ((b.length + 31) / 32)).map
      (Word.toBytes ∘ chain.slotValue s.frame.target)).flatten.take b.length = b := by
    rw [← List.map_map, hw]
    exact Chain.take_pieces (by omega)
  refine ⟨H, hH, fun u hu => ?_⟩
  rw [(hv.resolve chain.answers_eq u hu).1]
  simp only [bytesValue, Value.denote]
  rw [denoteAll_pendingWords (f := Word.toBytes ∘ chain.slotValue s.frame.target) fun _ => rfl]
  exact congrArg Except.ok spelled

/-- What reading a byte string leads to. The value that is pushed resolves to the bytes then, and in
every session that agrees with what is foreseen then. -/
structure PushesBytes (chain : Chain) (s : State Nat) (b : Bytes) (v : Value Question)
    (t : State Nat) : Prop where
  frame : t.frame = { s.frame with stack := v :: s.frame.stack }
  declared : v.declared = some b.length
  resolves : (v.resolve chain.source.answers t.session).1 = .ok b
  foreseen : ∃ F : Forecast, t.session.Agrees F ∧
    ∀ u : Session Nat, u.Agrees F → (v.resolve chain.source.answers u).1 = .ok b
  charged : t.trace.allocLeft = s.trace.allocLeft - b.length
  needs : ∃ n, Aims s.frame.target s.trace.needs n ∧
    t.trace.needs = n ++ slotNeeds (bytesSlots s.frame.slot b.length)

variable {b : Bytes} {t : State Nat} {n : List (Need Question)}

theorem pushesBytes_short (hl : b.length < 32) (hs : t.session.Fresh)
    (room : t.frame.size < t.frame.maxStack) (hf : t.frame = s.frame)
    (ha : b.length ≤ t.trace.allocLeft) (hleft : t.trace.allocLeft = s.trace.allocLeft)
    (hn : Aims s.frame.target s.trace.needs n)
    (ht : t.trace.needs = n ++ slotNeeds [s.frame.slot]) :
    ∃ v u, (do
      onTrace (Trace.alloc b.length)
      push (.known b) : Eval Nat Unit) t = (.ok (), u) ∧ PushesBytes chain s b v u := by
  have room : (Eval.charged t b.length).frame.size < (Eval.charged t b.length).frame.maxStack :=
    room
  refine ⟨.known b, { Eval.charged t b.length with
    frame := { t.frame with stack := .known b :: t.frame.stack } }, ?_, ?_⟩
  · rw [Fallible.bind_of_ok (onTrace_alloc ha), push, onFrame_apply, Frame.push, if_pos room]
    rfl
  · have resolves (u : Session Nat) :
        ((Value.known b).resolve chain.source.answers u).1 = .ok b := by
      rw [Value.resolve]
      rfl
    refine ⟨by rw [hf], rfl, resolves _, ⟨_, hs.agrees, fun u _ => resolves u⟩, ?_, n, hn, ?_⟩
    · rw [← hleft]
      rfl
    · rw [bytesSlots, if_pos hl]
      exact ht

theorem pushesBytes_long (hl : 32 ≤ b.length) (hb : b.length < 2 ^ 63) (hs : t.session.Fresh)
    (hw : (dataSlots t ((b.length + 31) / 32)).map (chain.slotValue t.frame.target) =
      Chain.pieces ((b.length + 31) / 32) b)
    (room : t.frame.size < t.frame.maxStack) (hf : t.frame = s.frame)
    (ha : b.length ≤ t.trace.allocLeft) (hleft : t.trace.allocLeft = s.trace.allocLeft)
    (haim : Aimed t.frame.target t.trace)
    (proofs : t.trace.AffordsAll
      ((dataSlots t ((b.length + 31) / 32)).map (t.trace.slotKey t.frame.target)))
    (hn : Aims s.frame.target s.trace.needs n)
    (ht : t.trace.needs = n ++ slotNeeds [s.frame.slot]) :
    ∃ v u, (spilledBytes ⟨chain.source, config⟩ b.length >>= push) t = (.ok (), u) ∧
      PushesBytes chain s b v u := by
  have hm : (b.length + 31) / 32 * 32 ≤ maxSize := by
    unfold maxSize
    omega
  have h := goesOn_spilledBytes ⟨chain.source, config⟩ haim ha hm
  generalize hp : (spilledBytes ⟨chain.source, config⟩ b.length >>= push) t = p at h
  cases h with
  | refused hr => exact absurd proofs hr
  | full _ hr => exact absurd room hr
  | @pushed u _ _ hu hframe =>
    obtain ⟨F, hF, resolves⟩ := bytesValue_resolves hs hw
    rw [← length_consecutive (dataSlot t.frame.slot) ((b.length + 31) / 32)] at hF
    have hF : u.session.Agrees F := hu.session ▸ hF
    refine ⟨_, u, rfl, ?_, rfl, resolves _ hF, ⟨F, hF, resolves⟩, ?_, n, hn, ?_⟩
    · rw [hframe, hf]
    · rw [hu.charged, hleft]
    · rw [hu.needs, ht, bytesSlots, if_neg (by omega), dataSlots, hf, List.append_assoc]
      rfl

/-- A byte string that was written to the selected slot is read back, whatever was written later to
other slots. -/
theorem readBytes_withBytes (config : Config)
    (hc : chain.Holds s.frame.target s.frame.slot b) (hb : b.length < 2 ^ 63)
    (hd : 32 ≤ b.length →
      s.frame.slot ∉ consecutive (dataSlot s.frame.slot) ((b.length + 31) / 32))
    (hs : s.session.Fresh) (room : s.frame.size < s.frame.maxStack)
    (proofs : s.trace.AffordsAll
      (s.trace.readKeys s.frame.target (bytesSlots s.frame.slot b.length)))
    (ha : b.length ≤ s.trace.allocLeft) :
    ∃ v t, readBytes ⟨chain.source, config⟩ s = (.ok (), t) ∧ PushesBytes chain s b v t := by
  have header := readHeader_registers config chain s
  have split : s.trace.readKeys s.frame.target (bytesSlots s.frame.slot b.length) =
      s.trace.readKeys s.frame.target [s.frame.slot] ++
        (if b.length < 32 then [] else dataSlots s ((b.length + 31) / 32)).map
          (s.trace.slotKey s.frame.target) := by
    simp [readKeys, bytesSlots, dataSlots]
  rw [split] at proofs
  obtain ⟨_, _, hr, hpaid, rfl, u, clock, rfl, ⟨n, hn, hneeds⟩, haim⟩ :=
    header.paid proofs.of_append
  rw [readBytes, Fallible.bind_of_ok hr]
  have hleft : u.allocLeft = s.trace.allocLeft := haim.allocLeft
  have proofs := hpaid.affordsAll_append.mp proofs
  rw [← haim.key] at proofs
  by_cases hl : b.length < 32
  · rw [hc.short hl]
    exact pushesBytes_short hl hs room rfl (hleft.symm ▸ ha) hleft hn hneeds
  · obtain ⟨hdecode, hw⟩ := hc.long (by omega) hb (hd (by omega))
    rw [if_neg hl] at proofs
    rw [hdecode]
    exact pushesBytes_long (by omega) hb hs hw room rfl (hleft.symm ▸ ha) hleft haim.aimed proofs
      hn hneeds

/-- One byte more than a slot holds, with another slot written later. -/
theorem readBytes_withBytes_partial :
    let b : Bytes := List.replicate 32 7 ++ [9]
    let chain := (Chain.withBytes {} 1 5 b).withStorage 1 6 3
    let config : Config := {}
    let s : State Nat :=
      { frame := { target := 1, slot := 5, maxStack := 64 }, session := { source := 0 },
        outputs := [], trace := Trace.new config }
    chain.Holds 1 5 b ∧ (5 : Word) ∉ consecutive (dataSlot 5) 2 ∧
      s.trace.AffordsAll (s.trace.readKeys 1 (bytesSlots 5 33)) ∧
      ∃ v t, readBytes ⟨chain.source, config⟩ s = (.ok (), t) ∧ PushesBytes chain s b v t := by
  intro b chain config s
  have hd : (5 : Word) ∉ consecutive (dataSlot 5) 2 := by decide +kernel
  have hk : (6 : Word) ∉ bytesSlots 5 33 := by decide +kernel
  have hc : chain.Holds 1 5 b := (Chain.holds_withBytes {} 1 5 b).withStorage 3 (Or.inr hk)
  have proofs : s.trace.AffordsAll (s.trace.readKeys 1 (bytesSlots 5 33)) := by decide +kernel
  have hl : (b.length + 31) / 32 = 2 := by decide
  exact ⟨hc, hd, proofs, readBytes_withBytes config hc (by decide) (fun _ => hl ▸ hd)
    (fun _ _ => rfl) (by decide) proofs (by decide)⟩

end Eval

end ChainRead
