import Mathlib.Data.List.TakeWhile
import ChainRead.Proofs.Program.Encoding

/-! # Canonical programs

A program can be written in several ways: a push may be wider than its word, and a loop may have
bits set that name no flag. Writing its instructions again picks the one way that has neither. As
programs split into wire forms in one way only, nothing else changes.
-/

namespace ChainRead

def Utf8.Valid (bytes : Bytes) : Prop := ∃ text, Utf8.encode text = bytes

theorem LoopFlags.toByte_ofByte_iff (b : UInt8) : (ofByte b).toByte = b ↔ b < 16 := by
  have h : ∀ n : Fin 256, (ofByte (.ofFin n)).toByte = .ofFin n ↔ UInt8.ofFin n < 16 := by
    decide +kernel
  exact h b.toFin

theorem dropZeros_eq_self_iff (bytes : Bytes) :
    bytes.dropWhile (· == 0) = bytes ↔ bytes.head? ≠ some 0 := by
  rw [List.dropWhile_eq_self_iff]
  cases bytes <;> simp

namespace Wire

/-- A label is a text's bytes. -/
def Readable : Wire → Prop
  | debug label => Utf8.Valid label
  | _ => True

/-- A pushed word has no zero byte in front, and all bits of a loop's flags name a flag. -/
def Canonical : Wire → Prop
  | push word => word.head? ≠ some 0
  | evalLoop flags => flags < 16
  | _ => True

variable {w : Wire}

theorem encode_label {label : Bytes} (h : (debug label).Fits) (hr : (debug label).Readable) :
    (Utf8.encode (Utf8.decode label)).take Instruction.maxLabel = label := by
  obtain ⟨text, rfl⟩ := hr
  rw [Utf8.decode_encode]
  exact List.take_of_length_le h

theorem written_instruction (h : w.Fits) (hr : w.Readable) :
    w.instruction.written = w.instruction := by
  cases w with
  | debug label => rw [instruction, Instruction.written_debug, encode_label h hr]
  | _ => rfl

theorem length_encode_le (h : w.Fits) (hr : w.Readable) :
    w.instruction.encode.length ≤ w.bytes.length := by
  rw [← Instruction.bytes_wire]
  cases w with
  | push word =>
    have hw : (Word.ofBytes word).trimmed = word.dropWhile (· == 0) := Word.trimmed_ofBytes h
    have hl := (List.dropWhile_sublist (l := word) (· == 0)).length_le
    simpa [instruction, Instruction.wire, bytes, hw] using hl
  | debug label => simp [instruction, Instruction.wire, encode_label h hr]
  | _ => exact Nat.le_refl _

theorem wire_instruction_iff (h : w.Fits) (hr : w.Readable) :
    w.instruction.wire = w ↔ w.Canonical := by
  cases w with
  | push word =>
    have hw : (Word.ofBytes word).trimmed = word.dropWhile (· == 0) := Word.trimmed_ofBytes h
    rw [instruction, Instruction.wire, hw, push.injEq, dropZeros_eq_self_iff, Canonical]
  | evalLoop flags =>
    simp [instruction, Instruction.wire, Canonical, LoopFlags.toByte_ofByte_iff]
  | debug label => simp [instruction, Instruction.wire, Canonical, encode_label h hr]
  | _ => simp [instruction, Instruction.wire, Canonical]

variable {ws : List Wire}

theorem length_encodeAll_le (h : ∀ w ∈ ws, w.Fits) (hr : ∀ w ∈ ws, w.Readable) :
    (Instruction.encodeAll (ws.map instruction)).length ≤ (code ws).length := by
  induction ws with
  | nil => simp [Instruction.encodeAll]
  | cons w ws ih =>
    rw [List.forall_mem_cons] at h hr
    have hw := length_encode_le h.1 hr.1
    have ht := ih h.2 hr.2
    simp only [Instruction.encodeAll, List.map_cons, List.flatMap_cons, List.length_append,
      code_cons] at ht ⊢
    omega

/-- Code comes back as it stood only if each of its wire forms does. -/
theorem encodeAll_eq_iff (h : ∀ w ∈ ws, w.Fits) (hr : ∀ w ∈ ws, w.Readable) :
    Instruction.encodeAll (ws.map instruction) = code ws ↔ ∀ w ∈ ws, w.Canonical := by
  have hf : ∀ w ∈ (ws.map instruction).map Instruction.wire, w.Fits := by
    simpa using fun w hw => Instruction.wire_fits (w.encodable (h w hw))
  have hm : (ws.map instruction).map Instruction.wire = ws ↔
      ∀ w ∈ ws, w.instruction.wire = w := by
    simpa using List.map_inj_left (f := Instruction.wire ∘ instruction) (g := id) (l := ws)
  calc Instruction.encodeAll (ws.map instruction) = code ws
    _ ↔ (ws.map instruction).map Instruction.wire = ws := by
      rw [← Instruction.code_wire]
      exact ⟨code_inj hf h, congrArg code⟩
    _ ↔ ∀ w ∈ ws, w.instruction.wire = w := hm
    _ ↔ ∀ w ∈ ws, w.Canonical :=
      forall₂_congr fun w hw => wire_instruction_iff (h w hw) (hr w hw)

end Wire

namespace Program

/-- The code of a program consists of these wire forms. -/
def SplitsInto (p : Program) (ws : List Wire) : Prop :=
  p.code = Wire.code ws ∧ ∀ w ∈ ws, w.Fits

variable {p : Program} {ws : List Wire}

theorem SplitsInto.instructions (h : p.SplitsInto ws) :
    p.instructions = .ok (ws.map Wire.instruction) := by
  have hr := Listing.read_code ws h.2 (Nat.le_succ_of_le (Wire.length_le_code ws)) 1 []
  have hl : Listing.ofBytes p.toBytes = ⟨ws.map Wire.instruction, none⟩ := by
    rw [← h.1] at hr
    exact hr
  rw [Program.instructions, hl]

theorem SplitsInto.unique {ws' : List Wire} (h : p.SplitsInto ws) (h' : p.SplitsInto ws') :
    ws' = ws :=
  Wire.code_inj h'.2 h.2 (h'.1.symm.trans h.1)

theorem exists_splitsInto {is : List Instruction} (h : p.instructions = .ok is) :
    ∃ ws, p.SplitsInto ws ∧ is = ws.map Wire.instruction := by
  rw [Program.instructions] at h
  split at h
  · next hl =>
    cases h
    obtain ⟨ws, hw, hc, rfl⟩ := Listing.exists_code (Nat.le_succ _) hl
    exact ⟨ws, ⟨hc, hw⟩, rfl⟩
  · cases h

end Program

/-- The code of a program that can be read splits into wire forms in one way only, and if its
labels are texts then its instructions, written again behind its header, are a program with the
same instructions. It is no longer than the first one, and differs from it exactly if that one has
a word push with a zero byte in front or a loop with bits that name no flag. -/
theorem encodeAll_canonical {bytes : Bytes} {p : Program} {is : List Instruction}
    (hp : Program.ofBytes bytes = .ok p) (hi : p.instructions = .ok is) :
    ∃ ws, p.SplitsInto ws ∧ (∀ ws', p.SplitsInto ws' → ws' = ws) ∧
      is = ws.map Wire.instruction ∧
      ((∀ w ∈ ws, w.Readable) →
        let again := p.outputs :: Instruction.encodeAll is
        (∃ q, Program.ofBytes again = .ok q ∧ q.outputs = p.outputs ∧
          q.instructions = .ok is) ∧
        again.length ≤ bytes.length ∧
        (again = bytes ↔ ∀ w ∈ ws, w.Canonical)) := by
  obtain ⟨ws, hs, rfl⟩ := Program.exists_splitsInto hi
  refine ⟨ws, hs, fun _ => hs.unique, rfl, fun hr => ?_⟩
  obtain ⟨hc, hf⟩ := hs
  have hb : bytes = p.outputs :: Wire.code ws := by
    cases bytes with
    | nil => cases hp
    | cons header code =>
      cases hp
      exact congrArg _ hc
  -- what is written consists of the wire forms of the same instructions
  have again : Program.SplitsInto ⟨p.outputs, Instruction.encodeAll (ws.map Wire.instruction)⟩
      ((ws.map Wire.instruction).map Instruction.wire) := by
    constructor
    · exact (Instruction.code_wire _).symm
    · simpa using fun w hw => Instruction.wire_fits (w.encodable (hf w hw))
  refine ⟨⟨_, rfl, rfl, ?_⟩, ?_, ?_⟩
  · rw [again.instructions, List.map_map, List.map_map]
    congr 1
    apply List.map_congr_left
    intro w hw
    simp only [Function.comp_apply, Instruction.instruction_wire,
      Wire.written_instruction (hf w hw) (hr w hw)]
  · have hl := Wire.length_encodeAll_le hf hr
    rw [hb, List.length_cons, List.length_cons]
    omega
  · rw [hb, ← Wire.encodeAll_eq_iff hf hr]
    simp

/-- A push of seven with a zero byte in front and a loop with all bits set lose what they have too
much; the label stays. -/
theorem encodeAll_canonical_wide :
    let bytes : Bytes := [2, 2, 0, 7, Opcode.evalLoop.byte, 255, Opcode.debug.byte, 2, 0xc3, 0xa9]
    let p : Program := ⟨2, bytes.tail⟩
    let is : List Instruction := [.push 7, .evalLoop ⟨true, true, true, true⟩,
      .debug (String.singleton (Char.ofNat 0xe9))]
    let ws : List Wire := [.push [0, 7], .evalLoop 255, .debug [0xc3, 0xa9]]
    let again : Bytes := [2, 1, 7, Opcode.evalLoop.byte, 15, Opcode.debug.byte, 2, 0xc3, 0xa9]
    Program.ofBytes bytes = .ok p ∧ p.instructions = .ok is ∧ p.SplitsInto ws ∧
      (∀ w ∈ ws, w.Readable) ∧ p.outputs :: Instruction.encodeAll is = again ∧
      (∃ q, Program.ofBytes again = .ok q ∧ q.outputs = 2 ∧ q.instructions = .ok is) ∧
      again.length < bytes.length ∧ ¬ ∀ w ∈ ws, w.Canonical := by
  intro bytes p is ws again
  have hs : p.SplitsInto ws :=
    ⟨by decide +kernel, by simp [ws, Wire.Fits, pushMax, Instruction.maxLabel]⟩
  have hi : p.instructions = .ok is := by
    rw [hs.instructions]
    exact congrArg _ (by decide +kernel)
  have hr : ∀ w ∈ ws, w.Readable := by
    simpa [ws, Wire.Readable] using
      ⟨String.singleton (Char.ofNat 0xe9), show _ = ([0xc3, 0xa9] : Bytes) by decide +kernel⟩
  have ha : p.outputs :: Instruction.encodeAll is = again := by decide +kernel
  have hp : Program.ofBytes bytes = .ok p := rfl
  obtain ⟨ws', -, hu, -, h⟩ := encodeAll_canonical hp hi
  obtain rfl := hu ws hs
  obtain ⟨hq, -, he⟩ := h hr
  rw [ha] at hq he
  refine ⟨hp, hi, hs, hr, ha, hq, by decide, fun hc => ?_⟩
  exact absurd (he.mpr hc) (by decide)

end ChainRead
