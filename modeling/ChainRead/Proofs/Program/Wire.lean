import ChainRead.Program.Basic
import ChainRead.Proofs.Word.Digits

/-! # Wire forms

A wire form is an opcode with its immediate as it stands in a program. A program is read without
fault exactly if its code consists of wire forms, and then it does so in one way only.
-/

namespace ChainRead

namespace Opcode

theorem ofByte?_byte (code : Opcode) : ofByte? code.byte = some code := by
  cases code with
  | plain op =>
    cases op with
    | binary op => cases op <;> rfl
    | unary op => cases op <;> rfl
    | _ => rfl
  | _ => rfl

theorem byte_of_ofByte? {b : UInt8} {code : Opcode} (h : ofByte? b = some code) :
    code.byte = b := by
  have rows : ∀ row ∈ table, row.1.byte = row.2.1 := by decide
  obtain ⟨row, hr, rfl⟩ := Option.map_eq_some_iff.mp h
  have hb := List.find?_some hr
  simp only [beq_iff_eq] at hb
  rw [rows row (List.mem_of_find?_eq_some hr), hb]

/-- The bytes of named opcodes lie above those of word pushes. -/
theorem pushMax_lt_byte (code : Opcode) : pushMax < code.byte.toNat := by
  cases code with
  | plain op =>
    cases op with
    | binary op => cases op <;> decide
    | unary op => cases op <;> decide
    | _ => decide
  | _ => decide

end Opcode

inductive Wire
  | push (word : Bytes)
  | pushBytes (bytes : Bytes)
  | evalLoop (flags : UInt8)
  | eval
  | assert (exitCode : UInt8)
  | debug (label : Bytes)
  | plain (op : Op)
  deriving DecidableEq, Repr

namespace Wire

/-- The length of an immediate can be written in front of it. -/
def Fits : Wire → Prop
  | push word => word.length ≤ pushMax
  | pushBytes bytes => bytes.length < 2 ^ 32
  | debug label => label.length ≤ Instruction.maxLabel
  | _ => True

def bytes : Wire → Bytes
  | push word => UInt8.ofNat word.length :: word
  | pushBytes bytes => Opcode.pushBytes.byte :: bigEndian 4 bytes.length ++ bytes
  | evalLoop flags => [Opcode.evalLoop.byte, flags]
  | eval => [Opcode.eval.byte]
  | assert exitCode => [Opcode.assert.byte, exitCode]
  | debug label => Opcode.debug.byte :: UInt8.ofNat label.length :: label
  | plain op => [(Opcode.plain op).byte]

/-- What a wire form is read as. -/
def instruction : Wire → Instruction
  | push word => .push (Word.ofBytes word)
  | pushBytes bytes => .pushBytes bytes
  | evalLoop flags => .evalLoop (.ofByte flags)
  | eval => .eval
  | assert exitCode => .assert exitCode
  | debug label => .debug (Utf8.decode label)
  | plain op => .plain op

theorem length_bytes_pos (w : Wire) : 0 < w.bytes.length := by
  cases w <;> simp [bytes]

theorem toNat_ofNat {n : Nat} (h : n < 256) : (UInt8.ofNat n).toNat = n := by
  rw [UInt8.toNat_ofNat']
  exact Nat.mod_eq_of_lt h

end Wire

namespace Cursor

variable {o : Nat} {rest : Bytes}

theorem take_append {bytes : Bytes} {width : Nat} (h : bytes.length = width) :
    take width ⟨o, bytes ++ rest⟩ = (.ok bytes, ⟨o + width, rest⟩) := by
  simp only [take, List.take_left' h, List.drop_left' h, h, Nat.lt_irrefl, if_false]

theorem number_append {n width : Nat} (h : n < 256 ^ width) :
    number width ⟨o, bigEndian width n ++ rest⟩ = (.ok n, ⟨o + width, rest⟩) := by
  rw [number, Fallible.map_of_ok (take_append (length_bigEndian width n)), ofBigEndian_bigEndian h]

theorem number_cons (b : UInt8) : number 1 ⟨o, b :: rest⟩ = (.ok b.toNat, ⟨o + 1, rest⟩) := by
  have h : take 1 ⟨o, [b] ++ rest⟩ = (.ok [b], ⟨o + 1, rest⟩) := take_append rfl
  exact Fallible.map_of_ok h

theorem byte_cons (b : UInt8) : byte ⟨o, b :: rest⟩ = (.ok b, ⟨o + 1, rest⟩) := by
  rw [byte, Fallible.map_of_ok (number_cons b), UInt8.ofNat_toNat]

theorem immediate_of_named (code : Opcode) (c : Cursor) :
    immediate o code.byte c = (match code with
      | .pushBytes => do return .pushBytes (← take (← number 4))
      | .evalLoop => do return .evalLoop (.ofByte (← byte))
      | .eval => pure .eval
      | .assert => do return .assert (← byte)
      | .debug => do return .debug (Utf8.decode (← take (← number 1)))
      | .plain op => pure (.plain op) : Decode Instruction) c := by
  have h := code.pushMax_lt_byte
  rw [immediate, if_neg (Nat.not_le_of_lt h), Opcode.ofByte?_byte]
  cases code <;> rfl

/-- A wire form is read whatever follows. -/
theorem next_wire (w : Wire) (h : w.Fits) :
    next ⟨o, w.bytes ++ rest⟩ = some (.ok w.instruction, ⟨o + w.bytes.length, rest⟩) := by
  cases w with
  | push word =>
    have hl : word.length ≤ pushMax := h
    have hn := Wire.toNat_ofNat (show word.length < 256 from Nat.lt_of_le_of_lt hl (by decide))
    have ho : o + 1 + word.length = o + (word.length + 1) := by omega
    simp only [Wire.bytes, List.cons_append, next, immediate, hn]
    rw [if_pos hl, Fallible.map_of_ok (take_append rfl), ho]
    rfl
  | pushBytes bytes =>
    have hn : bytes.length < 256 ^ 4 := h
    have ho : o + 1 + 4 + bytes.length =
        o + (Opcode.pushBytes.byte :: (bigEndian 4 bytes.length ++ bytes)).length := by
      simp only [List.length_cons, List.length_append, length_bigEndian]
      omega
    simp only [Wire.bytes, List.cons_append, List.append_assoc, next, immediate_of_named]
    rw [Fallible.bind_of_ok (number_append hn), Fallible.bind_of_ok (take_append rfl), ho]
    rfl
  | evalLoop flags =>
    simp only [Wire.bytes, List.cons_append, List.nil_append, next, immediate_of_named]
    rw [Fallible.bind_of_ok (byte_cons _)]
    rfl
  | assert exitCode =>
    simp only [Wire.bytes, List.cons_append, List.nil_append, next, immediate_of_named]
    rw [Fallible.bind_of_ok (byte_cons _)]
    rfl
  | debug label =>
    have hl : label.length ≤ 255 := h
    have hn := Wire.toNat_ofNat (show label.length < 256 by omega)
    have ho : o + 1 + 1 + label.length = o + (label.length + 1 + 1) := by omega
    simp only [Wire.bytes, List.cons_append, next, immediate_of_named]
    rw [Fallible.bind_of_ok (number_cons _), Fallible.bind_of_ok (take_append hn.symm), hn, ho]
    rfl
  | eval | plain =>
    simp only [Wire.bytes, List.cons_append, List.nil_append, next, immediate_of_named]
    rfl

theorem take_ok {width : Nat} {c c' : Cursor} {bytes : Bytes}
    (h : take width c = (.ok bytes, c')) : bytes.length = width ∧ c.rest = bytes ++ c'.rest := by
  unfold take at h
  dsimp only at h
  split at h
  · cases h
  · next hw =>
    cases h
    exact ⟨Nat.le_antisymm (List.length_take_le _ _) (Nat.le_of_not_lt hw),
      (List.take_append_drop width c.rest).symm⟩

theorem number_ok {width n : Nat} {c c' : Cursor} (h : number width c = (.ok n, c')) :
    n < 256 ^ width ∧ c.rest = bigEndian width n ++ c'.rest := by
  rw [number, map_eq_pure_bind] at h
  obtain ⟨bytes, t, hb, h⟩ := Fallible.bind_ok h
  cases h
  obtain ⟨rfl, hr⟩ := take_ok hb
  refine ⟨ofBigEndian_lt bytes, ?_⟩
  simpa [bigEndian_ofBigEndian] using hr

theorem byte_ok {b : UInt8} {c c' : Cursor} (h : byte c = (.ok b, c')) :
    c.rest = b :: c'.rest := by
  rw [byte, map_eq_pure_bind] at h
  obtain ⟨n, t, hn, h⟩ := Fallible.bind_ok h
  cases h
  exact (number_ok hn).2

theorem immediate_ok {b : UInt8} {c c' : Cursor} {i : Instruction}
    (h : immediate o b c = (.ok i, c')) :
    ∃ w : Wire, w.Fits ∧ w.instruction = i ∧ b :: c.rest = w.bytes ++ c'.rest := by
  rw [immediate] at h
  split at h
  · next hb =>
    rw [map_eq_pure_bind] at h
    obtain ⟨word, t, ht, h⟩ := Fallible.bind_ok h
    cases h
    obtain ⟨hl, hr⟩ := take_ok ht
    have hf : word.length ≤ pushMax := by rwa [hl]
    exact ⟨.push word, hf, rfl, by simp [Wire.bytes, hl, hr]⟩
  rcases hc : Opcode.ofByte? b with _ | code <;> rw [hc] at h
  · cases h
  obtain rfl := Opcode.byte_of_ofByte? hc
  cases code with
  | pushBytes =>
    obtain ⟨n, t, hn, h⟩ := Fallible.bind_ok h
    obtain ⟨bytes, u, ht, h⟩ := Fallible.bind_ok h
    cases h
    obtain ⟨rfl, hr⟩ := take_ok ht
    obtain ⟨hl, hr'⟩ := number_ok hn
    exact ⟨.pushBytes bytes, hl, rfl, by simp [Wire.bytes, hr', hr]⟩
  | evalLoop =>
    obtain ⟨flags, t, ht, h⟩ := Fallible.bind_ok h
    cases h
    exact ⟨.evalLoop flags, trivial, rfl, by simp [Wire.bytes, byte_ok ht]⟩
  | eval =>
    cases h
    exact ⟨.eval, trivial, rfl, rfl⟩
  | assert =>
    obtain ⟨exitCode, t, ht, h⟩ := Fallible.bind_ok h
    cases h
    exact ⟨.assert exitCode, trivial, rfl, by simp [Wire.bytes, byte_ok ht]⟩
  | debug =>
    obtain ⟨n, t, hn, h⟩ := Fallible.bind_ok h
    obtain ⟨label, u, ht, h⟩ := Fallible.bind_ok h
    cases h
    obtain ⟨rfl, hr⟩ := take_ok ht
    obtain ⟨hl, hr'⟩ := number_ok hn
    refine ⟨.debug label, Nat.le_of_lt_succ hl, rfl, ?_⟩
    simp [Wire.bytes, hr', hr, bigEndian, littleEndian]
  | plain op =>
    cases h
    exact ⟨.plain op, trivial, rfl, rfl⟩

theorem next_ok {c c' : Cursor} {i : Instruction} (h : c.next = some (.ok i, c')) :
    ∃ w : Wire, w.Fits ∧ w.instruction = i ∧ c.rest = w.bytes ++ c'.rest := by
  rcases hr : c.rest with _ | ⟨b, rest⟩ <;> rw [next, hr] at h
  · cases h
  · exact immediate_ok (Option.some.inj h)

end Cursor

namespace Wire

def code (ws : List Wire) : Bytes := ws.flatMap bytes

@[simp] theorem code_nil : code [] = [] := rfl

@[simp] theorem code_cons (w : Wire) (ws : List Wire) : code (w :: ws) = w.bytes ++ code ws := by
  simp [code]

theorem length_le_code (ws : List Wire) : ws.length ≤ (code ws).length := by
  induction ws with
  | nil => simp
  | cons w ws ih =>
    have hw := w.length_bytes_pos
    simp only [List.length_cons, code_cons, List.length_append]
    omega

def opcode? : Wire → Option Opcode
  | push _ => none
  | pushBytes _ => some .pushBytes
  | evalLoop _ => some .evalLoop
  | eval => some .eval
  | assert _ => some .assert
  | debug _ => some .debug
  | plain op => some (.plain op)

theorem opcode?_of_bytes {w : Wire} (h : w.Fits) {b : UInt8} {rest : Bytes}
    (hb : w.bytes = b :: rest) : Opcode.ofByte? b = w.opcode? := by
  cases w with
  | push word =>
    obtain ⟨rfl, -⟩ := List.cons_eq_cons.mp hb
    have hl : word.length ≤ pushMax := h
    rcases hc : Opcode.ofByte? (UInt8.ofNat word.length) with _ | code
    · rfl
    · have hn := code.pushMax_lt_byte
      rw [Opcode.byte_of_ofByte? hc, toNat_ofNat (Nat.lt_of_le_of_lt hl (by decide))] at hn
      omega
  | _ =>
    obtain ⟨rfl, -⟩ := List.cons_eq_cons.mp hb
    exact Opcode.ofByte?_byte _

theorem bytes_inj {w w' : Wire} (h : w.Fits) (h' : w'.Fits) (hb : w.bytes = w'.bytes) :
    w = w' := by
  obtain ⟨b, rest, hw⟩ := List.exists_cons_of_length_pos w.length_bytes_pos
  have ho := opcode?_of_bytes h hw
  rw [opcode?_of_bytes h' (hb ▸ hw)] at ho
  cases w <;> cases w' <;> cases ho
  case pushBytes.pushBytes.refl bytes bytes' =>
    have hl : (bigEndian 4 bytes.length).length = (bigEndian 4 bytes'.length).length := by
      simp [length_bigEndian]
    have hr := List.append_inj_right (List.cons_eq_cons.mp hb).2 hl
    rw [hr]
  all_goals simp_all [bytes]

/-- There is one way only to split a program's code into wire forms. -/
theorem code_inj {ws ws' : List Wire} (h : ∀ w ∈ ws, w.Fits) (h' : ∀ w ∈ ws', w.Fits)
    (hc : code ws = code ws') : ws = ws' := by
  have empty (w : Wire) (rest : Bytes) : w.bytes ++ rest ≠ [] := by
    have hw := w.length_bytes_pos
    exact fun he => by simp_all
  induction ws generalizing ws' with
  | nil =>
    cases ws' with
    | nil => rfl
    | cons w' ws' => exact (empty w' _ (code_cons w' ws' ▸ hc.symm)).elim
  | cons w ws ih =>
    cases ws' with
    | nil => exact (empty w _ (code_cons w ws ▸ hc)).elim
    | cons w' ws' =>
      rw [List.forall_mem_cons] at h h'
      rw [code_cons, code_cons] at hc
      -- both first forms are read off the same bytes, so they are equally long
      have hn : Cursor.next ⟨0, w.bytes ++ code ws⟩ = _ := Cursor.next_wire w h.1
      rw [hc, Cursor.next_wire w' h'.1] at hn
      have hl : w.bytes.length = w'.bytes.length := by
        simp only [Option.some.injEq, Prod.mk.injEq, Cursor.mk.injEq] at hn
        omega
      rw [bytes_inj h.1 h'.1 (List.append_inj_left hc hl),
        ih h.2 h'.2 (List.append_inj_right hc hl)]

end Wire

end ChainRead
