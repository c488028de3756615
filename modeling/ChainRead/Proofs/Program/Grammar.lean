import ChainRead.Proofs.Program.Listing

/-! # The grammar of programs

The bytes behind the header are read one instruction after the other, and an instruction is an
opcode byte with its immediate fields. What is read without fault is a sequence of complete
instructions. Otherwise the first one that is not complete starts with a byte that begins no
instruction, or its bytes end inside a field, and the fault says which and where.
-/

namespace ChainRead

def plainBytes : List UInt8 :=
  [33, 34, 35, 36, 41, 42, 50, 51, 53, 60, 61, 62, 63, 64, 70, 71, 72, 80, 81, 82, 90, 91, 92, 93,
    100, 101, 102, 103, 104, 110, 111, 112, 113, 114, 115, 120, 121, 122, 123]

def Opens (b : UInt8) : Prop := b ≤ 32 ∨ b ∈ [40, 52, 54, 255] ∨ b ∈ plainBytes

/-- The bytes of one complete instruction. -/
inductive Form : Bytes → Prop
  | word {n : UInt8} {word : Bytes} (hn : n ≤ 32) (hw : word.length = n.toNat) : Form (n :: word)
  | payload {len bytes : Bytes} (hl : len.length = 4) (hb : bytes.length = ofBigEndian len) :
    Form (40 :: len ++ bytes)
  | flags (b : UInt8) : Form [52, b]
  | exitCode (b : UInt8) : Form [54, b]
  | label {n : UInt8} {label : Bytes} (hl : label.length = n.toNat) : Form (255 :: n :: label)
  | plain {b : UInt8} (hb : b ∈ plainBytes) : Form [b]

/-- What an instruction has in front of one of its fields, and how many bytes the field takes. -/
inductive Field : Bytes → Nat → Prop
  | word {n : UInt8} (hn : n ≤ 32) : Field [n] n.toNat
  | payloadLength : Field [40] 4
  | payload {len : Bytes} (hl : len.length = 4) : Field (40 :: len) (ofBigEndian len)
  | flags : Field [52] 1
  | exitCode : Field [54] 1
  | labelLength : Field [255] 1
  | label (n : UInt8) : Field [255, n] n.toNat

/-- Bytes at an offset that do not begin with a complete instruction, and the fault of that. -/
inductive Malformed (offset : Nat) : Bytes → EncodingError → Prop
  | unknown {b : UInt8} (rest : Bytes) (h : ¬ Opens b) :
    Malformed offset (b :: rest) (.unknownOpcode b offset)
  | truncated {front field : Bytes} {width : Nat} (h : Field front width)
    (hf : field.length < width) :
    Malformed offset (front ++ field) (.truncated (offset + front.length) width)

theorem Malformed.length_lt {o offset needed : Nat} {bytes : Bytes}
    (h : Malformed o bytes (.truncated offset needed)) : o + bytes.length < offset + needed := by
  cases h with
  | truncated _ hf =>
    rw [List.length_append]
    omega

namespace Opcode

theorem opens_byte (code : Opcode) : Opens code.byte := by
  cases code with
  | plain op =>
    refine Or.inr (Or.inr ?_)
    cases op with
    | binary op => cases op <;> decide
    | unary op => cases op <;> decide
    | _ => decide
  | eval => exact Or.inr (Or.inr (by decide))
  | _ => exact Or.inr (Or.inl (by decide))

theorem exists_ofOpcode? {b : UInt8} (h : b ∈ plainBytes) :
    ∃ code i, ofByte? b = some code ∧ Instruction.ofOpcode? code = some i := by
  have rows : ∀ b ∈ plainBytes, ((ofByte? b).bind Instruction.ofOpcode?).isSome := by
    decide +kernel
  obtain ⟨i, hi⟩ := Option.isSome_iff_exists.mp (rows b h)
  obtain ⟨code, hc, hi⟩ := Option.bind_eq_some_iff.mp hi
  exact ⟨code, i, hc, hi⟩

end Opcode

namespace Wire

theorem form {w : Wire} (h : w.Fits) : Form w.bytes := by
  cases w with
  | push word =>
    have hl : word.length ≤ 32 := h
    have hn := toNat_ofNat (show word.length < 256 by omega)
    exact .word (UInt8.le_iff_toNat_le.mpr (by rw [hn]; exact hl)) hn.symm
  | pushBytes bytes =>
    have hl : bytes.length < 256 ^ 4 := h
    exact .payload (length_bigEndian _ _) (ofBigEndian_bigEndian hl).symm
  | evalLoop flags => exact .flags flags
  | eval => exact .plain (by decide)
  | assert exitCode => exact .exitCode exitCode
  | debug label =>
    have hl : label.length ≤ 255 := h
    exact .label (toNat_ofNat (by omega)).symm
  | plain op =>
    refine .plain ?_
    cases op with
    | binary op => cases op <;> decide
    | unary op => cases op <;> decide
    | _ => decide

theorem exists_of_form {form : Bytes} (h : Form form) : ∃ w : Wire, w.Fits ∧ w.bytes = form := by
  cases h with
  | @word n word hn hw =>
    have hf : word.length ≤ pushMax := hw ▸ UInt8.le_iff_toNat_le.mp hn
    exact ⟨.push word, hf, by rw [bytes, hw, UInt8.ofNat_toNat]⟩
  | @payload len payload hl hb =>
    have hf : payload.length < 256 ^ 4 := hb ▸ hl ▸ ofBigEndian_lt len
    refine ⟨.pushBytes payload, hf, ?_⟩
    have hlen : bigEndian 4 (ofBigEndian len) = len := by
      simpa [hl] using bigEndian_ofBigEndian (Nat.le_of_eq hl)
    rw [bytes, hb, hlen]
    rfl
  | flags b => exact ⟨.evalLoop b, trivial, rfl⟩
  | exitCode b => exact ⟨.assert b, trivial, rfl⟩
  | @label n label hl =>
    have hf : label.length ≤ Instruction.maxLabel := hl ▸ Nat.le_of_lt_succ n.toNat_lt
    exact ⟨.debug label, hf, by rw [bytes, hl, UInt8.ofNat_toNat]; rfl⟩
  | plain hb =>
    obtain ⟨code, i, hc, hi⟩ := Opcode.exists_ofOpcode? hb
    obtain rfl := Opcode.byte_of_ofByte? hc
    cases code with
    | eval => exact ⟨.eval, trivial, rfl⟩
    | plain op => exact ⟨.plain op, trivial, rfl⟩
    | _ => cases hi

theorem exists_code_of_forms {forms : List Bytes} (h : ∀ f ∈ forms, Form f) :
    ∃ ws : List Wire, (∀ w ∈ ws, w.Fits) ∧ code ws = forms.flatten := by
  induction forms with
  | nil => exact ⟨[], nofun, rfl⟩
  | cons f forms ih =>
    rw [List.forall_mem_cons] at h
    obtain ⟨w, hw, rfl⟩ := exists_of_form h.1
    obtain ⟨ws, hws, hc⟩ := ih h.2
    exact ⟨w :: ws, List.forall_mem_cons.mpr ⟨hw, hws⟩, by rw [code_cons, hc, List.flatten_cons]⟩

theorem forms_of_code {ws : List Wire} (h : ∀ w ∈ ws, w.Fits) :
    (∀ f ∈ ws.map bytes, Form f) ∧ (ws.map bytes).flatten = code ws := by
  refine ⟨?_, rfl⟩
  simpa using fun w hw => form (h w hw)

end Wire

namespace Cursor

variable {o width : Nat} {bytes : Bytes}

theorem take_short (h : bytes.length < width) :
    take width ⟨o, bytes⟩ = (.error (.truncated o width), ⟨o, bytes⟩) := by
  have ht : (bytes.take width).length < width := Nat.lt_of_le_of_lt (List.length_take_le' _ _) h
  simp only [take, ht, if_true]

theorem number_short (h : bytes.length < width) :
    number width ⟨o, bytes⟩ = (.error (.truncated o width), ⟨o, bytes⟩) := by
  rw [number, map_eq_pure_bind, Fallible.bind_apply, take_short h]

theorem byte_short (h : bytes.length < 1) :
    byte ⟨o, bytes⟩ = (.error (.truncated o 1), ⟨o, bytes⟩) := by
  rw [byte, map_eq_pure_bind, Fallible.bind_apply, number_short h]

/-- A field that is cut off is the fault of what is read next. -/
theorem next_field {front field : Bytes} (h : Field front width) (hf : field.length < width) :
    ∃ c', next ⟨o, front ++ field⟩ = some (.error (.truncated (o + front.length) width), c') := by
  cases h with
  | @word n hn =>
    have hl : n.toNat ≤ pushMax := UInt8.le_iff_toNat_le.mp hn
    simp only [List.cons_append, List.nil_append, next, immediate, if_pos hl]
    rw [map_eq_pure_bind, Fallible.bind_apply, take_short hf]
    exact ⟨_, rfl⟩
  | payloadLength =>
    show ∃ c', some (immediate o Opcode.pushBytes.byte ⟨o + 1, field⟩) = _
    simp only [immediate_of_named]
    rw [Fallible.bind_apply, number_short hf]
    exact ⟨_, rfl⟩
  | @payload len hl =>
    have hn : number 4 ⟨o + 1, len ++ field⟩ = (.ok (ofBigEndian len), ⟨o + 1 + 4, field⟩) :=
      Fallible.map_of_ok (take_append hl)
    show ∃ c', some (immediate o Opcode.pushBytes.byte ⟨o + 1, len ++ field⟩) = _
    simp only [immediate_of_named]
    rw [Fallible.bind_of_ok hn, Fallible.bind_apply, take_short hf, List.length_cons, hl]
    exact ⟨_, rfl⟩
  | flags =>
    show ∃ c', some (immediate o Opcode.evalLoop.byte ⟨o + 1, field⟩) = _
    simp only [immediate_of_named]
    rw [Fallible.bind_apply, byte_short hf]
    exact ⟨_, rfl⟩
  | exitCode =>
    show ∃ c', some (immediate o Opcode.assert.byte ⟨o + 1, field⟩) = _
    simp only [immediate_of_named]
    rw [Fallible.bind_apply, byte_short hf]
    exact ⟨_, rfl⟩
  | labelLength =>
    show ∃ c', some (immediate o Opcode.debug.byte ⟨o + 1, field⟩) = _
    simp only [immediate_of_named]
    rw [Fallible.bind_apply, number_short hf]
    exact ⟨_, rfl⟩
  | label n =>
    show ∃ c', some (immediate o Opcode.debug.byte ⟨o + 1, n :: field⟩) = _
    simp only [immediate_of_named]
    rw [Fallible.bind_of_ok (number_cons n), Fallible.bind_apply, take_short hf]
    exact ⟨_, rfl⟩

theorem next_unknown {b : UInt8} (rest : Bytes) (h : ¬ Opens b) :
    ∃ c', next ⟨o, b :: rest⟩ = some (.error (.unknownOpcode b o), c') := by
  have hb : ¬ b.toNat ≤ pushMax := fun hb => h (Or.inl (UInt8.le_iff_toNat_le.mpr hb))
  have hc : Opcode.ofByte? b = none := by
    rcases hc : Opcode.ofByte? b with _ | code
    · rfl
    · exact absurd (Opcode.byte_of_ofByte? hc ▸ code.opens_byte) h
  simp only [next, immediate, if_neg hb, hc]
  exact ⟨_, rfl⟩

theorem next_malformed {e : EncodingError} (h : Malformed o bytes e) :
    ∃ c', next ⟨o, bytes⟩ = some (.error e, c') := by
  cases h with
  | unknown rest h => exact next_unknown rest h
  | truncated h hf => exact next_field h hf

end Cursor

theorem exists_field (width : Nat) (bytes : Bytes) :
    bytes.length < width ∨ ∃ field rest, field.length = width ∧ bytes = field ++ rest := by
  rcases Nat.lt_or_ge bytes.length width with h | h
  · exact Or.inl h
  · exact Or.inr ⟨_, _, List.length_take_of_le h, (List.take_append_drop width bytes).symm⟩

/-- Bytes begin with a complete instruction or are malformed. -/
theorem form_or_malformed (o : Nat) {bytes : Bytes} (h : bytes ≠ []) :
    (∃ form rest, Form form ∧ bytes = form ++ rest) ∨ ∃ e, Malformed o bytes e := by
  obtain ⟨b, bytes, rfl⟩ := List.exists_cons_of_ne_nil h
  by_cases hb : Opens b
  · rcases hb with hb | hb | hb
    · rcases exists_field b.toNat bytes with hs | ⟨word, rest, hw, rfl⟩
      · exact Or.inr ⟨_, .truncated (.word hb) hs⟩
      · exact Or.inl ⟨_, rest, .word hb hw, rfl⟩
    · simp only [List.mem_cons, List.not_mem_nil, or_false] at hb
      obtain rfl | rfl | rfl | rfl := hb
      · rcases exists_field 4 bytes with hs | ⟨len, bytes, hl, rfl⟩
        · exact Or.inr ⟨_, .truncated .payloadLength hs⟩
        rcases exists_field (ofBigEndian len) bytes with hs | ⟨payload, rest, hb, rfl⟩
        · exact Or.inr ⟨_, .truncated (.payload hl) hs⟩
        · exact Or.inl ⟨_, rest, .payload hl hb, by simp⟩
      · rcases bytes with _ | ⟨flags, rest⟩
        · exact Or.inr ⟨_, .truncated .flags Nat.one_pos⟩
        · exact Or.inl ⟨_, rest, .flags flags, rfl⟩
      · rcases bytes with _ | ⟨exitCode, rest⟩
        · exact Or.inr ⟨_, .truncated .exitCode Nat.one_pos⟩
        · exact Or.inl ⟨_, rest, .exitCode exitCode, rfl⟩
      · rcases bytes with _ | ⟨n, bytes⟩
        · exact Or.inr ⟨_, .truncated .labelLength Nat.one_pos⟩
        rcases exists_field n.toNat bytes with hs | ⟨label, rest, hl, rfl⟩
        · exact Or.inr ⟨_, .truncated (.label n) hs⟩
        · exact Or.inl ⟨_, rest, .label hl, rfl⟩
    · exact Or.inl ⟨_, bytes, .plain hb, rfl⟩
  · exact Or.inr ⟨_, .unknown bytes hb⟩

theorem Cursor.malformed_of_next {c c' : Cursor} {e : EncodingError}
    (h : c.next = some (.error e, c')) : Malformed c.offset c.rest e := by
  have hr : c.rest ≠ [] := fun hr => by simp [next, hr] at h
  rcases form_or_malformed c.offset hr with ⟨form, rest, hf, hc⟩ | ⟨e', he⟩
  · obtain ⟨w, hw, rfl⟩ := Wire.exists_of_form hf
    have hn : next ⟨c.offset, c.rest⟩ = _ := hc ▸ next_wire w hw
    cases hn.symm.trans h
  · obtain ⟨c'', hn⟩ := next_malformed he
    cases hn.symm.trans h
    exact he

namespace Listing

theorem fault_eq_none_iff (c : Cursor) : (ofCursor c).fault = none ↔
    ∃ forms : List Bytes, (∀ f ∈ forms, Form f) ∧ c.rest = forms.flatten := by
  constructor
  · intro h
    obtain ⟨ws, hws, hc, -⟩ := exists_code (Nat.le_refl _)
      (show Listing.read _ c [] = ⟨(ofCursor c).instructions, none⟩ by rw [← h]; rfl)
    exact ⟨_, (Wire.forms_of_code hws).1, hc.trans (Wire.forms_of_code hws).2.symm⟩
  · rintro ⟨forms, hf, hc⟩
    obtain ⟨ws, hws, hw⟩ := Wire.exists_code_of_forms hf
    have hl := ofCursor_code hws c.offset []
    rw [List.append_nil, hw, ← hc] at hl
    rw [hl]
    rfl

/-- The fault of a listing is that of the first instruction that is not complete. -/
theorem fault_eq_some_iff (c : Cursor) (e : EncodingError) : (ofCursor c).fault = some e ↔
    ∃ (forms : List Bytes) (rest : Bytes), (∀ f ∈ forms, Form f) ∧ c.rest = forms.flatten ++ rest ∧
      Malformed (c.offset + forms.flatten.length) rest e := by
  constructor
  · intro h
    obtain ⟨ws, rest, hws, hr, hrest⟩ := exists_split c
    have hl := ofCursor_code hws c.offset rest
    rw [← hr] at hl
    refine ⟨_, rest, (Wire.forms_of_code hws).1, hr, ?_⟩
    rw [(Wire.forms_of_code hws).2]
    rcases hrest with rfl | ⟨e', c', hn⟩
    · rw [hl] at h
      cases h
    · rw [hl, ofCursor_eq, hn] at h
      cases h
      exact Cursor.malformed_of_next hn
  · rintro ⟨forms, rest, hf, hc, he⟩
    obtain ⟨ws, hws, hw⟩ := Wire.exists_code_of_forms hf
    obtain ⟨c', hn⟩ := Cursor.next_malformed he
    have hl := ofCursor_code hws c.offset rest
    rw [hw, ← hc, ofCursor_eq ⟨_, rest⟩, hn] at hl
    rw [hl]
    rfl

end Listing

namespace Program

variable (p : Program)

theorem listing_eq : Listing.ofBytes p.toBytes = .ofCursor ⟨1, p.code⟩ := Listing.ofBytes_eq _

theorem instructions_ok_iff :
    (∃ is, p.instructions = .ok is) ↔ (Listing.ofCursor ⟨1, p.code⟩).fault = none := by
  rw [instructions, listing_eq]
  rcases Listing.ofCursor ⟨1, p.code⟩ with ⟨is, _ | e⟩ <;> simp

theorem instructions_error_iff (e : EncodingError) :
    p.instructions = .error e ↔ (Listing.ofCursor ⟨1, p.code⟩).fault = some e := by
  rw [instructions, listing_eq]
  rcases Listing.ofCursor ⟨1, p.code⟩ with ⟨is, _ | e⟩ <;> simp

end Program

/-- A program can be read exactly if the bytes behind its header are complete instructions one
after the other. Otherwise the fault is that of the first bytes that are not one, at their offset in
the buffer, and a field that is cut off ends behind the buffer's end. -/
theorem instructions_grammar (header : UInt8) (code : Bytes) :
    ∃ p, Program.ofBytes (header :: code) = .ok p ∧
      ((∃ is, p.instructions = .ok is) ↔
        ∃ forms : List Bytes, (∀ f ∈ forms, Form f) ∧ code = forms.flatten) ∧
      (∀ e, p.instructions = .error e ↔
        ∃ (forms : List Bytes) (rest : Bytes), (∀ f ∈ forms, Form f) ∧
          code = forms.flatten ++ rest ∧ Malformed (1 + forms.flatten.length) rest e) ∧
      ∀ offset needed, p.instructions = .error (.truncated offset needed) →
        (header :: code).length < offset + needed := by
  let p : Program := ⟨header, code⟩
  have hok := p.instructions_ok_iff.trans (Listing.fault_eq_none_iff _)
  have herror := fun e => (p.instructions_error_iff e).trans (Listing.fault_eq_some_iff _ e)
  refine ⟨p, rfl, hok, herror, ?_⟩
  intro offset needed h
  obtain ⟨forms, rest, -, hc, he⟩ := (herror _).mp h
  have hl : 1 + forms.flatten.length + rest.length < offset + needed := he.length_lt
  have hc : code = forms.flatten ++ rest := hc
  rw [hc, List.length_cons, List.length_append]
  omega

end ChainRead
