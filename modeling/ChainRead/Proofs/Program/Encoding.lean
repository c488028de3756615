import ChainRead.Program.Builder
import ChainRead.Proofs.Program.Listing
import ChainRead.Proofs.Text.Utf8

/-! # Programs come back from their bytes

What an instruction is written as is read back as the same instruction, whatever follows it. Only
labels that are too long to be written are read back cut off. So a program's listing is the list of
instructions that was encoded.
-/

namespace ChainRead

theorem LoopFlags.ofByte_toByte (f : LoopFlags) : ofByte f.toByte = f := by
  rcases f with ⟨_ | _, _ | _, _ | _, _ | _⟩ <;> rfl

namespace Instruction

/-- The length of a payload fits in the four bytes that are written for it. -/
def Encodable : Instruction → Prop
  | pushBytes bytes => bytes.length < 2 ^ 32
  | _ => True

/-- What is read back of an instruction: a label loses the bytes that are not written. -/
def written : Instruction → Instruction
  | debug label =>
    if (Utf8.encode label).length ≤ maxLabel then debug label
    else debug (Utf8.decode ((Utf8.encode label).take maxLabel))
  | i => i

theorem written_debug (label : String) :
    written (debug label) = debug (Utf8.decode ((Utf8.encode label).take maxLabel)) := by
  rw [written]
  split
  · next h => rw [List.take_of_length_le h, Utf8.decode_encode]
  · rfl

def wire : Instruction → Wire
  | push value => .push value.trimmed
  | pushBytes bytes => .pushBytes bytes
  | evalLoop flags => .evalLoop flags.toByte
  | eval => .eval
  | assert exitCode => .assert exitCode
  | debug label => .debug ((Utf8.encode label).take maxLabel)
  | plain op => .plain op

theorem bytes_wire (i : Instruction) : i.wire.bytes = i.encode := by
  cases i <;> rfl

theorem wire_fits {i : Instruction} (h : i.Encodable) : i.wire.Fits := by
  cases i with
  | push value => exact value.length_trimmed_le
  | pushBytes => exact h
  | debug => exact List.length_take_le _ _
  | _ => trivial

theorem instruction_wire (i : Instruction) : i.wire.instruction = i.written := by
  cases i with
  | push value => exact congrArg push value.ofBytes_trimmed
  | evalLoop flags => exact congrArg evalLoop flags.ofByte_toByte
  | debug label => exact (written_debug label).symm
  | _ => rfl

theorem Encodable.written {i : Instruction} (h : i.Encodable) : i.written.Encodable := by
  cases i with
  | debug label =>
    rw [written_debug]
    trivial
  | _ => exact h

theorem code_wire (is : List Instruction) : Wire.code (is.map wire) = encodeAll is := by
  simp [Wire.code, encodeAll, List.flatMap_map, bytes_wire]

theorem length_le_encodeAll (is : List Instruction) : is.length ≤ (encodeAll is).length := by
  have h := Wire.length_le_code (is.map wire)
  rwa [List.length_map, code_wire] at h

end Instruction

theorem Wire.encodable {w : Wire} (h : w.Fits) : w.instruction.Encodable := by
  cases w with
  | pushBytes => exact h
  | _ => trivial

namespace Listing

theorem read_encodeAll (is : List Instruction) (h : ∀ i ∈ is, i.Encodable) {fuel : Nat}
    (hf : is.length ≤ fuel) (o : Nat) (done : List Instruction) :
    read fuel ⟨o, Instruction.encodeAll is⟩ done =
      ⟨done.reverse ++ is.map Instruction.written, none⟩ := by
  have hw : ∀ w ∈ is.map Instruction.wire, w.Fits := by
    simpa using fun i hi => Instruction.wire_fits (h i hi)
  rw [← Instruction.code_wire, read_code _ hw (by simpa using hf)]
  simp [Function.comp_def, Instruction.instruction_wire]

/-- A header and the wire forms of instructions list what is read back of each. -/
theorem ofBytes_encodeAll (header : UInt8) {is : List Instruction} (h : ∀ i ∈ is, i.Encodable) :
    ofBytes (header :: Instruction.encodeAll is) = ⟨is.map Instruction.written, none⟩ :=
  read_encodeAll is h (Nat.le_succ_of_le (Instruction.length_le_encodeAll is)) 1 []

theorem read_encodable {fuel : Nat} {c : Cursor} {done : List Instruction}
    (h : ∀ i ∈ done, i.Encodable) : ∀ i ∈ (read fuel c done).instructions, i.Encodable := by
  have stop : ∀ i ∈ done.reverse, i.Encodable := fun i hi => h i (List.mem_reverse.mp hi)
  induction fuel generalizing c done with
  | zero => exact stop
  | succ fuel ih =>
    rw [read]
    split
    · exact stop
    · next i c' hn =>
      obtain ⟨w, hw, rfl, -⟩ := Cursor.next_ok hn
      have hd := List.forall_mem_cons.mpr ⟨w.encodable hw, h⟩
      exact ih hd fun j hj => hd j (List.mem_reverse.mp hj)
    · exact stop

theorem encodable (bytes : Bytes) : ∀ i ∈ (ofBytes bytes).instructions, i.Encodable :=
  read_encodable fun _ h => nomatch h

end Listing

theorem Builder.encode_add (is : List Instruction) (b : Builder) :
    (is.foldl add b).encode =
      ⟨b.outputs, Instruction.encodeAll b.instructions ++ Instruction.encodeAll is⟩ := by
  induction is generalizing b with
  | nil => simp only [List.foldl_nil, encode, Instruction.encodeAll, List.flatMap_nil,
      List.append_nil]
  | cons i is ih =>
    rw [List.foldl_cons, ih]
    simp only [add, Instruction.encodeAll, List.flatMap_append, List.flatMap_cons,
      List.flatMap_nil, List.append_nil, List.append_assoc]

/-- A header and the wire forms of instructions are a program that lists these instructions, and
they are what a builder encodes. Only labels of more than 255 bytes come back changed. -/
theorem instructions_encodeAll (header : UInt8) (is : List Instruction)
    (h : ∀ i ∈ is, i.Encodable) :
    ∃ p, Program.ofBytes (header :: Instruction.encodeAll is) = .ok p ∧ p.outputs = header ∧
      p.instructions = .ok (is.map Instruction.written) ∧
      (is.foldl Builder.add (Builder.withOutputs {} header)).encode.toBytes =
        header :: Instruction.encodeAll is := by
  refine ⟨⟨header, Instruction.encodeAll is⟩, rfl, rfl, ?_, ?_⟩
  · have hr := Listing.read_encodeAll is h
      (Nat.le_succ_of_le (Instruction.length_le_encodeAll is)) 1 []
    have hl : Listing.ofBytes (Program.toBytes ⟨header, Instruction.encodeAll is⟩) =
        ⟨is.map Instruction.written, none⟩ := hr
    rw [Program.instructions, hl]
  · have hm : max 0 header = header := if_pos UInt8.zero_le
    rw [Builder.encode_add]
    show max 0 header :: _ = _
    rw [hm]
    rfl

/-- A label of 128 characters that take two bytes each loses the second byte of the last one. -/
theorem instructions_encodeAll_long_label :
    let accents := fun n => List.replicate n (Char.ofNat 0xe9)
    let is : List Instruction := [.push 0, .push (BitVec.allOnes 256), .pushBytes [],
      .debug (String.ofList (accents 128)), .evalLoop { keepArgs := true }, .plain (.binary .pow)]
    (∀ i ∈ is, i.Encodable) ∧
      ∃ p, Program.ofBytes (255 :: Instruction.encodeAll is) = .ok p ∧ p.outputs = 255 ∧
        p.instructions = .ok [.push 0, .push (BitVec.allOnes 256), .pushBytes [],
          .debug (String.ofList (accents 127 ++ [Char.ofNat 0xfffd])),
          .evalLoop { keepArgs := true }, .plain (.binary .pow)] ∧
        (is.foldl Builder.add (Builder.withOutputs {} 255)).encode.toBytes =
          255 :: Instruction.encodeAll is := by
  intro accents is
  have h : ∀ i ∈ is, i.Encodable := by simp [is, Instruction.Encodable]
  have hw : is.map Instruction.written = [.push 0, .push (BitVec.allOnes 256), .pushBytes [],
      .debug (String.ofList (accents 127 ++ [Char.ofNat 0xfffd])), .evalLoop { keepArgs := true },
      .plain (.binary .pow)] := by decide +kernel
  obtain ⟨p, hp, ho, hi, hb⟩ := instructions_encodeAll 255 is h
  exact ⟨h, p, hp, ho, hi.trans (congrArg _ hw), hb⟩

end ChainRead
