import ChainRead.Proofs.Program.Encoding

/-! # Programs in programs

A builder nests programs in the one that it builds, and these may be built in the same way. The code
of such a program is a tree. If the labels for diagnostics are left out of it, at every level, all
the programs of the tree get shorter or stay as they are.
-/

namespace ChainRead

/-- The word that a builder pushes for how many seeds a loop takes. -/
def LoopOptions.cap (options : LoopOptions) : Word :=
  match options.count with
  | some n => BitVec.ofNat 256 n.toNat
  | none => BitVec.allOnes 256

/-- The methods of a builder that nest a program. -/
inductive Nesting
  | eval
  | evalIf
  | evalLoop (options : LoopOptions)

namespace Nesting

def call (b : Builder) (p : Program) : Nesting → Builder
  | eval => b.eval p
  | evalIf => b.evalIf p
  | evalLoop options => b.evalLoop p options

def instructions (program : Bytes) : Nesting → List Instruction
  | eval => [.push 1, .pushBytes program, .eval]
  | evalIf => [.pushBytes program, .eval]
  | evalLoop options => [.pushBytes program, .push options.cap, .evalLoop options.flags]

theorem call_eq (how : Nesting) (b : Builder) (p : Program) :
    how.call b p = { b with instructions := b.instructions ++ how.instructions p.toBytes } := by
  cases how <;>
    simp only [call, instructions, Builder.eval, Builder.evalIf, Builder.evalLoop,
      Builder.pushBool, Builder.pushProgram, Builder.pushBytes, Builder.push, Builder.add,
      List.append_assoc, List.cons_append, List.nil_append] <;>
    rfl

theorem length_encodeAll_instructions (how : Nesting) {p q : Bytes} (h : p.length ≤ q.length) :
    (Instruction.encodeAll (how.instructions p)).length ≤
      (Instruction.encodeAll (how.instructions q)).length := by
  have hl : (Instruction.encode (.pushBytes p)).length ≤
      (Instruction.encode (.pushBytes q)).length := by
    simp only [Instruction.encode, List.length_cons, List.length_append, length_bigEndian]
    omega
  cases how <;>
    simp only [instructions, Instruction.encodeAll, List.flatMap_cons, List.length_append] <;>
    omega

end Nesting

/-- The code of a program, with the code of the programs that are nested in it. -/
inductive Code
  | done
  | instruction (i : Instruction) (rest : Code)
  | nested (how : Nesting) (outputs : UInt8) (inner rest : Code)

namespace Code

/-- What a builder makes of code. -/
def build : Code → Builder → Builder
  | done, b => b
  | instruction i rest, b => rest.build (b.add i)
  | nested how outputs inner rest, b =>
    rest.build (how.call b (inner.build (Builder.withOutputs {} outputs)).encode)

def program (c : Code) (outputs : UInt8) : Program :=
  (c.build (Builder.withOutputs {} outputs)).encode

def instructions : Code → List Instruction
  | done => []
  | instruction i rest => i :: rest.instructions
  | nested how outputs inner rest =>
    how.instructions (inner.program outputs).toBytes ++ rest.instructions

/-- The code without labels, at every level. -/
def withoutDebug : Code → Code
  | done => done
  | instruction (.debug _) rest => rest.withoutDebug
  | instruction i rest => instruction i rest.withoutDebug
  | nested how outputs inner rest => nested how outputs inner.withoutDebug rest.withoutDebug

/-- There is no label at any level. -/
def Silent : Code → Prop
  | done => True
  | instruction i rest => (∀ label, i ≠ .debug label) ∧ rest.Silent
  | nested _ _ inner rest => inner.Silent ∧ rest.Silent

/-- Payloads and nested programs are short enough for their length to be written. -/
def Fits : Code → Prop
  | done => True
  | instruction i rest => i.Encodable ∧ rest.Fits
  | nested _ outputs inner rest =>
    (inner.program outputs).toBytes.length < 2 ^ 32 ∧ inner.Fits ∧ rest.Fits

theorem silent_withoutDebug (c : Code) : c.withoutDebug.Silent := by
  induction c with
  | done => trivial
  | instruction i rest ih =>
    cases i with
    | debug label => exact ih
    | _ => exact ⟨nofun, ih⟩
  | nested how outputs inner rest ihInner ihRest => exact ⟨ihInner, ihRest⟩

theorem build_eq (c : Code) (b : Builder) :
    c.build b = { b with instructions := b.instructions ++ c.instructions } := by
  induction c generalizing b with
  | done => rw [build, instructions, List.append_nil]
  | instruction i rest ih =>
    rw [build, ih, Builder.add, instructions, List.append_assoc]
    rfl
  | nested how outputs inner rest _ ih =>
    rw [build, ih, Nesting.call_eq, instructions, List.append_assoc]
    rfl

theorem program_eq (c : Code) (outputs : UInt8) :
    c.program outputs = ⟨outputs, Instruction.encodeAll c.instructions⟩ := by
  have hm : max 0 outputs = outputs := if_pos UInt8.zero_le
  rw [program, build_eq]
  show (⟨max 0 outputs, _⟩ : Program) = _
  rw [hm]
  rfl

theorem toBytes_program (c : Code) (outputs : UInt8) :
    (c.program outputs).toBytes = outputs :: Instruction.encodeAll c.instructions := by
  rw [program_eq]
  rfl

theorem length_program_le {c d : Code} (outputs : UInt8)
    (h : (Instruction.encodeAll c.instructions).length ≤
      (Instruction.encodeAll d.instructions).length) :
    (c.program outputs).toBytes.length ≤ (d.program outputs).toBytes.length := by
  rw [toBytes_program, toBytes_program]
  exact Nat.succ_le_succ h

theorem length_withoutDebug_le (c : Code) :
    (Instruction.encodeAll c.withoutDebug.instructions).length ≤
      (Instruction.encodeAll c.instructions).length := by
  have cons (i : Instruction) (is : List Instruction) : (Instruction.encodeAll (i :: is)).length =
      i.encode.length + (Instruction.encodeAll is).length := List.length_append
  induction c with
  | done => exact Nat.le_refl _
  | instruction i rest ih =>
    rw [instructions, cons]
    cases i with
    | debug label => exact Nat.le_trans ih (Nat.le_add_left _ _)
    | _ =>
      rw [withoutDebug, instructions, cons]
      · exact Nat.add_le_add_left ih _
      · exact nofun
  | nested how outputs inner rest ihInner ihRest =>
    simp only [withoutDebug, instructions, Instruction.encodeAll, List.flatMap_append,
      List.length_append]
    exact Nat.add_le_add (how.length_encodeAll_instructions (length_program_le outputs ihInner))
      ihRest

theorem Fits.withoutDebug {c : Code} (h : c.Fits) : c.withoutDebug.Fits := by
  induction c with
  | done => trivial
  | instruction i rest ih =>
    cases i with
    | debug label => exact ih h.2
    | _ => exact ⟨h.1, ih h.2⟩
  | nested how outputs inner rest ihInner ihRest =>
    obtain ⟨hl, hi, hr⟩ := h
    have hle := length_program_le outputs inner.length_withoutDebug_le
    exact ⟨Nat.lt_of_le_of_lt hle hl, ihInner hi, ihRest hr⟩

theorem Fits.encodable {c : Code} (h : c.Fits) : ∀ i ∈ c.instructions, i.Encodable := by
  induction c with
  | done => exact nofun
  | instruction i rest ih => exact List.forall_mem_cons.mpr ⟨h.1, ih h.2⟩
  | nested how outputs inner rest _ ih =>
    refine List.forall_mem_append.mpr ⟨?_, ih h.2.2⟩
    cases how <;> simpa [Nesting.instructions, Instruction.Encodable] using h.1

end Code

end ChainRead
