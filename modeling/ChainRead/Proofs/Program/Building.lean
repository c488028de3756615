import ChainRead.Program.Builder

/-! # Programs from calls

A builder is made by the calls of its methods. A call leaves what is there and appends to it, so an
output that a program declares for one call is declared whatever calls come after it.
-/

namespace ChainRead.Builder

inductive Call
  | withOutputs (count : UInt8)
  | add (i : Instruction)
  | op (o : Op)
  | push (value : Word)
  | pushSize (n : UInt64)
  | pushBool (value : Bool)
  | pushAddress (a : Address)
  | pushBytes (bytes : Bytes)
  | pushText (text : String)
  | pushProgram (p : Program)
  | pushStack (index : UInt64)
  | pushOutput (index : UInt64)
  | target (a : Address)
  | slot (s : Word)
  | offset (delta : Word)
  | followIndex
  | readSlots (count : UInt64)
  | readArray (step : UInt64)
  | dup (back : UInt64)
  | swap (back : UInt64)
  | assert (exitCode : UInt8)
  | exit (exitCode : UInt8)
  | requireContract (exitCode : UInt8)
  | requireNonzero (exitCode : UInt8)
  | setOutput (index : UInt8)
  | addOutput
  | evalIf (p : Program)
  | eval (p : Program)
  | evalLoop (p : Program) (options : LoopOptions)
  | slice (start len : UInt64)
  | shiftLeft (places : UInt16)
  | shiftRight (places : UInt16)
  | debug (label : String)

namespace Call

def run (b : Builder) : Call → Builder
  | withOutputs count => b.withOutputs count
  | add i => b.add i
  | op o => b.op o
  | push value => b.push value
  | pushSize n => b.pushSize n
  | pushBool value => b.pushBool value
  | pushAddress a => b.pushAddress a
  | pushBytes bytes => b.pushBytes bytes
  | pushText text => b.pushText text
  | pushProgram p => b.pushProgram p
  | pushStack index => b.pushStack index
  | pushOutput index => b.pushOutput index
  | target a => b.target a
  | slot s => b.slot s
  | offset delta => b.offset delta
  | followIndex => b.followIndex
  | readSlots count => b.readSlots count
  | readArray step => b.readArray step
  | dup back => b.dup back
  | swap back => b.swap back
  | assert exitCode => b.assert exitCode
  | exit exitCode => b.exit exitCode
  | requireContract exitCode => b.requireContract exitCode
  | requireNonzero exitCode => b.requireNonzero exitCode
  | setOutput index => b.setOutput index
  | addOutput => b.addOutput
  | evalIf p => b.evalIf p
  | eval p => b.eval p
  | evalLoop p options => b.evalLoop p options
  | slice start len => b.slice start len
  | shiftLeft places => b.shiftLeft places
  | shiftRight places => b.shiftRight places
  | debug label => b.debug label

/-- The index of the output that a call sets. -/
def emits (b : Builder) : Call → Option UInt8
  | setOutput index => some index
  | addOutput => some b.outputs
  | _ => none

end Call

/-- What a sequence of calls builds. -/
def build (calls : List Call) : Builder := calls.foldl Call.run {}

theorem build_append (first last : List Call) :
    build (first ++ last) = last.foldl Call.run (build first) :=
  List.foldl_append

theorem outputs_withOutputs (b : Builder) (count : UInt8) :
    b.outputs ≤ (b.withOutputs count).outputs ∧ count ≤ (b.withOutputs count).outputs := by
  have hmax : (b.withOutputs count).outputs = if b.outputs ≤ count then count else b.outputs := rfl
  rw [hmax]
  split
  · exact ⟨‹_›, UInt8.le_refl _⟩
  · exact ⟨UInt8.le_refl _, (UInt8.le_total _ _).resolve_left ‹_›⟩

/-- A builder has what another one has, and maybe more. -/
structure Extends (b c : Builder) : Prop where
  outputs : b.outputs ≤ c.outputs
  instructions : b.instructions <+: c.instructions

variable {b c d : Builder}

namespace Extends

theorem refl (b : Builder) : b.Extends b := ⟨UInt8.le_refl _, List.prefix_rfl⟩

theorem trans (h : b.Extends c) (h' : c.Extends d) : b.Extends d :=
  ⟨UInt8.le_trans h.outputs h'.outputs, h.instructions.trans h'.instructions⟩

theorem add (h : b.Extends c) (i : Instruction) : b.Extends (c.add i) :=
  ⟨h.outputs, h.instructions.trans (List.prefix_append _ _)⟩

theorem withOutputs (h : b.Extends c) (count : UInt8) : b.Extends (c.withOutputs count) :=
  ⟨UInt8.le_trans h.outputs (c.outputs_withOutputs count).1, h.instructions⟩

theorem setOutput (h : b.Extends c) (index : UInt8) : b.Extends (c.setOutput index) :=
  ((h.withOutputs _).add _).add _

theorem run (b : Builder) (call : Call) : b.Extends (call.run b) := by
  have h := refl b
  cases call with
  | withOutputs => exact h.withOutputs _
  | setOutput => exact h.setOutput _
  | addOutput => exact h.setOutput _
  | followIndex => exact (((h.add _).add _).add _).add _
  | requireNonzero | eval | evalLoop | slice => exact ((h.add _).add _).add _
  | pushStack | pushOutput | target | slot | offset | readSlots | readArray | dup | swap | exit
  | requireContract | evalIf | shiftLeft | shiftRight =>
    exact (h.add _).add _
  | _ => exact h.add _

theorem foldl (b : Builder) (calls : List Call) : b.Extends (calls.foldl Call.run b) := by
  induction calls generalizing b with
  | nil => exact refl b
  | cons call calls ih => exact (run b call).trans (ih _)

end Extends

theorem instructions_setOutput (b : Builder) (index : UInt8) :
    (b.setOutput index).instructions =
      b.instructions ++ [.push (BitVec.ofNat 256 index.toNat), .plain .setOutput] := by
  simp [setOutput, op, push, add, withOutputs]

/-- Only for the last index there is no number of outputs that a header can hold. -/
theorem lt_outputs_setOutput (b : Builder) {index : UInt8} (h : index ≠ 255) :
    index < (b.setOutput index).outputs := by
  have hr : index < if index = 255 then 255 else index + 1 := by
    rw [if_neg h]
    have hn : index.toNat ≠ 255 := fun hn => h (UInt8.toNat_inj.mp hn)
    have hlt := index.toNat_lt
    rw [UInt8.lt_iff_toNat_lt, UInt8.toNat_add]
    show index.toNat < (index.toNat + 1) % 2 ^ 8
    omega
  exact UInt8.lt_of_lt_of_le hr (b.outputs_withOutputs _).2

theorem Call.run_of_emits {call : Call} {index : UInt8} (h : call.emits b = some index) :
    call.run b = b.setOutput index := by
  cases call with
  | setOutput | addOutput =>
    cases h
    rfl
  | _ => cases h

end ChainRead.Builder
