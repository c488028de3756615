import ChainRead.Program.Basic

/-! # Building programs

A builder collects instructions and the number of outputs to declare. Each method appends one
instruction or a fixed short sequence; an operation with an argument pushes it first.
-/

namespace ChainRead

structure Builder where
  outputs : UInt8 := 0
  instructions : List Instruction := []
  deriving DecidableEq, Repr

/-- How a loop runs its program; without a count every stack entry is a seed. -/
structure LoopOptions where
  count : Option UInt64 := none
  flags : LoopFlags := {}
  deriving DecidableEq, Repr

namespace Builder

/-- Raise the declared number of outputs to at least `count`. -/
def withOutputs (b : Builder) (count : UInt8) : Builder :=
  { b with outputs := max b.outputs count }

def add (b : Builder) (i : Instruction) : Builder :=
  { b with instructions := b.instructions ++ [i] }

def op (b : Builder) (o : Op) : Builder := b.add (.plain o)

def encode (b : Builder) : Program := ⟨b.outputs, Instruction.encodeAll b.instructions⟩

variable (b : Builder)

def push (value : Word) : Builder := b.add (.push value)

def pushSize (n : UInt64) : Builder := b.push (BitVec.ofNat 256 n.toNat)

def pushBool (value : Bool) : Builder := b.push (Word.ofBool value)

def pushAddress (a : Address) : Builder := b.push a.toWord

def pushBytes (bytes : Bytes) : Builder := b.add (.pushBytes bytes)

def pushText (text : String) : Builder := b.pushBytes (Utf8.encode text)

def pushProgram (p : Program) : Builder := b.pushBytes p.toBytes

/-- Push a copy of a stack entry, counted from the bottom. -/
def pushStack (index : UInt64) : Builder := (b.pushSize index).op .pushStack

def pushOutput (index : UInt64) : Builder := (b.pushSize index).op .pushOutput

def target (a : Address) : Builder := (b.pushAddress a).op .setTarget

def slot (s : Word) : Builder := (b.push s).op .setSlot

def offset (delta : Word) : Builder := (b.push delta).op .addSlot

/-- Select the element of a dynamic array whose index is on the stack. -/
def followIndex : Builder :=
  (((b.op .getSlot).op .keccak).op (.binary .plus)).op .setSlot

def readSlots (count : UInt64) : Builder := (b.pushSize count).op .readSlots

def readArray (step : UInt64) : Builder := (b.pushSize step).op .readArray

/-- Duplicate the entry `back` places below the top. -/
def dup (back : UInt64) : Builder := (b.pushSize back).op .dup

def swap (back : UInt64) : Builder := (b.pushSize back).op .swap

/-- Exit with a code if the popped condition is zero. -/
def assert (exitCode : UInt8) : Builder := b.add (.assert exitCode)

def exit (exitCode : UInt8) : Builder := (b.pushBool false).assert exitCode

def requireContract (exitCode : UInt8) : Builder := (b.op .isContract).assert exitCode

/-- Exit with a code if the top is zero, and leave it in place otherwise. -/
def requireNonzero (exitCode : UInt8) : Builder := (b.dup 0).assert exitCode

/-- Pop the top into an output and declare that output, as far as the header can. -/
def setOutput (index : UInt8) : Builder :=
  ((b.withOutputs (if index = 255 then 255 else index + 1)).push
    (BitVec.ofNat 256 index.toNat)).op .setOutput

def addOutput : Builder := b.setOutput b.outputs

def evalIf (p : Program) : Builder := (b.pushProgram p).add .eval

def eval (p : Program) : Builder := (b.pushBool true).evalIf p

def evalLoop (p : Program) (options : LoopOptions) : Builder :=
  let count : Word := match options.count with
    | some n => BitVec.ofNat 256 n.toNat
    | none => BitVec.allOnes 256
  ((b.pushProgram p).push count).add (.evalLoop options.flags)

def slice (start len : UInt64) : Builder := ((b.pushSize start).pushSize len).op .slice

def shiftLeft (places : UInt16) : Builder :=
  (b.push (BitVec.ofNat 256 places.toNat)).op (.binary .shiftLeft)

def shiftRight (places : UInt16) : Builder :=
  (b.push (BitVec.ofNat 256 places.toNat)).op (.binary .shiftRight)

def debug (label : String) : Builder := b.add (.debug label)

end Builder

end ChainRead
