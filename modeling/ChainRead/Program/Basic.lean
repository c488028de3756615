import ChainRead.Program.Cursor

/-! # Programs

A program declares in its first byte how many outputs it has. The other bytes are its
instructions.
-/

namespace ChainRead

structure Program where
  outputs : UInt8
  code : Bytes
  deriving DecidableEq, Repr

namespace Program

/-- The program in a buffer, which has to hold the header. -/
def ofBytes : Bytes → Except EncodingError Program
  | [] => .error .missingHeader
  | outputs :: code => .ok ⟨outputs, code⟩

def toBytes (p : Program) : Bytes := p.outputs :: p.code

def instructions (p : Program) : Except EncodingError (List Instruction) :=
  match Listing.ofBytes p.toBytes with
  | ⟨is, none⟩ => .ok is
  | ⟨_, some e⟩ => .error e

def describe (p : Program) : String :=
  s!"Program(outputs={p.outputs}, " ++ Hex.ofBytes p.toBytes ++ ")"

end Program

end ChainRead
