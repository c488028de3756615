import ChainRead.Error
import ChainRead.Fallible
import ChainRead.Program.Instruction

/-! # Reading programs

A cursor walks over a program's bytes behind the header. Bytes that were read stay consumed when
an instruction turns out malformed, so reading can go on from there. A listing is all that a
cursor reads before it ends or fails.
-/

namespace ChainRead

/-- A place in a program: the offset of the next byte and the bytes from there on. -/
structure Cursor where
  offset : Nat
  rest : Bytes
  deriving DecidableEq, Repr

abbrev Decode := Fallible EncodingError Cursor

namespace Cursor

/-- The start of a program, behind its header. An empty buffer is an empty program. -/
def ofBytes : Bytes → Cursor
  | [] => ⟨0, []⟩
  | _ :: code => ⟨1, code⟩

def take (width : Nat) : Decode Bytes := fun c =>
  let bytes := c.rest.take width
  if bytes.length < width then (.error (.truncated c.offset width), c)
  else (.ok bytes, ⟨c.offset + width, c.rest.drop width⟩)

def number (width : Nat) : Decode Nat := ofBigEndian <$> take width

def byte : Decode UInt8 := UInt8.ofNat <$> number 1

/-- Read what follows the opcode byte `b`, which stood at `offset`. -/
def immediate (offset : Nat) (b : UInt8) : Decode Instruction :=
  if b.toNat ≤ pushMax then (fun bytes => .push (Word.ofBytes bytes)) <$> take b.toNat
  else match Opcode.ofByte? b with
    | none => throw (.unknownOpcode b offset)
    | some .pushBytes => do return .pushBytes (← take (← number 4))
    | some .evalLoop => do return .evalLoop (.ofByte (← byte))
    | some .eval => pure .eval
    | some .assert => do return .assert (← byte)
    | some .debug => do return .debug (Utf8.decode (← take (← number 1)))
    | some (.plain op) => pure (.plain op)

/-- Read one instruction, or nothing at the end of the program. -/
def next (c : Cursor) : Option (Except EncodingError Instruction × Cursor) :=
  match c.rest with
  | [] => none
  | b :: rest => some (immediate c.offset b ⟨c.offset + 1, rest⟩)

end Cursor

structure Listing where
  instructions : List Instruction
  fault : Option EncodingError
  deriving DecidableEq, Repr

namespace Listing

/-- Read on behind the instructions `done`, last first. Each one takes at least a byte, so there
are at most as many as `fuel` bytes. -/
def read : Nat → Cursor → List Instruction → Listing
  | 0, _, done => ⟨done.reverse, none⟩
  | fuel + 1, c, done =>
    match c.next with
    | none => ⟨done.reverse, none⟩
    | some (.ok i, c) => read fuel c (i :: done)
    | some (.error e, _) => ⟨done.reverse, some e⟩

def ofBytes (bytes : Bytes) : Listing := read bytes.length (.ofBytes bytes) []

end Listing

end ChainRead
