import ChainRead.Program.Opcode
import ChainRead.Program.LoopFlags
import ChainRead.Text.Utf8

/-! # Instructions

An instruction is a word push or a named opcode with its immediate. Its wire form is the opcode
byte and the immediate; a word push takes the shortest opcode for its word.
-/

namespace ChainRead

inductive Instruction
  | push (value : Word)
  | pushBytes (bytes : Bytes)
  | evalLoop (flags : LoopFlags)
  | eval
  | assert (exitCode : UInt8)
  | debug (label : String)
  | plain (op : Op)
  deriving DecidableEq, Repr

namespace Instruction

/-- The named opcode of an instruction; a word push has none. -/
def opcode? : Instruction → Option Opcode
  | push _ => none
  | pushBytes _ => some .pushBytes
  | evalLoop _ => some .evalLoop
  | eval => some .eval
  | assert _ => some .assert
  | debug _ => some .debug
  | plain op => some (.plain op)

def ofOpcode? : Opcode → Option Instruction
  | .eval => some eval
  | .plain op => some (plain op)
  | _ => none

def name (i : Instruction) : String := (i.opcode?.map Opcode.name).getD "Push"

def maxLabel : Nat := 255

/-- The wire form. A payload's length takes four bytes, and a label is cut to 255 bytes. -/
def encode : Instruction → Bytes
  | push value => UInt8.ofNat value.trimmed.length :: value.trimmed
  | pushBytes bytes => Opcode.pushBytes.byte :: bigEndian 4 bytes.length ++ bytes
  | evalLoop flags => [Opcode.evalLoop.byte, flags.toByte]
  | eval => [Opcode.eval.byte]
  | assert exitCode => [Opcode.assert.byte, exitCode]
  | debug label =>
    let text := (Utf8.encode label).take maxLabel
    Opcode.debug.byte :: UInt8.ofNat text.length :: text
  | plain op => [(Opcode.plain op).byte]

def encodeAll (is : List Instruction) : Bytes := is.flatMap encode

end Instruction

end ChainRead
