import ChainRead.Word.Operation

/-! # Opcodes

Bytes up to 32 push that many bytes that follow as a word. Above them the named opcodes are a
fixed wire format. Four of them carry an immediate, one runs a program from the stack, and the
rest stand for an operation alone.
-/

namespace ChainRead

/-- The operations that have no immediate and run no program. -/
inductive Op
  | getSlot | getTarget | stackSize | isContract
  | pushStack | pushOutput
  | setTarget | setOutput
  | readSlot | readBytes | readArray | readHashedBytes | readSlots
  | setSlot | addSlot | follow
  | dup | pop | swap
  | keccak | concat | slice | length
  | binary (op : BinaryOp)
  | unary (op : UnaryOp)
  deriving DecidableEq, Repr

inductive Opcode
  | pushBytes | evalLoop | eval | assert | debug
  | plain (op : Op)
  deriving DecidableEq, Repr

def pushMax : Nat := 32

namespace Opcode

def table : List (Opcode × UInt8 × String) :=
  [(plain .getSlot, 33, "GetSlot"), (plain .getTarget, 34, "GetTarget"),
    (plain .stackSize, 35, "StackSize"), (plain .isContract, 36, "IsContract"),
    (pushBytes, 40, "PushBytes"), (plain .pushStack, 41, "PushStack"),
    (plain .pushOutput, 42, "PushOutput"),
    (plain .setTarget, 50, "SetTarget"), (plain .setOutput, 51, "SetOutput"),
    (evalLoop, 52, "EvalLoop"), (eval, 53, "Eval"), (assert, 54, "Assert"),
    (plain .readSlot, 60, "ReadSlot"), (plain .readBytes, 61, "ReadBytes"),
    (plain .readArray, 62, "ReadArray"), (plain .readHashedBytes, 63, "ReadHashedBytes"),
    (plain .readSlots, 64, "ReadSlots"),
    (plain .setSlot, 70, "SetSlot"), (plain .addSlot, 71, "AddSlot"),
    (plain .follow, 72, "Follow"),
    (plain .dup, 80, "Dup"), (plain .pop, 81, "Pop"), (plain .swap, 82, "Swap"),
    (plain .keccak, 90, "Keccak"), (plain .concat, 91, "Concat"), (plain .slice, 92, "Slice"),
    (plain .length, 93, "Length"),
    (plain (.binary .plus), 100, "Plus"), (plain (.binary .times), 101, "Times"),
    (plain (.binary .divide), 102, "Divide"), (plain (.binary .mod), 103, "Mod"),
    (plain (.binary .pow), 104, "Pow"),
    (plain (.binary .and), 110, "And"), (plain (.binary .or), 111, "Or"),
    (plain (.binary .xor), 112, "Xor"), (plain (.binary .shiftLeft), 113, "ShiftLeft"),
    (plain (.binary .shiftRight), 114, "ShiftRight"), (plain (.unary .not), 115, "Not"),
    (plain (.unary .isZero), 120, "IsZero"), (plain (.binary .eq), 121, "Eq"),
    (plain (.binary .lt), 122, "Lt"), (plain (.binary .gt), 123, "Gt"),
    (debug, 255, "Debug")]

def byte (code : Opcode) : UInt8 := ((table.lookup code).map Prod.fst).getD 0

def name (code : Opcode) : String := ((table.lookup code).map Prod.snd).getD ""

def ofByte? (b : UInt8) : Option Opcode := (table.find? fun row => row.2.1 == b).map Prod.fst

def ofName? (text : String) : Option Opcode :=
  (table.find? fun row => row.2.2 == text).map Prod.fst

end Opcode

end ChainRead
