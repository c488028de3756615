import ChainRead.Text.Hex

/-! # Causes of failure

Each cause carries the numbers that its message reports. A message names the cause alone; the
message of an evaluation's failure starts with the kind of the cause.
-/

namespace ChainRead

inductive StackError
  | underflow
  | overflow (limit : Nat)
  deriving DecidableEq, Repr

inductive IndexError
  | stack (index size : Nat)
  | output (index count : Nat)
  deriving DecidableEq, Repr

/-- A limit was exceeded. Each cause carries the limit. -/
inductive BudgetError
  | tooManyProofs (max : Nat)
  | allocOverflow (max : Nat)
  | suppliedBytes (size max : Nat)
  | maxEvalDepth (max : Nat)
  deriving DecidableEq, Repr

/-- Malformed bytecode, or a malformed value read from storage or from the stack. -/
inductive EncodingError
  | missingHeader
  | truncated (offset needed : Nat)
  | unknownOpcode (opcode : UInt8) (offset : Nat)
  | valueTooWide (size : Nat)
  | outOfRange (value : Word)
  | invalidShortBytes (length : Nat)
  | invalidArrayStep
  | hashMismatch (expected actual : Word)
  deriving DecidableEq, Repr

structure BackingError where
  message : String
  deriving DecidableEq, Repr

inductive EvalError
  | stack (cause : StackError)
  | index (cause : IndexError)
  | budget (cause : BudgetError)
  | encoding (cause : EncodingError)
  | backing (cause : BackingError)
  deriving DecidableEq, Repr

def StackError.message : StackError → String
  | underflow => "stack underflow"
  | overflow limit => s!"stack overflow: limit is {limit}"

def IndexError.message : IndexError → String
  | stack index size => s!"invalid stack index {index} (stack size {size})"
  | output index count => s!"invalid output index {index} ({count} outputs)"

def BudgetError.message : BudgetError → String
  | tooManyProofs max => s!"too many proofs: at most {max} unique proofs"
  | allocOverflow max => s!"allocation overflow: at most {max} bytes"
  | suppliedBytes size max => s!"supplied bytes overflow: {size} bytes, at most {max}"
  | maxEvalDepth max => s!"max eval depth {max} exceeded"

def EncodingError.message : EncodingError → String
  | missingHeader => "program is missing its output count header"
  | truncated offset needed => s!"truncated immediate at offset {offset}: need {needed} bytes"
  | unknownOpcode opcode offset =>
    "unknown opcode " ++ Hex.ofBytes [opcode] ++ s!" at offset {offset}"
  | valueTooWide size => s!"value of {size} bytes does not fit in a uint256"
  | outOfRange value => s!"value {value.toNat} is out of range"
  | invalidShortBytes length => s!"invalid short bytes encoding: length {length}"
  | invalidArrayStep => "array step must be non-zero"
  | hashMismatch expected actual =>
    "supplied bytes hash to " ++ Hex.ofWord actual ++ ", expected " ++ Hex.ofWord expected

def EvalError.message : EvalError → String
  | stack cause => "stack error: " ++ cause.message
  | index cause => "index error: " ++ cause.message
  | budget cause => "budget exceeded: " ++ cause.message
  | encoding cause => "encoding error: " ++ cause.message
  | backing cause => "backing error: " ++ cause.message

end ChainRead
