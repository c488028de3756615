import ChainRead.Word.Basic

/-! # Word operations

Arithmetic is modulo 2^256. Division and remainder by zero give zero, and so does a shift by 256
or more places. Comparisons give the word 0 or 1.
-/

namespace ChainRead

inductive BinaryOp
  | plus | times | divide | mod | pow
  | and | or | xor | shiftLeft | shiftRight
  | eq | lt | gt
  deriving DecidableEq, Repr

inductive UnaryOp
  | not | isZero
  deriving DecidableEq, Repr

namespace Word

/-- The power `base ^ exponent` by repeated squaring over the exponent's low `bits` bits. -/
def powBits : Nat → Word → Nat → Word
  | 0, _, _ => 1
  | bits + 1, base, exponent =>
    let rest := powBits bits (base * base) (exponent / 2)
    if exponent % 2 = 1 then base * rest else rest

/-- The power modulo 2^256. The power of any word to zero is one. -/
def pow (base exponent : Word) : Word := powBits 256 base exponent.toNat

end Word

namespace BinaryOp

/-- Apply an operation to the deeper operand `a` and the top operand `b`. -/
def apply (op : BinaryOp) (a b : Word) : Word :=
  match op with
  | plus => a + b
  | times => a * b
  | divide => if b = 0 then 0 else a / b
  | mod => if b = 0 then 0 else a % b
  | pow => Word.pow a b
  | and => a &&& b
  | or => a ||| b
  | xor => a ^^^ b
  | shiftLeft => if b.toNat < 256 then a <<< b.toNat else 0
  | shiftRight => if b.toNat < 256 then a >>> b.toNat else 0
  | eq => Word.ofBool (a == b)
  | lt => Word.ofBool (decide (a < b))
  | gt => Word.ofBool (decide (b < a))

end BinaryOp

namespace UnaryOp

def apply (op : UnaryOp) (a : Word) : Word :=
  match op with
  | not => ~~~a
  | isZero => Word.ofBool (a == 0)

end UnaryOp

end ChainRead
