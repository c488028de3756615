import ChainRead.Error

/-! # Stack bytes as numbers

An operand of at most 32 bytes is a word, padded on the left. A word that counts or indexes
something has to be a size.
-/

namespace ChainRead

namespace Word

/-- The word that an operand spells; a wider operand is refused. -/
def ofOperand (bytes : Bytes) : Except EncodingError Word :=
  if bytes.length ≤ 32 then .ok (ofBytes bytes) else .error (.valueTooWide bytes.length)

def toSize (w : Word) : Except EncodingError Nat :=
  if w.toNat ≤ maxSize then .ok w.toNat else .error (.outOfRange w)

end Word

/-- Any byte that is not zero makes an operand true. -/
def isTruthy (bytes : Bytes) : Bool := bytes.any (· != 0)

end ChainRead
