import ChainRead.Error

/-! # Values on the stack

A value is known, or it is pending: then it says how its bytes are found and, if that is settled
beforehand, how many there will be. A pending value has a number, so that it is computed once
however often it is copied.
-/

namespace ChainRead

abbrev Outcome := Except EvalError Bytes

/-- A value whose pending parts wait for the answers to questions of type `Q`. -/
inductive Value (Q : Type) where
  | known (bytes : Bytes)
  | asked (id : Nat) (hint : Option Nat) (question : Q)
  /-- The parts one after the other. -/
  | joined (id : Nat) (hint : Option Nat) (parts : List (Value Q))
  /-- A function of another value's bytes. -/
  | mapped (id : Nat) (hint : Option Nat) (base : Value Q) (f : Bytes → Outcome)

namespace Value

variable {Q : Type}

instance : Inhabited (Value Q) := ⟨known []⟩

def isKnown : Value Q → Bool
  | known _ => true
  | _ => false

def id? : Value Q → Option Nat
  | known _ => none
  | asked id .. | joined id .. | mapped id .. => some id

def hint? : Value Q → Option Nat
  | known _ => none
  | asked _ hint _ | joined _ hint _ | mapped _ hint .. => hint

/-- How diagnostics show a value. Resolving it does not change how it is shown. -/
def describe : Value Q → String
  | known bytes => Hex.ofBytes bytes
  | v => match v.hint? with
    | some size => s!"<pending {size} bytes>"
    | none => "<pending>"

end Value

end ChainRead
