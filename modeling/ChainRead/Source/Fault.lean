import ChainRead.Source.Basic

/-! # Sources with faults

A fault changes the answers to one kind of call with given arguments, a bounded number of times or
always. Of the faults that fit a call, the first that is not used up applies.
-/

namespace ChainRead

/-- A fault that gives an error message, or an effect in place of it. -/
inductive Fault
  | storage (target : Address) (slot : Word) (message : String)
  | isContract (target : Address) (message : String)
  /-- Fail, or supply other bytes. -/
  | hashedBytes (hash : Word) (effect : Except String Bytes)
  /-- Fail, or give another number of storage proofs. -/
  | proofs (target : Address) (effect : Except String Nat)

namespace Fault

def fits : Fault → Call → Bool
  | storage t s _, .storage target slot => t == target && s == slot
  | isContract t _, .isContract target => t == target
  | hashedBytes h _, .hashedBytes hash => h == hash
  | proofs t _, .proofs target _ => t == target
  | _, _ => false

def resize (count : Nat) (proofs : List Bytes) : List Bytes :=
  let kept := proofs.take count
  kept ++ List.replicate (count - kept.length) []

variable {σ : Type}

def answer (src : Source σ) : Fault → (call : Call) → Fallible BackingError σ call.Answer
  | storage _ _ message, .storage .. => throw ⟨message⟩
  | isContract _ message, .isContract _ => throw ⟨message⟩
  | hashedBytes _ (.error message), .hashedBytes _ => throw ⟨message⟩
  | hashedBytes _ (.ok bytes), .hashedBytes _ => pure bytes
  | proofs _ (.error message), .proofs .. => throw ⟨message⟩
  | proofs _ (.ok count), .proofs target slots => do
    let answer ← src.answer (.proofs target slots)
    return { answer with storage := resize count answer.storage }
  | _, call => src.answer call

/-- The first fault that fits a call and is not used up, and the faults after its use. A fault
with a number left applies that many times. -/
def select (call : Call) : List (Fault × Option Nat) → Option (Fault × List (Fault × Option Nat))
  | [] => none
  | (fault, left) :: rest =>
    if fault.fits call && left != some 0 then some (fault, (fault, left.map (· - 1)) :: rest)
    else (select call rest).map fun (found, rest) => (found, (fault, left) :: rest)

end Fault

/-- A source with faults in front of it. Its state also holds the faults and their uses left. -/
def Source.withFaults {σ : Type} (src : Source σ) : Source (σ × List (Fault × Option Nat)) where
  answer call := fun (s, faults) =>
    match Fault.select call faults with
    | some (fault, faults) =>
      let (result, s) := fault.answer src call s
      (result, (s, faults))
    | none =>
      let (result, s) := src.answer call s
      (result, (s, faults))

end ChainRead
