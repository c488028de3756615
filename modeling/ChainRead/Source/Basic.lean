import ChainRead.Error
import ChainRead.Fallible
import ChainRead.Hash.Keccak
import ChainRead.Value.Session

/-! # Sources of chain state

A source answers calls for storage words, for whether an address has code, for the preimage of a
hash and for proofs. It may keep a state, so the same call may be answered differently later. An
evaluation's questions are put to a source as calls, and bytes that a source supplies for a hash
are checked against it.
-/

namespace ChainRead

inductive Call
  | storage (target : Address) (slot : Word)
  | isContract (target : Address)
  | hashedBytes (hash : Word)
  | proofs (target : Address) (slots : List Word)
  deriving DecidableEq, Repr

/-- An account proof and one storage proof for each requested slot, in the order of the request. -/
structure AccountProofs where
  account : Bytes := []
  storage : List Bytes := []
  deriving DecidableEq, Repr

abbrev Call.Answer : Call → Type
  | .storage .. => Word
  | .isContract _ => Bool
  | .hashedBytes _ => Bytes
  | .proofs .. => AccountProofs

structure Source (σ : Type) where
  answer : (call : Call) → Fallible BackingError σ call.Answer

/-- What a pending value of an evaluation waits for. -/
inductive Question
  | storage (target : Address) (slot : Word)
  | isContract (target : Address)
  /-- Bytes with this hash, of at most `limit` bytes. -/
  | hashed (hash : Word) (limit : Nat)
  deriving DecidableEq, Repr

/-- Accept supplied bytes if they are short enough and have the hash. -/
def checkSupplied (hash : Word) (limit : Nat) (bytes : Bytes) : Outcome :=
  if limit < bytes.length then .error (.budget (.suppliedBytes bytes.length limit))
  else if keccak256 bytes ≠ hash then .error (.encoding (.hashMismatch hash (keccak256 bytes)))
  else .ok bytes

namespace Source

variable {σ : Type}

def call (src : Source σ) (c : Call) : Fallible EvalError σ c.Answer :=
  (src.answer c).mapError .backing

def answers (src : Source σ) : Answers Question σ
  | .storage target slot => do return Word.toBytes (← src.call (.storage target slot))
  | .isContract target => do return (Word.ofBool (← src.call (.isContract target))).toBytes
  | .hashed hash limit => do .ofExcept (checkSupplied hash limit (← src.call (.hashedBytes hash)))

/-- A source that supplies no bytes for hashes. -/
def withoutSupplier (src : Source σ) : Source σ where
  answer
    | .hashedBytes hash => throw ⟨"no supplier for hashed bytes " ++ Hex.ofWord hash⟩
    | c => src.answer c

/-- A source that also keeps the calls it answers, latest first. -/
def logged (src : Source σ) : Source (σ × List Call) where
  answer c := fun (s, log) =>
    let (result, s) := src.answer c s
    (result, (s, c :: log))

end Source

end ChainRead
