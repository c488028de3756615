import ChainRead.Backing.Plan
import ChainRead.Source.Basic
import ChainRead.Text.Checksum

/-! # Assembling proofs

Every account is proven with one request. The storage of an account without code is empty, so its
slots need no proof. Supplied bytes back themselves.
-/

namespace ChainRead

/-- Distinct proofs, and for each need the index of the proof that backs it. -/
structure ProofSequence where
  proofs : List Bytes
  order : List UInt8
  deriving DecidableEq, Repr

namespace Batch

variable {σ : Type}

/-- The cause of failure when an account's request did not give a proof for each slot. -/
def countMismatch (b : Batch) (got : Nat) : EvalError :=
  .backing ⟨s!"expected {b.slots.length} storage proofs for " ++ b.target.checksummed ++
    s!", got {got}"⟩

def prove (src : Source σ) (b : Batch) : Fallible EvalError σ AccountProofs :=
  if b.slots.isEmpty then
    if b.required then src.call (.proofs b.target []) else pure {}
  else do
    if ← src.call (.isContract b.target) then
      let proofs ← src.call (.proofs b.target b.slots)
      if proofs.storage.length = b.slots.length then return proofs
      else throw (b.countMismatch proofs.storage.length)
    else
      let proofs ← src.call (.proofs b.target [])
      return { proofs with storage := b.slots.map fun _ => [] }

def proveAll (src : Source σ) : List Batch → Fallible EvalError σ (List (Batch × AccountProofs))
  | [] => pure []
  | b :: bs => do
    let proofs ← b.prove src
    let rest ← proveAll src bs
    return (b, proofs) :: rest

def proofsOf (address : Address) (proven : List (Batch × AccountProofs)) :
    Option (Batch × AccountProofs) :=
  proven.find? fun p => p.1.target == address

end Batch

variable {Q σ : Type}

def ProofKey.proof (answers : Answers Q σ) (needs : List (Need Q))
    (proven : List (Batch × AccountProofs)) : ProofKey → Fallible EvalError (Session σ) Bytes
  | noTarget => pure []
  | account a => pure (((Batch.proofsOf a proven).map fun p => p.2.account).getD [])
  | slot a s =>
    pure (((Batch.proofsOf a proven).bind fun p => p.2.storage[p.1.slots.idxOf s]?).getD [])
  | supplied position => match needs[position]? with
    | some (.read (.hashed _ value)) => value.resolve answers
    | _ => pure []

def ProofKey.proofs (answers : Answers Q σ) (needs : List (Need Q))
    (proven : List (Batch × AccountProofs)) :
    List ProofKey → Fallible EvalError (Session σ) (List Bytes)
  | [] => pure []
  | key :: keys => do
    let proof ← key.proof answers needs proven
    let rest ← proofs answers needs proven keys
    return proof :: rest

/-- Fetch the proofs that back a list of needs. -/
def prove (src : Source σ) (answers : Answers Q σ) (needs : List (Need Q)) :
    Fallible EvalError (Session σ) ProofSequence := do
  let plan ← .ofExcept (ProofPlan.ofNeeds needs)
  let proven ← (Batch.proveAll src plan.batches).zoom Session.source fun source s =>
    { s with source }
  let proofs ← ProofKey.proofs answers needs proven plan.keys
  return ⟨proofs, plan.order⟩

end ChainRead
