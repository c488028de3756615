import ChainRead.Trace

/-! # Planning proofs

Needs that one proof backs have the same key, and each key gets one proof, numbered by first
occurrence. Slots are collected for their target, so that an account is proven once with all of
them.
-/

namespace ChainRead

inductive ProofKey
  /-- Slots read before any target was selected. -/
  | noTarget
  | account (address : Address)
  | slot (address : Address) (slot : Word)
  /-- The bytes supplied for the need at this position. -/
  | supplied (position : Nat)
  deriving DecidableEq, Repr

/-- A target, whether an account proof of it is required, and its slots by first occurrence. -/
structure Batch where
  target : Address
  required : Bool
  slots : List Word
  deriving DecidableEq, Repr

variable {Q : Type}

namespace ProofKey

/-- The keys of needs, the first of which is at `position`, after `selected` was selected. -/
def ofNeeds : Nat → Option Address → List (Need Q) → List ProofKey
  | _, _, [] => []
  | position, _, .target address _ :: rest =>
    account address :: ofNeeds (position + 1) (some address) rest
  | position, selected, .read (.hashed ..) :: rest =>
    supplied position :: ofNeeds (position + 1) selected rest
  | position, none, .read (.storage _) :: rest =>
    noTarget :: ofNeeds (position + 1) none rest
  | position, some address, .read (.storage s) :: rest =>
    slot address s :: ofNeeds (position + 1) (some address) rest

def keys (needs : List (Need Q)) : List ProofKey := ofNeeds 0 none needs

end ProofKey

/-- Which proofs are wanted, by key, and the number of the proof of each need. -/
structure ProofPlan where
  keys : List ProofKey
  order : List UInt8
  batches : List Batch
  deriving DecidableEq, Repr

namespace ProofPlan

def isRequired (needs : List (Need Q)) (address : Address) : Bool :=
  needs.any fun
    | .target a required => a == address && required
    | _ => false

def slotsOf (address : Address) (keys : List ProofKey) : List Word :=
  keys.filterMap fun
    | .slot a s => if a = address then some s else none
    | _ => none

/-- One batch for each account, by first occurrence. -/
def batchesOf (needs : List (Need Q)) (keys : List ProofKey) : List Batch :=
  keys.filterMap fun
    | .account a => some ⟨a, isRequired needs a, slotsOf a keys⟩
    | _ => none

/-- The plan for a list of needs, unless it has more keys than there are proof indices. -/
def ofNeeds (needs : List (Need Q)) : Except EvalError ProofPlan :=
  let all := ProofKey.keys needs
  let keys := all.eraseDups
  if Config.maxProofIndex < keys.length then
    .error (.budget (.tooManyProofs Config.maxProofIndex))
  else
    .ok ⟨keys, all.map fun key => UInt8.ofNat (keys.idxOf key), batchesOf needs keys⟩

end ProofPlan

end ChainRead
