/-! # Limits and policies

The limits bound what one evaluation may use. Proof indices are single bytes, so an evaluation
never has more than 256 distinct proofs, whatever its limit says.
-/

namespace ChainRead

structure Config where
  maxStackSize : UInt64 := 64
  maxEvalDepth : UInt64 := 16
  maxUniqueProofs : UInt64 := 128
  /-- Bytes that reads, concatenations and slices allocate in all. -/
  maxAllocBytes : UInt64 := 1048576
  /-- Length of a byte string supplied for its hash. -/
  maxSuppliedBytes : UInt64 := 65536
  /-- Whether a storage read needs an account proof for its target. -/
  requireTargetBeforeSlot : Bool := true
  deriving DecidableEq, Repr

namespace Config

/-- The number of proofs that single-byte indices can tell apart. -/
def maxProofIndex : Nat := 256

def withMaxUniqueProofs (c : Config) (max : UInt64) : Config :=
  { c with maxUniqueProofs := if max > 256 then 256 else max }

/-- The number of distinct proofs that an evaluation may need. -/
def proofLimit (c : Config) : Nat := min c.maxUniqueProofs.toNat maxProofIndex

end Config

end ChainRead
