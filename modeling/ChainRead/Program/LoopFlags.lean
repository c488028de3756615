/-! # Loop flags

The immediate byte of a loop says which exit codes stop it, whether the state of an iteration is
taken over by the frame that runs the loop, and whether seeds that were not used go back on its
stack. Other bits of the byte are ignored.
-/

namespace ChainRead

structure LoopFlags where
  stopOnSuccess : Bool := false
  stopOnFailure : Bool := false
  acquireState : Bool := false
  keepArgs : Bool := false
  deriving DecidableEq, Repr

namespace LoopFlags

/-- The byte with one bit for each flag, from the lowest on. -/
def toByte (f : LoopFlags) : UInt8 :=
  (if f.stopOnSuccess then 1 else 0) ||| (if f.stopOnFailure then 2 else 0) |||
    (if f.acquireState then 4 else 0) ||| (if f.keepArgs then 8 else 0)

def ofByte (b : UInt8) : LoopFlags :=
  ⟨b &&& 1 != 0, b &&& 2 != 0, b &&& 4 != 0, b &&& 8 != 0⟩

def stopsOn (f : LoopFlags) (exitCode : UInt8) : Bool :=
  if exitCode = 0 then f.stopOnSuccess else f.stopOnFailure

/-- Whether the state of an iteration is taken over. A loop without a stop flag takes every one,
which makes it a map over its seeds. -/
def acquires (f : LoopFlags) (stopped : Bool) : Bool :=
  f.acquireState && (stopped || !(f.stopOnSuccess || f.stopOnFailure))

end LoopFlags

end ChainRead
