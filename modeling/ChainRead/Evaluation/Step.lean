import ChainRead.Evaluation.Reads

/-! # Executing instructions

An instruction either lets its frame go on or stops it with an exit code. A program on the stack
runs in place, on the same frame, or once for each seed in a frame of its own; how nested programs
run is a parameter here.
-/

namespace ChainRead.Eval

variable {σ : Type} (env : Env σ)

/-- Join the two values on top of the stack, of which the upper one comes last. -/
def concat : Eval σ Unit := do
  let b ← pop
  let a ← pop
  let s ← state
  match a.length? s.session, b.length? s.session with
  | some m, some n =>
    onTrace (Trace.alloc (clampSize (m + n)))
    match a.peek s.session, b.peek s.session with
    | some x, some y => push (.known (x ++ y))
    | _, _ => push (← create (Value.ofParts (some (clampSize (m + n))) [a, b]))
  | _, _ =>
    let x ← resolve env a
    let y ← resolve env b
    onTrace (Trace.alloc (clampSize (x.length + y.length)))
    push (.known (x ++ y))

def slice : Eval σ Unit := do
  let len ← popSize env
  let start ← popSize env
  let value ← pop
  onTrace (Trace.alloc len)
  push (← create (value.map (some len) fun bytes => .ok (slicePadded start len bytes)))

def lengthWord (n : Nat) : Bytes := Word.toBytes (BitVec.ofNat 256 n)

def length : Eval σ Unit := do
  let value ← pop
  let s ← state
  match value.length? s.session with
  | some n => push (.known (lengthWord n))
  | none => push (← create (value.map (some 32) fun bytes => .ok (lengthWord bytes.length)))

def follow : Eval σ Unit := do
  let key ← popBytes env
  onTrace (Trace.alloc (clampSize (key.length + 32)))
  modifyFrame fun f => { f with slot := followSlot key f.slot }

def binary (op : BinaryOp) : Eval σ Unit := do
  let b ← pop
  let a ← pop
  let x ← resolve env a
  let y ← resolve env b
  let m ← .ofExcept ((Word.ofOperand x).mapError .encoding)
  let n ← .ofExcept ((Word.ofOperand y).mapError .encoding)
  pushWord (op.apply m n)

def unary (op : UnaryOp) : Eval σ Unit := do
  let a ← popWord env
  pushWord (op.apply a)

def execute : Op → Eval σ Unit
  | .getSlot => do pushWord (← frame).slot
  | .getTarget => do pushWord (← frame).target.toWord
  | .stackSize => do pushWord (BitVec.ofNat 256 (← frame).size)
  | .isContract => readIsContract
  | .pushStack => do push (← onFrame (Frame.get (← popSize env)))
  | .pushOutput => do push (← output (← popSize env))
  | .setTarget => do
    let target := Word.toAddress (← popWord env)
    modifyFrame fun f => f.select target
    onTrace (Trace.addTarget target false)
  | .setOutput => do
    let index ← popSize env
    setOutput index (← pop)
  | .readSlot => readSlot
  | .readBytes => readBytes env
  | .readArray => readArray env
  | .readHashedBytes => readHashedBytes env
  | .readSlots => readSlots env
  | .setSlot => do
    let slot ← popWord env
    modifyFrame fun f => { f with slot }
  | .addSlot => do
    let offset ← popWord env
    modifyFrame fun f => { f with slot := f.slot + offset }
  | .follow => follow env
  | .dup => do push (← onFrame (Frame.peek (← popSize env)))
  | .pop => discard pop
  | .swap => do onFrame (Frame.swap (← popSize env))
  | .keccak => do push (.known (keccak256 (← popBytes env)).toBytes)
  | .concat => concat env
  | .slice => slice env
  | .length => length
  | .binary op => binary env op
  | .unary op => unary env op

def snapshot (label : String) (depth : Nat) : Eval σ Unit := do
  let s ← state
  let stack := s.frame.stack.reverse.map Value.describe
  report (.snapshot label depth s.frame.target s.frame.slot stack s.trace.needs.length)

/-- Run a program once for each seed until one stops the loop. The result is the seeds that were
not used and the values taken over, both bottom first. -/
def iterate (nested : Bytes → Eval σ UInt8) (flags : LoopFlags) (program : Bytes) :
    Nat → List (Value Question) → Eval σ (List (Value Question) × List (Value Question))
  | _, [] => pure ([], [])
  | index, seed :: seeds => do
    let parent ← frame
    setFrame (parent.child seed)
    let _ ← nested program
    let child ← frame
    let stopped := flags.stopsOn child.exitCode
    report (.iteration index child.exitCode stopped)
    let acquires := flags.acquires stopped
    setFrame (if acquires then { parent with target := child.target, slot := child.slot }
      else parent)
    let taken := if acquires then child.stack.reverse else []
    if stopped then return (seeds, taken)
    else
      let (unused, acquired) ← iterate nested flags program (index + 1) seeds
      return (unused, taken ++ acquired)

/-- Run the program on the stack once for each seed below it, deepest seed first. -/
def evalLoop (nested : Bytes → Eval σ UInt8) (flags : LoopFlags) : Eval σ Unit := do
  let cap ← popWord env
  let program ← popBytes env
  let f ← frame
  let (seeds, rest) := f.splitTop (min cap.toNat f.size)
  setFrame rest
  let (unused, acquired) ← iterate nested flags program 0 seeds
  if flags.keepArgs then onFrame (Frame.extend unused)
  onFrame (Frame.extend acquired)

/-- Run the program on the stack in place if the condition below it is true. An exit code other
than zero also stops the frame. -/
def evalInline (nested : Bytes → Eval σ UInt8) : Eval σ (Option UInt8) := do
  let program ← popBytes env
  if ← popBool env then
    let exitCode ← nested program
    return if exitCode = 0 then none else some exitCode
  else return none

/-- Execute one instruction. The result is the exit code if the frame stops. -/
def step (nested : Bytes → Eval σ UInt8) (depth : Nat) : Instruction → Eval σ (Option UInt8)
  | .push value => do
    pushWord value
    return none
  | .pushBytes bytes => do
    push (.known bytes)
    return none
  | .evalLoop flags => do
    evalLoop env nested flags
    return none
  | .assert exitCode => do
    return if ← popBool env then none else some exitCode
  | .debug label => do
    snapshot label depth
    return none
  | .eval => evalInline env nested
  | .plain op => do
    execute env op
    return none

end ChainRead.Eval
