import ChainRead.Evaluation.Run
import ChainRead.Program.Builder
import ChainRead.Backing.Prove
import ChainRead.Source.Cached
import ChainRead.Source.Chain
import ChainRead.Source.Fault
import ChainRead.Proofs.Evaluation.Coupling
import ChainRead.Proofs.Evaluation.Simulation
import ChainRead.Proofs.Evaluation.Frames
import ChainRead.Proofs.Evaluation.Instructions
import ChainRead.Proofs.Evaluation.Nesting
import ChainRead.Proofs.Trace.Charges
import ChainRead.Proofs.Trace.Budget
import ChainRead.Proofs.Trace.Operations
import ChainRead.Proofs.Trace.Calls
import ChainRead.Proofs.Value.Resolve
import ChainRead.Proofs.Evaluation.Covering
import ChainRead.Proofs.Evaluation.Soundness
import ChainRead.Proofs.Evaluation.Correspondence
import ChainRead.Proofs.Evaluation.Comparison
import ChainRead.Proofs.Evaluation.Calls
import ChainRead.Proofs.Evaluation.Determinacy
import ChainRead.Proofs.Backing.Budget
import ChainRead.Proofs.Backing.Numbering
import ChainRead.Proofs.Backing.Requests
import ChainRead.Proofs.Backing.Assembly
import ChainRead.Proofs.Program.Encoding
import ChainRead.Proofs.Evaluation.ExitCode
import ChainRead.Proofs.Evaluation.Loop
import ChainRead.Proofs.Trace.Values
import ChainRead.Proofs.Evaluation.History
import ChainRead.Proofs.Evaluation.Laziness
import ChainRead.Proofs.Evaluation.Spending
import ChainRead.Proofs.Evaluation.Accounting
import ChainRead.Proofs.Evaluation.Balance
import ChainRead.Proofs.Program.Wire
import ChainRead.Proofs.Program.Canonical
import ChainRead.Proofs.Source.Caching
import ChainRead.Proofs.Source.Alike
import ChainRead.Proofs.Evaluation.Sharing
import ChainRead.Proofs.Evaluation.Raising
import ChainRead.Proofs.Evaluation.Attesting
import ChainRead.Proofs.Evaluation.Supplying
import ChainRead.Proofs.Backing.Supplied
import ChainRead.Proofs.Evaluation.Integrity
import ChainRead.Proofs.Program.Grammar
import ChainRead.Proofs.Evaluation.Inlining
import ChainRead.Proofs.Evaluation.Termination
import ChainRead.Proofs.Evaluation.Resources
import ChainRead.Proofs.Backing.Causes
import ChainRead.Proofs.Trace.Registering
import ChainRead.Proofs.Evaluation.Reading
import ChainRead.Proofs.Evaluation.Headers
import ChainRead.Proofs.Source.Layout
import ChainRead.Proofs.Evaluation.ByteStrings
import ChainRead.Proofs.Evaluation.Visiting
import ChainRead.Proofs.Evaluation.Hints
import ChainRead.Proofs.Evaluation.Following
import ChainRead.Proofs.Backing.Batching
import ChainRead.Proofs.Cache.Eviction
import ChainRead.Proofs.Cache.Freshness
import ChainRead.Proofs.Cache.Coalescing
import ChainRead.Proofs.Cache.Capacity
import ChainRead.Proofs.Value.Memoization
import ChainRead.Proofs.Trace.Refusal
import ChainRead.Proofs.Evaluation.Outputs
import ChainRead.Proofs.Evaluation.Arithmetic
import ChainRead.Proofs.Program.Resuming
import ChainRead.Proofs.Machine.Rows
import ChainRead.Proofs.Evaluation.Debugging
import ChainRead.Proofs.Trace.Attribution
import ChainRead.Proofs.Evaluation.Returning
import ChainRead.Proofs.Evaluation.Slicing
import ChainRead.Proofs.Evaluation.Lengths
