import ClosureMachine.Arena.Bytes.Lawful
import ClosureMachine.Code.Listing
import ClosureMachine.Machine.Events
import ClosureMachine.Session
import ClosureMachine.Settings.Discovery
import ClosureMachine.Settings.Text
import ClosureMachine.Proofs.Arena.Packing
import ClosureMachine.Proofs.Arena.Ledger
import ClosureMachine.Proofs.Arena.Epochs
import ClosureMachine.Proofs.Heap.Cells
import ClosureMachine.Proofs.Heap.Linked
import ClosureMachine.Proofs.Heap.Walks
import ClosureMachine.Proofs.Heap.Depth
import ClosureMachine.Proofs.Machine.Actions
import ClosureMachine.Proofs.Machine.Rooted
import ClosureMachine.Proofs.Code.Growth
import ClosureMachine.Proofs.Machine.Coherent
import ClosureMachine.Proofs.Machine.History
import ClosureMachine.Proofs.Machine.Restoration
import ClosureMachine.Proofs.Machine.Shift
import ClosureMachine.Proofs.Machine.StaleStacks
import ClosureMachine.Proofs.Machine.Regime
import ClosureMachine.Proofs.Code.Validity
import ClosureMachine.Proofs.Machine.Validated
import ClosureMachine.Proofs.Meaning.Compiled
import ClosureMachine.Proofs.Lowering.Workspace
import ClosureMachine.Proofs.Lowering.Correct
import ClosureMachine.Proofs.Lowering.Declarations
import ClosureMachine.Proofs.Lowering.Placed
import ClosureMachine.Proofs.Lowering.Tidy
import ClosureMachine.Proofs.Lowering.Lanes
import ClosureMachine.Proofs.Session.Opening
import ClosureMachine.Proofs.Session.Safety
import ClosureMachine.Proofs.Meaning.Layout
import ClosureMachine.Proofs.Meaning.Mirror
import ClosureMachine.Proofs.Meaning.Simulation
import ClosureMachine.Proofs.Meaning.Runs
import ClosureMachine.Proofs.Session.Meaning
import ClosureMachine.Proofs.Machine.Activation
import ClosureMachine.Proofs.Machine.Bodies
import ClosureMachine.Proofs.Session.TailCalls
import ClosureMachine.Proofs.Heap.Renaming
import ClosureMachine.Proofs.Machine.Counters
import ClosureMachine.Proofs.Machine.Twins
import ClosureMachine.Proofs.Machine.Recovery
import ClosureMachine.Proofs.Machine.Renaming
import ClosureMachine.Proofs.Machine.Returns
import ClosureMachine.Proofs.Machine.Independence
import ClosureMachine.Proofs.Machine.Capacity
import ClosureMachine.Proofs.Machine.Growth
import ClosureMachine.Interner
import ClosureMachine.Proofs.Symbol.Calls
import ClosureMachine.Proofs.Symbol.Interner
import ClosureMachine.Proofs.Symbol.Sharing
import ClosureMachine.Proofs.Symbol.Translation
import ClosureMachine.Proofs.Heap.Respelling
import ClosureMachine.Proofs.Machine.Respelling
import ClosureMachine.Proofs.Lowering.Respelling
import ClosureMachine.Proofs.Session.Isolation
import ClosureMachine.Proofs.Arena.Bump
import ClosureMachine.Proofs.Heap.Scope
import ClosureMachine.Proofs.Heap.Unlinked
import ClosureMachine.Proofs.Machine.Scoped
import ClosureMachine.Proofs.Machine.Assignment
import ClosureMachine.Proofs.Machine.Reentry
import ClosureMachine.Proofs.Machine.Cutoff
import ClosureMachine.Proofs.Heap.Records
import ClosureMachine.Proofs.Arena.Slices
import ClosureMachine.Proofs.Heap.Lexical
import ClosureMachine.Proofs.Machine.Lexical
import ClosureMachine.Proofs.Machine.Outlay
import ClosureMachine.Proofs.Source.Grammar
import ClosureMachine.Proofs.Source.Layout
import ClosureMachine.Proofs.Symbol.Keywords
import ClosureMachine.Proofs.Lowering.Descending
import ClosureMachine.Proofs.Session.Descending
import ClosureMachine.Proofs.Code.Defects
import ClosureMachine.Proofs.Code.Listing
import ClosureMachine.Proofs.Toml.Bounds
import ClosureMachine.Proofs.Toml.Lines
import ClosureMachine.Proofs.Toml.Conformance
import ClosureMachine.Proofs.Settings.Lawful
import ClosureMachine.Proofs.Settings.RoundTrip
import ClosureMachine.Proofs.Arena.Links
import ClosureMachine.Proofs.Machine.Numbering
