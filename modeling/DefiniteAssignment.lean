import DefiniteAssignment.Editor.Session
import DefiniteAssignment.Main
import DefiniteAssignment.Proofs.Assignment
import DefiniteAssignment.Proofs.Obligation
import DefiniteAssignment.Proofs.Descent
import DefiniteAssignment.Proofs.Progress
import DefiniteAssignment.Proofs.Occurrence
import DefiniteAssignment.Proofs.Restriction
import DefiniteAssignment.Proofs.Independence
import DefiniteAssignment.Proofs.Unwalked
import DefiniteAssignment.Proofs.Relocation
import DefiniteAssignment.Proofs.Safety
import DefiniteAssignment.Proofs.Visibility
import DefiniteAssignment.Proofs.Forward
import DefiniteAssignment.Proofs.RoundTrip
import DefiniteAssignment.Proofs.Arrangement
import DefiniteAssignment.Proofs.Grounds
import DefiniteAssignment.Proofs.Renaming
import DefiniteAssignment.Proofs.Continuation
import DefiniteAssignment.Proofs.Caching
import DefiniteAssignment.Proofs.Debouncing
import DefiniteAssignment.Proofs.Timeliness
import DefiniteAssignment.Proofs.Bookkeeping
import DefiniteAssignment.Proofs.Failure
import DefiniteAssignment.Proofs.Grammar
import DefiniteAssignment.Proofs.Verdict
import DefiniteAssignment.Proofs.Placement
import DefiniteAssignment.Proofs.Alarm
import DefiniteAssignment.Proofs.Agreement
import DefiniteAssignment.Proofs.Legibility
import DefiniteAssignment.Proofs.Burst
import DefiniteAssignment.Proofs.Benchmark
import DefiniteAssignment.Proofs.History
import DefiniteAssignment.Proofs.Propagation
