import BoundaryTag.Arena.Break
import BoundaryTag.GlobalHeap
import BoundaryTag.Proofs.Described
import BoundaryTag.Proofs.Faultless
import BoundaryTag.Proofs.Growth
import BoundaryTag.Proofs.Packing
import BoundaryTag.Proofs.Pool
import BoundaryTag.Proofs.Position
import BoundaryTag.Proofs.Recognition
import BoundaryTag.Proofs.Refusals
import BoundaryTag.Proofs.ReleaseOrder
import BoundaryTag.Proofs.Slack
import BoundaryTag.Proofs.Stale
import BoundaryTag.Proofs.Strays
import BoundaryTag.Proofs.Tenancy
import BoundaryTag.Proofs.WellFormed
import BoundaryTag.Snapshot
import BoundaryTag.Proofs.BestFit
import BoundaryTag.Proofs.Accounting
import BoundaryTag.Proofs.Diagnostics
import BoundaryTag.Proofs.Ledger
import BoundaryTag.Proofs.Ownership
import BoundaryTag.Proofs.Requests
import BoundaryTag.Proofs.Filings
import BoundaryTag.Proofs.InPlace
import BoundaryTag.Proofs.Classes
import BoundaryTag.Proofs.Inscribed
