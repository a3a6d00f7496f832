import AuthenticatedSet.Codec.Format
import AuthenticatedSet.Coins.Seeded
import AuthenticatedSet.Hasher.Transparent
import AuthenticatedSet.Signature.KeyPair
import AuthenticatedSet.SkipList.Audit
import AuthenticatedSet.SkipList.Build
import AuthenticatedSet.SkipList.Path
import AuthenticatedSet.SkipList.Update
import AuthenticatedSet.Proofs.Layout
import AuthenticatedSet.Proofs.Layout.Link
import AuthenticatedSet.Proofs.Layout.Tower
import AuthenticatedSet.Proofs.Layout.Refresh
import AuthenticatedSet.Proofs.Search
import AuthenticatedSet.Proofs.Change
import AuthenticatedSet.Proofs.Insert
import AuthenticatedSet.Proofs.Erase
import AuthenticatedSet.Proofs.Build
import AuthenticatedSet.Proofs.Audit
import AuthenticatedSet.Proofs.Reachable
import AuthenticatedSet.Proofs.Term
import AuthenticatedSet.Proofs.Soundness
import AuthenticatedSet.Proofs.Completeness
import AuthenticatedSet.Proofs.Integrity
import AuthenticatedSet.Proofs.Run
import AuthenticatedSet.Proofs.Staleness
import AuthenticatedSet.Proofs.Towers
import AuthenticatedSet.Proofs.History
import AuthenticatedSet.Proofs.Binding
import AuthenticatedSet.Proofs.Absence
import AuthenticatedSet.Proofs.Tampering
import AuthenticatedSet.Proofs.Codec
import AuthenticatedSet.Proofs.Codec.Causes
import AuthenticatedSet.Proofs.Publication
import AuthenticatedSet.Proofs.Gap
import AuthenticatedSet.Proofs.Frame
import AuthenticatedSet.Proofs.Incremental
import AuthenticatedSet.Proofs.Separation
import AuthenticatedSet.Proofs.Line
import AuthenticatedSet.Proofs.Walk
import AuthenticatedSet.Proofs.Audit.Passed
import AuthenticatedSet.Proofs.Growth
import AuthenticatedSet.Proofs.Occupancy
