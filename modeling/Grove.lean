import Grove.Cursor
import Grove.Forest.Integrity
import Grove.Forest.Rank
import Grove.Forest.Rendering
import Grove.Notice.Record
import Grove.Rule.Clause
import Grove.Sample.Label
import Grove.Sample.Plain
import Grove.Sample.Probe
import Grove.Sample.Shapes
import Grove.Settings.Layers
import Grove.Store.Lemmas
import Grove.Proofs.Bounds
import Grove.Proofs.Circles
import Grove.Proofs.Cursor.Collapse
import Grove.Proofs.Deletion
import Grove.Proofs.Detachment
import Grove.Proofs.Duplicate
import Grove.Proofs.Exchange
import Grove.Proofs.Filling
import Grove.Proofs.Grafting
import Grove.Proofs.HalfLinks
import Grove.Proofs.Handles
import Grove.Proofs.Insertion
import Grove.Proofs.Kinship
import Grove.Proofs.Leftovers
import Grove.Proofs.Locality
import Grove.Proofs.Moves
import Grove.Proofs.Paths
import Grove.Proofs.Places
import Grove.Proofs.Queue
import Grove.Proofs.Ranks
import Grove.Proofs.Removal
import Grove.Proofs.Rendering
import Grove.Proofs.Retention
import Grove.Proofs.Rule.Survey
import Grove.Proofs.Sifting
import Grove.Proofs.Verification
import Grove.Proofs.Walks
