import OpTape.Registry.Listing
import OpTape.Registry.Changes
import OpTape.Packed.Cursor
import OpTape.Capacity
import OpTape.Proofs.DeadCode
import OpTape.Proofs.Folding
import OpTape.Proofs.Merging
import OpTape.Proofs.SumFusion
import OpTape.Proofs.Pipelines
import OpTape.Proofs.CrossCheck
import OpTape.InPlace
import OpTape.Proofs.InPlace
import OpTape.Proofs.Equations
import OpTape.Proofs.Representation
import OpTape.Proofs.TwoEnded
import OpTape.Proofs.Recording
import OpTape.Proofs.Dropping
import OpTape.Proofs.Refusals
import OpTape.Proofs.PassFaults
import OpTape.Proofs.SelfContained
import OpTape.Proofs.Sessions
import OpTape.Proofs.Settling
import OpTape.Proofs.RegistryHistory
import OpTape.Proofs.References
import OpTape.Proofs.Locality
import OpTape.Proofs.Terms
import OpTape.Proofs.Numbering
import OpTape.Proofs.Redirection
import OpTape.Proofs.Placement
import OpTape.Proofs.LiveEquations
import OpTape.Proofs.Sweeping
import OpTape.Proofs.Selection
import OpTape.Proofs.Repetition
import OpTape.Proofs.Sourcing
import OpTape.Proofs.Distinct
import OpTape.Proofs.Footprints
import OpTape.Proofs.Shrinking
import OpTape.Proofs.Folded
import OpTape.Proofs.Absorbing
import OpTape.Proofs.Padding
import OpTape.Proofs.Persisting
import OpTape.Proofs.Refolding
import OpTape.Proofs.Fusing
import OpTape.Proofs.Stability
import OpTape.Proofs.Embedding
import OpTape.Proofs.SecondRun
import OpTape.Proofs.Advancing
import OpTape.Proofs.Positions
import OpTape.Proofs.VectorHistory
import OpTape.Proofs.TraceLines
import OpTape.Proofs.Transcript
import OpTape.Proofs.FailedEvaluations
import OpTape.Proofs.NormalForm
