import DraftSchema.Draft04
import DraftSchema.Json.Reader
import DraftSchema.Session
import DraftSchema.Proofs.Run
import DraftSchema.Proofs.Reference
import DraftSchema.Proofs.Reading
import DraftSchema.Proofs.Growth
import DraftSchema.Proofs.Output
import DraftSchema.Proofs.Atomicity
import DraftSchema.Proofs.Document
import DraftSchema.Proofs.Placement
import DraftSchema.Proofs.Sharing
import DraftSchema.Proofs.Frame
import DraftSchema.Proofs.Tree
import DraftSchema.Proofs.TreeGrowth
import DraftSchema.Proofs.Alike
import DraftSchema.Proofs.Commutation
import DraftSchema.Proofs.History
import DraftSchema.Proofs.Refusal
import DraftSchema.Proofs.Extraction
import DraftSchema.Proofs.Numeric
import DraftSchema.Proofs.Uniform
import DraftSchema.Proofs.Nesting
import DraftSchema.Proofs.Projection
import DraftSchema.Proofs.Repetition
import DraftSchema.Proofs.Fallback
import DraftSchema.Proofs.Modelled
import DraftSchema.Proofs.Compilation
import DraftSchema.Proofs.Assembly
import DraftSchema.Proofs.JsonDocument
import DraftSchema.Proofs.Counting
import DraftSchema.Proofs.Metaschema
import DraftSchema.Proofs.Legality
import DraftSchema.Proofs.Loose
import DraftSchema.Proofs.Mirrored
import DraftSchema.Proofs.Congruence
import DraftSchema.Proofs.Recast
import DraftSchema.Proofs.Route
import DraftSchema.Proofs.Likewise
import DraftSchema.Proofs.Indifference
import DraftSchema.Proofs.Lifting
import DraftSchema.Proofs.ExactPattern
import DraftSchema.Proofs.Pointing
import DraftSchema.Proofs.Emptiness
import DraftSchema.Proofs.Obstacle
import DraftSchema.Proofs.Conflict
import DraftSchema.Proofs.Acceptance
import DraftSchema.Proofs.Spelling
import DraftSchema.Proofs.Undeclared
import DraftSchema.Proofs.Reach
import DraftSchema.Proofs.Staying
import DraftSchema.Proofs.StayingDocument
import DraftSchema.Proofs.StayingAccess
import DraftSchema.Proofs.StayingOperation
import DraftSchema.Proofs.StayingMethod
import DraftSchema.Proofs.StayingRule
import DraftSchema.Proofs.StayingBuilder
import DraftSchema.Proofs.StayingCall
import DraftSchema.Proofs.Proxy
import DraftSchema.Proofs.Introspection
import DraftSchema.Proofs.Overriding
import DraftSchema.Proofs.Blind
import DraftSchema.Proofs.Turning
import DraftSchema.Proofs.TurningStore
import DraftSchema.Proofs.TurningPath
import DraftSchema.Proofs.InStep
import DraftSchema.Proofs.InStepAccess
import DraftSchema.Proofs.InStepOperation
import DraftSchema.Proofs.InStepRule
import DraftSchema.Proofs.InStepBuilder
import DraftSchema.Proofs.InStepCall
import DraftSchema.Proofs.CallDepth
import DraftSchema.Proofs.Measuring
