import Psat.Capability.Probe
import Psat.Capability.Provenance
import Psat.Capability.SideConditions
import Psat.Capability.Sound
import Psat.Capability.Subjects
import Psat.Codec.RoundTrip
import Psat.Control.Breadth
import Psat.Enrollment.Safety
import Psat.Evaluator.Conjuncts
import Psat.Evaluator.ReachTruth
import Psat.Evaluator.ScopeOrder
import Psat.Events.MappingScan
import Psat.Events.Replay
import Psat.Events.Skipped
import Psat.Floors.Witness
import Psat.Flows.Walk
import Psat.Indexer.Fetch
import Psat.Lifecycle.Drain
import Psat.Materialize.Builders
import Psat.Materialize.Bundles
import Psat.Monitoring.LastKnown
import Psat.Monitoring.Retention
import Psat.Ordering.Loops
import Psat.Predicates.ReachExact
import Psat.Probe.Differential
import Psat.Probe.Enrolled
import Psat.Queue.Fence
import Psat.Queue.Marks
import Psat.Queue.StalePolicy
import Psat.Roles.Deferred
import Psat.Roles.Drift
import Psat.Roles.HolderPlane
import Psat.Scoring.EarnedZero
import Psat.Scoring.Exposure
import Psat.Scoring.Marks
import Psat.Scoring.Composed
import Psat.Scoring.RowValue
import Psat.Scoring.WalksAgree
import Psat.Surface.Equivalence
import Psat.Surface.Openness
