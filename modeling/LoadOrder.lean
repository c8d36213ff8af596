import LoadOrder.Encoding
import LoadOrder.Proofs.Digraph.Discovery
import LoadOrder.Proofs.Session.Admissible
import LoadOrder.Proofs.Session.AnchorSafety
import LoadOrder.Proofs.Session.Omission
import LoadOrder.Proofs.Session.Restating
import LoadOrder.Proofs.Session.Unbound
import LoadOrder.Proofs.Digraph.Foremost
import LoadOrder.Proofs.Digraph.Check
import LoadOrder.Proofs.Session.Consistency
import LoadOrder.Proofs.Session.Lifecycle
import LoadOrder.Proofs.Session.SelfCheck
import LoadOrder.Proofs.Digraph.Stability
import LoadOrder.Proofs.Session.Refusals
import LoadOrder.Proofs.Session.Opening
import LoadOrder.Proofs.Digraph.Preorder
import LoadOrder.Proofs.Digraph.MemberWalk
import LoadOrder.Proofs.Digraph.NamedLog
import LoadOrder.Proofs.Graph
import LoadOrder.Proofs.Key
import LoadOrder.Proofs.Registry.History
import LoadOrder.Proofs.Graph.Checks
import LoadOrder.Proofs.Session.Snapshot
import LoadOrder.Proofs.Digraph.LeastLeg
import LoadOrder.Proofs.Naming
import LoadOrder.Proofs.Encoding
import LoadOrder.Proofs.Session.AuditTrail
