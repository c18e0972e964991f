import PathQuery.Path.Parser
import PathQuery.Path.Edit
import PathQuery.Spec.Edit
import PathQuery.Schema.Builtin
import PathQuery.Cache.Basic
import PathQuery.Proofs.Checks
import PathQuery.Proofs.Document.Spreads
import PathQuery.Proofs.Document.Variables
import PathQuery.Proofs.Document.Walk
import PathQuery.Proofs.Document.Arguments
import PathQuery.Proofs.Literal.Canonical
import PathQuery.Proofs.Relevance
import PathQuery.Proofs.Cache.Basic
import PathQuery.Proofs.Cache.Service
import PathQuery.Proofs.Cache.Transparency
import PathQuery.Proofs.Path.RoundTrip
import PathQuery.Proofs.Cache.Convergence
import PathQuery.Proofs.Cache.Recency
import PathQuery.Proofs.Spec.EditOrder
import PathQuery.Proofs.Fingerprint
import PathQuery.Proofs.Document.Recursion
import PathQuery.Proofs.Pathwise
import PathQuery.Proofs.Agreement
import PathQuery.Proofs.Document.Erasure
import PathQuery.Proofs.Untyped
import PathQuery.Proofs.Log
import PathQuery.Proofs.Cache.Capacity
import PathQuery.Proofs.Cache.Expiry
import PathQuery.Proofs.Literal.Readback
import PathQuery.Proofs.Literal.Keys
import PathQuery.Proofs.Literal.EnumValue
import PathQuery.Proofs.Document.Filled
import PathQuery.Proofs.DeclarationOrder
import PathQuery.Proofs.Path.TotalOrder
import PathQuery.Proofs.Path.EditHalves
import PathQuery.Proofs.Document.Typenames
import PathQuery.Proofs.Path.Ancestors
import PathQuery.Proofs.Path.Faults
import PathQuery.Proofs.Document.ResponseKeys
import PathQuery.Proofs.Cache.Settings
import PathQuery.Proofs.Prefixes
import PathQuery.Proofs.Siblings
