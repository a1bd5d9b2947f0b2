import AsyncOrder.Main
import AsyncOrder.Dependence.Control
import AsyncOrder.Dependence.Induction
import AsyncOrder.Proofs.Pipeline.Branches
import AsyncOrder.Proofs.Pipeline.RoundTrip
import AsyncOrder.Proofs.Pipeline.Canonical
import AsyncOrder.Proofs.Scope.Reducing
import AsyncOrder.Proofs.Pipeline.Traced
import AsyncOrder.Proofs.Dependence.Hazards
import AsyncOrder.Proofs.Dependence.Settling
import AsyncOrder.Proofs.Pipeline.Scoped
import AsyncOrder.Proofs.Rewriting.Awaiting
import AsyncOrder.Proofs.Graph.Ways
import AsyncOrder.Proofs.Rewriting.Inheriting
import AsyncOrder.Proofs.Rewriting.Limiting
import AsyncOrder.Proofs.Rewriting.Reaching
import AsyncOrder.Proofs.Rewriting.Surviving
import AsyncOrder.Proofs.Lowering.Naming
import AsyncOrder.Proofs.Lowering.Ordering
import AsyncOrder.Proofs.Lowering.Remaking
import AsyncOrder.Proofs.Lowering.Reprinting
import AsyncOrder.Proofs.Pipeline.Outcome
import AsyncOrder.Proofs.Source.Validity
import AsyncOrder.Proofs.Source.Acceptance
import AsyncOrder.Proofs.Rewriting.Tidying
import AsyncOrder.Proofs.Scope.Describing
import AsyncOrder.Proofs.Scope.Enclosing
import AsyncOrder.Proofs.Scope.Linking
import AsyncOrder.Proofs.Scope.Producing
import AsyncOrder.Proofs.Pipeline.Joins
import AsyncOrder.Proofs.Pipeline.Reread
import AsyncOrder.Proofs.Pipeline.Calls
import AsyncOrder.Proofs.Rewriting.Edits
import AsyncOrder.Proofs.Rewriting.Typing
import AsyncOrder.Proofs.Lowering.Carrying
import AsyncOrder.Proofs.Scope.Reporting
import AsyncOrder.Proofs.Rewriting.Controlling
import AsyncOrder.Proofs.Dependence.Conflicts
import AsyncOrder.Proofs.Rewriting.Forwarding
import AsyncOrder.Proofs.Rewriting.Parameters
import AsyncOrder.Proofs.Token.Tiling
import AsyncOrder.Proofs.Source.Refusing
import AsyncOrder.Proofs.Program.Traversal
import AsyncOrder.Proofs.CommandLine.Dumping
import AsyncOrder.Proofs.Dependence.Induction
import AsyncOrder.Proofs.Pipeline.Drawing
