import TypeShape.Declaration.Base
import TypeShape.Flow.Branches
import TypeShape.Proofs.Declaration.Constructor
import TypeShape.Proofs.Declaration.History
import TypeShape.Proofs.Declaration.Instantiation
import TypeShape.Proofs.Declaration.Lookup
import TypeShape.Proofs.Declaration.Reachability
import TypeShape.Proofs.Flow.Case
import TypeShape.Proofs.Flow.Frame
import TypeShape.Proofs.Flow.Laws
import TypeShape.Proofs.Flow.Recorded
import TypeShape.Proofs.Grammar.Faithful
import TypeShape.Proofs.Grammar.Progress
import TypeShape.Proofs.NormalForm
import TypeShape.Proofs.Search.Anchors
import TypeShape.Proofs.Search.BareNames
import TypeShape.Proofs.Search.Cells
import TypeShape.Proofs.Search.Faithful
import TypeShape.Proofs.Search.History
import TypeShape.Proofs.Search.Termination
import TypeShape.Proofs.Shape.Intersections
import TypeShape.Proofs.Shape.Unions
import TypeShape.Proofs.Split.Ancestor
import TypeShape.Proofs.Split.Falsy
import TypeShape.Proofs.Split.Rejoin
import TypeShape.Proofs.Subtyping
import TypeShape.Proofs.Subtyping.Pointwise
import TypeShape.Proofs.Types.Agreement
import TypeShape.Proofs.Types.Capture
import TypeShape.Proofs.Types.Composition
import TypeShape.Proofs.Types.Mentioned
import TypeShape.Proofs.Types.Monoid
import TypeShape.Shape.Search
