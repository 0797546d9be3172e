import GoContracts.Main
import GoContracts.Proofs.Directive.Joining
import GoContracts.Proofs.Directive.Partner
import GoContracts.Proofs.Directive.RoundTrip
import GoContracts.Proofs.Engine.Again
import GoContracts.Proofs.Engine.Rerun
import GoContracts.Proofs.Engine.Sparing
import GoContracts.Proofs.Guard.Deciding
import GoContracts.Proofs.LineMarker.Recovery
import GoContracts.Proofs.Syntax.Enumeration
import GoContracts.Proofs.Syntax.Expression
import GoContracts.Proofs.TypeExpr.Declared
import GoContracts.Proofs.Typing.Comparability
import GoContracts.Proofs.Typing.Soundness
import GoContracts.Proofs.Typing.Termination
import GoContracts.Proofs.Typing.TypeSets
import GoContracts.Proofs.Weaving.CheckedNames
import GoContracts.Proofs.Weaving.Conservation
import GoContracts.Proofs.Weaving.Fidelity
import GoContracts.Proofs.Weaving.NeededImports
import GoContracts.Proofs.Weaving.Promotion
import GoContracts.Proofs.Weaving.Reference
import GoContracts.Proofs.Weaving.Returns
