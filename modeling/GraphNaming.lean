import GraphNaming.Graph.Printer
import GraphNaming.Proofs.Absorption
import GraphNaming.Proofs.AliasIndices
import GraphNaming.Proofs.Blocking
import GraphNaming.Proofs.Boundaries
import GraphNaming.Proofs.Commuting
import GraphNaming.Proofs.DefaultNames
import GraphNaming.Proofs.ExactLog
import GraphNaming.Proofs.Exhaustion
import GraphNaming.Proofs.Findings
import GraphNaming.Proofs.FirstOccurrences
import GraphNaming.Proofs.IndexGrammar
import GraphNaming.Proofs.Liveness
import GraphNaming.Proofs.Placement
import GraphNaming.Proofs.PointerTable
import GraphNaming.Proofs.Reading
import GraphNaming.Proofs.RegionForest
import GraphNaming.Proofs.RelatedOrder
import GraphNaming.Proofs.ScopedClasses
import GraphNaming.Proofs.Search
import GraphNaming.Proofs.Sources
import GraphNaming.Proofs.Totality
import GraphNaming.Proofs.Uniqueness
import GraphNaming.Proofs.Unvisited
import GraphNaming.Proofs.UserNames
import GraphNaming.Proofs.WrittenForm
