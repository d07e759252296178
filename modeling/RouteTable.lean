import RouteTable.Main
import RouteTable.Proofs.PageOrder
import RouteTable.Proofs.PrefixForest
import RouteTable.Proofs.Parameters
import RouteTable.Proofs.Address
import RouteTable.Proofs.Coverage
import RouteTable.Proofs.MatchingOrder
import RouteTable.Proofs.SiblingNames
import RouteTable.Proofs.Literals
import RouteTable.Proofs.ScriptReading
import RouteTable.Proofs.FixedPoint
import RouteTable.Proofs.Components
import RouteTable.Proofs.Relative
import RouteTable.Proofs.CleanPaths
import RouteTable.Proofs.References
import RouteTable.Proofs.MixinFields
import RouteTable.Proofs.Outline
import RouteTable.Proofs.FileChanges
import RouteTable.Proofs.SortingOnce
import RouteTable.Proofs.Following
import RouteTable.Proofs.PageSearch
import RouteTable.Proofs.Loading
import RouteTable.Proofs.Runs
import RouteTable.Proofs.SiblingOrder
import RouteTable.Proofs.Specificity
import RouteTable.Proofs.Growth
import RouteTable.Proofs.Layout
import RouteTable.Proofs.Idempotence
import RouteTable.Proofs.FinalNames
import RouteTable.Proofs.Overrides
import RouteTable.Proofs.WaysBack
import RouteTable.Proofs.PageChanges
import RouteTable.Proofs.Marks
