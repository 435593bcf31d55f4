import CodeGraph.CommandLine.Disk
import CodeGraph.Format.Settings
import CodeGraph.Main
import CodeGraph.Proofs.Change.Outermost
import CodeGraph.Proofs.Change.Union
import CodeGraph.Proofs.Change.Minimal
import CodeGraph.Proofs.Format.RoundTrip
import CodeGraph.Proofs.Graph.Edges
import CodeGraph.Proofs.Request.DepthLimit
import CodeGraph.Proofs.Request.Transparency
import CodeGraph.Proofs.Request.Versions
import CodeGraph.Proofs.Scope.Calls
import CodeGraph.Proofs.Scope.DefinedNames
import CodeGraph.Proofs.Scope.Nesting
import CodeGraph.Service.Router
import CodeGraph.Proofs.Tree.Identity
import CodeGraph.Proofs.Tree.Recast
import CodeGraph.Proofs.Scope.Recast
import CodeGraph.Proofs.Scope.RecastRules
import CodeGraph.Proofs.Graph.Invariance
import CodeGraph.Proofs.Graph.Degrees
import CodeGraph.Proofs.Request.Footprint
import CodeGraph.Proofs.Request.LookUps
import CodeGraph.Proofs.Change.Topmost
import CodeGraph.Proofs.Change.Touch
import CodeGraph.Proofs.Position.Innermost
import CodeGraph.Proofs.Position.Offset
import CodeGraph.Proofs.Cache.History
import CodeGraph.Proofs.Cache.Oldest
import CodeGraph.Proofs.Graph.Extraction
import CodeGraph.Proofs.Outline
import CodeGraph.Proofs.Scope.Answers
import CodeGraph.Proofs.Settings.Ignored
import CodeGraph.Proofs.Scope.Parameters
import CodeGraph.Proofs.Toml.Quoted
import CodeGraph.Proofs.Toml.Document
import CodeGraph.Proofs.Settings.RoundTrip
import CodeGraph.Proofs.Scope.Marks
import CodeGraph.Proofs.Scope.Ancestry
import CodeGraph.Proofs.Scope.Origins
