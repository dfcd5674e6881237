import ThreadAffinity.Analysis
import ThreadAffinity.CallGraph.Basic
import ThreadAffinity.CallGraph.Walk
import ThreadAffinity.Directive
import ThreadAffinity.DirectiveLint
import ThreadAffinity.Distinct
import ThreadAffinity.External.Basic
import ThreadAffinity.External.Entries
import ThreadAffinity.External.File
import ThreadAffinity.External.Flag
import ThreadAffinity.Finding
import ThreadAffinity.FunctionSpec
import ThreadAffinity.Ignore
import ThreadAffinity.Program
import ThreadAffinity.Proofs.Accounting
import ThreadAffinity.Proofs.Addressing
import ThreadAffinity.Proofs.Afresh
import ThreadAffinity.Proofs.BoundaryChains
import ThreadAffinity.Proofs.Choice
import ThreadAffinity.Proofs.Collapse
import ThreadAffinity.Proofs.CrossThread
import ThreadAffinity.Proofs.DirectCalls
import ThreadAffinity.Proofs.Distinct
import ThreadAffinity.Proofs.EffectiveDirectives
import ThreadAffinity.Proofs.Entries
import ThreadAffinity.Proofs.Exploration
import ThreadAffinity.Proofs.ExploredOnce
import ThreadAffinity.Proofs.ExpressibleTags
import ThreadAffinity.Proofs.ExternalTags
import ThreadAffinity.Proofs.FewerUnused
import ThreadAffinity.Proofs.FirstFault
import ThreadAffinity.Proofs.FlagValues
import ThreadAffinity.Proofs.HandedBody
import ThreadAffinity.Proofs.IgnoreLists
import ThreadAffinity.Proofs.PathIndependence
import ThreadAffinity.Proofs.Paths
import ThreadAffinity.Proofs.Placement
import ThreadAffinity.Proofs.Preorder
import ThreadAffinity.Proofs.ProgramGraph
import ThreadAffinity.Proofs.Remarks
import ThreadAffinity.Proofs.Resolution
import ThreadAffinity.Proofs.ResolvedCalls
import ThreadAffinity.Proofs.SpecForms
import ThreadAffinity.Proofs.SpecText
import ThreadAffinity.Proofs.Suppression
import ThreadAffinity.Proofs.Table
import ThreadAffinity.Proofs.TagPrecedence
import ThreadAffinity.Proofs.Text
import ThreadAffinity.Proofs.Traversal
import ThreadAffinity.Proofs.Usage
import ThreadAffinity.Proofs.Violations
import ThreadAffinity.Proofs.VisitingOrder
import ThreadAffinity.Proofs.Wording
import ThreadAffinity.Proofs.Wrapping
import ThreadAffinity.Source.Calls
import ThreadAffinity.Source.Expr
import ThreadAffinity.Source.File
import ThreadAffinity.Source.Function
import ThreadAffinity.Source.Position
import ThreadAffinity.Source.Printer
import ThreadAffinity.Table
import ThreadAffinity.Tag
import ThreadAffinity.TagIndex
import ThreadAffinity.Text.Blank
import ThreadAffinity.Text.Printable
import ThreadAffinity.Text.Quoted
import ThreadAffinity.Text.Split
import ThreadAffinity.Yaml.Glyph
import ThreadAffinity.Yaml.Node
import ThreadAffinity.Yaml.Reader
import ThreadAffinity.Yaml.Scalar
