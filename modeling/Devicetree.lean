import Devicetree.Accessor.Form
import Devicetree.Accessor.Resolve
import Devicetree.Accessor.Value
import Devicetree.Binding
import Devicetree.Build
import Devicetree.CallExpr
import Devicetree.CallExpr.Expand
import Devicetree.CallExpr.Parse
import Devicetree.CallTree
import Devicetree.CallTree.Parse
import Devicetree.Define
import Devicetree.Edit
import Devicetree.Editor.Goto
import Devicetree.Editor.Hover
import Devicetree.Expr
import Devicetree.Expr.Eval
import Devicetree.Expr.Parse
import Devicetree.Fragment
import Devicetree.Graph
import Devicetree.Graph.Cursor
import Devicetree.Graph.Lookup
import Devicetree.Graph.Reference
import Devicetree.Graph.Register
import Devicetree.Graph.Specifier
import Devicetree.Graph.Walk
import Devicetree.Host
import Devicetree.Identifier
import Devicetree.Issue
import Devicetree.Label
import Devicetree.Merge
import Devicetree.NodeName
import Devicetree.Numeral
import Devicetree.ParseCache
import Devicetree.Position
import Devicetree.Table
import Devicetree.Text
import Devicetree.Timeline
import Devicetree.Token
import Devicetree.Token.Scan
import Devicetree.Value
import Devicetree.Workspace
import Devicetree.Proofs.Access
import Devicetree.Proofs.Change
import Devicetree.Proofs.Links
import Devicetree.Proofs.Targets
import Devicetree.Proofs.Steps
import Devicetree.Proofs.Builds
import Devicetree.Proofs.Ledger
import Devicetree.Proofs.Versions
import Devicetree.Proofs.LiveTree
import Devicetree.Proofs.Reshapes
import Devicetree.Proofs.TreeMerge
import Devicetree.Proofs.History
import Devicetree.Proofs.Labelling
import Devicetree.Proofs.Directives
import Devicetree.Proofs.ScopedProperties
import Devicetree.Proofs.NodeNames
import Devicetree.Proofs.SourceNodes
import Devicetree.Proofs.ScopedChildren
import Devicetree.Proofs.Trails
import Devicetree.Proofs.Declarations
import Devicetree.Proofs.Placements
import Devicetree.Proofs.ForwardReferences
import Devicetree.Proofs.Paths
import Devicetree.Proofs.Alike
import Devicetree.Proofs.ReferenceFragments
import Devicetree.Proofs.LiveAccessors
import Devicetree.Proofs.TreeOrder
import Devicetree.Proofs.Bare
import Devicetree.Proofs.LiveLookups
import Devicetree.Proofs.IssueAccounts
import Devicetree.Proofs.PlacesAndOptions
import Devicetree.Proofs.OverlappingRebuilds
import Devicetree.Proofs.ExprGrammar
import Devicetree.Proofs.Lexemes
import Devicetree.Proofs.Numerals
import Devicetree.Proofs.ExprText
import Devicetree.Proofs.CallGrammar
import Devicetree.Proofs.CallListing
import Devicetree.Proofs.CallNesting
import Devicetree.Proofs.TidySources
import Devicetree.Proofs.CallText
import Devicetree.Proofs.CallTrees
import Devicetree.Proofs.SpecifierGroups
import Devicetree.Proofs.CachedParses
import Devicetree.Proofs.IsolatedContexts
import Devicetree.Proofs.LegibleCalls
import Devicetree.Proofs.NodeIdentifiers
import Devicetree.Proofs.ReportedKinds
import Devicetree.Proofs.RepeatedChildren
import Devicetree.Proofs.Phandles
import Devicetree.Proofs.CoalescedRebuilds
import Devicetree.Proofs.ExprMeaning
import Devicetree.Proofs.DefineNesting
import Devicetree.Proofs.PlaceValues
import Devicetree.Proofs.IntegerLiterals
import Devicetree.Proofs.UnitAddresses
import Devicetree.Proofs.TokenRules
import Devicetree.Proofs.BlockComments
import Devicetree.Proofs.CallsAround
import Devicetree.Proofs.AliasBodies
import Devicetree.Proofs.AccessorArguments
import Devicetree.Proofs.FallbackForms
import Devicetree.Proofs.PropertyIndices
import Devicetree.Proofs.ReferencedProperties
import Devicetree.Proofs.InstanceShorthands
import Devicetree.Proofs.NodeStatus
import Devicetree.Proofs.InstanceNumbers
import Devicetree.Proofs.RegisterBlocks
import Devicetree.Proofs.InterruptGroups
import Devicetree.Proofs.CursorHits
import Devicetree.Proofs.CursorScope
import Devicetree.Proofs.Substitution
