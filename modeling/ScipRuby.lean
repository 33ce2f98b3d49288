import ScipRuby.Lib.Varint
import ScipRuby.Lib.Quoting
import ScipRuby.Serialize.Pickler
import ScipRuby.Serialize.PicklerRoundTrip
import ScipRuby.Scip.SymbolString
import ScipRuby.Scip.UniqueDecoding
import ScipRuby.Scip.Location
import ScipRuby.Scip.SymbolRef
import ScipRuby.Scip.State
import ScipRuby.Scip.SymbolCache
import ScipRuby.Scip.Saves
import ScipRuby.Scip.SymbolInfos
import ScipRuby.Scip.Occurrences
import ScipRuby.Scip.EmittedStrings
import ScipRuby.Scip.OrderIndependence
import ScipRuby.Scip.Documents
import ScipRuby.Lib.Dedup
import ScipRuby.Scip.FileIndex
import ScipRuby.Scip.FileRefinement
import ScipRuby.Scip.FileRuns
import ScipRuby.Scip.Scheduling
import ScipRuby.Lib.OpenRecursion
import ScipRuby.Lib.UnionIntersection
import ScipRuby.Types.Type
import ScipRuby.Types.Subtyping
import ScipRuby.Types.LubGlb
import ScipRuby.Types.UnionLayer
import ScipRuby.Types.UnionSoundness
import ScipRuby.Types.Plain
import ScipRuby.Types.Totality
import ScipRuby.Types.LubTotality
import ScipRuby.Types.GlbTotality
import ScipRuby.Types.Alignment
import ScipRuby.Types.Transitivity
import ScipRuby.Lib.Bypass
import ScipRuby.Cfg.Simplify
import ScipRuby.Cfg.Rewiring
import ScipRuby.Cfg.Invariant
import ScipRuby.Cfg.Termination
import ScipRuby.Cfg.SimplifyLoop
import ScipRuby.Lib.Acceleration
import ScipRuby.Cfg.Execution
import ScipRuby.Packages.Condensation
import ScipRuby.Lib.Stratify
import ScipRuby.Packages.BackEdges
import ScipRuby.Packages.Counters
import ScipRuby.Packages.Traversal
import ScipRuby.Packages.TraversalOrder
import ScipRuby.Lib.LowLink
import ScipRuby.Packages.ComputeSCCs
import ScipRuby.Packages.CloseScc
import ScipRuby.Packages.Tarjan
import ScipRuby.Packages.StrongConnect
import ScipRuby.Packages.Passes
import ScipRuby.Packages.SccCorrectness
import ScipRuby.Packages.SccIds
import ScipRuby.Lib.Probing
import ScipRuby.Names.NextPowerOfTwo
import ScipRuby.Names.NameTable
import ScipRuby.Names.Interning
import ScipRuby.Names.Operations
import ScipRuby.Names.Enter
import ScipRuby.Names.Runs
import ScipRuby.Names.Reachable
import ScipRuby.Names.Built
import ScipRuby.Names.Substitution
import ScipRuby.Names.Embedding
import ScipRuby.Serialize.Codec
import ScipRuby.Serialize.NameTable
import ScipRuby.Serialize.NameTableRoundTrip
import ScipRuby.Lib.Traces
import ScipRuby.Lsp.EpochManager
import ScipRuby.Lsp.PreemptionTasks
import ScipRuby.Lsp.PreemptionSafety
import ScipRuby.Lsp.ErrorReporter
import ScipRuby.Lib.Patches
import ScipRuby.Lsp.FileUpdates
import ScipRuby.Lsp.Indexer
import ScipRuby.Lsp.FileTables
import ScipRuby.Lsp.EditProtocol
import ScipRuby.Lsp.EditInvariant
import ScipRuby.Lsp.EditSafety
import ScipRuby.Lsp.MessageLoop
import ScipRuby.Lsp.EpochInterval
import ScipRuby.Lsp.PreemptionDecision
import ScipRuby.Lsp.Input
import ScipRuby.Lsp.InputFraming
import ScipRuby.Lsp.QueueMerging
import ScipRuby.Lib.DepthFirst
import ScipRuby.Lib.Sweeping
import ScipRuby.Cfg.Instructions
import ScipRuby.Cfg.TopoSort
import ScipRuby.Cfg.TopoOrder
import ScipRuby.Cfg.BlockArguments
import ScipRuby.Cfg.ArgumentSolutions
import ScipRuby.Cfg.DeadAssigns
import ScipRuby.Cfg.Dealias
import ScipRuby.Cfg.AliasSoundness
import ScipRuby.Cfg.Pipeline
import ScipRuby.Scip.LocalTraversal
import ScipRuby.Scip.LocalRoles
import ScipRuby.Ancestry.Hierarchy
import ScipRuby.Ancestry.Linearization
import ScipRuby.Ancestry.Preservation
import ScipRuby.Ancestry.LateMixins
import ScipRuby.Scip.RefOnlyStrings
import ScipRuby.Scip.Searching
import ScipRuby.Scip.GemLookup
import ScipRuby.Scip.Coordinates
import ScipRuby.Lib.SelfSync
import ScipRuby.Scip.Utf8Repair
import ScipRuby.Scip.LegacyLock
import ScipRuby.Types.ClassUnions
import ScipRuby.Types.Sealed
import ScipRuby.Scip.FieldResolve
import ScipRuby.Scip.FieldRelationships
import ScipRuby.Serialize.TypePickle
import ScipRuby.Serialize.SymbolTable
import ScipRuby.Serialize.SymbolTableRoundTrip
import ScipRuby.Serialize.Tree
import ScipRuby.Serialize.TreeRoundTrip
import ScipRuby.Packager.PackageDB
import ScipRuby.Lib.GradedOrder
import ScipRuby.Packager.ImportOrder
import ScipRuby.Ancestry.ConcreteMethods
import ScipRuby.Names.MangleRenames
import ScipRuby.Lib.Worklist
import ScipRuby.Packager.Dependents
import ScipRuby.Lib.BreadthFirst
import ScipRuby.Packager.ImportPath
import ScipRuby.Packager.BestStrictness
import ScipRuby.Packager.ImportLevels
import ScipRuby.Packages.CodeGraph
import ScipRuby.Lib.Condensations
import ScipRuby.Lib.Greedy
import ScipRuby.Packager.ExportsByPackage
import ScipRuby.Packager.ExportsCoverage
import ScipRuby.Lib.Preorder
import ScipRuby.Packager.VisibilityChecker
import ScipRuby.Packager.ExportedFlags
import ScipRuby.Packager.DuplicateExports
import ScipRuby.Packager.ExportBlame
import ScipRuby.Lsp.FindDocumentation
import ScipRuby.Rbs.RBSDeclaration
import ScipRuby.Lib.Splicing
import ScipRuby.Autocorrect.Application
import ScipRuby.Autocorrect.MergeAdjacentEdits
import ScipRuby.Lib.Segments
import ScipRuby.Scip.Positions
import ScipRuby.Lsp.ContentChanges
import ScipRuby.Lsp.Subclasses
import ScipRuby.Lsp.SubclassNumbering
import ScipRuby.Lsp.FastPathFiles
import ScipRuby.Lib.Headings
import ScipRuby.Packager.Declarations
import ScipRuby.Lib.Arrangements
import ScipRuby.Packager.RenderPackageRb
import ScipRuby.Packager.ImportHeaders
import ScipRuby.Packager.ImportPlacement
import ScipRuby.Packager.ReferenceChecks
import ScipRuby.Packager.ImportModularity
import ScipRuby.Lib.EditDistance
import ScipRuby.Common.Ints
import ScipRuby.Common.Levenstein
import ScipRuby.Lib.JsonStrings
import ScipRuby.Common.JSON
import ScipRuby.Lib.WordSets
import ScipRuby.Common.UIntSet
import ScipRuby.Lsp.Indentation
import ScipRuby.Lib.Occurrences
import ScipRuby.Common.IgnorePatterns
import ScipRuby.Common.StableStringStorage
import ScipRuby.Common.ConcurrentQueue
import ScipRuby.Lib.Interleaving
import ScipRuby.Common.DirectoryTree
import ScipRuby.Common.AppendFiles
import ScipRuby.Common.AppendFilesInvariant
import ScipRuby.Common.AppendFilesListing
import ScipRuby.Lib.ReverseIndex
import ScipRuby.Infer.Knowledge
import ScipRuby.Infer.EnvironmentFlow
import ScipRuby.Infer.IndexInvariant
import ScipRuby.Infer.IndexRuns
import ScipRuby.Lib.FlowGraphs
import ScipRuby.Lib.StateRuns
import ScipRuby.Cfg.BuilderState
import ScipRuby.Cfg.BuilderWalk
import ScipRuby.Cfg.BuilderEntry
import ScipRuby.Cfg.TreeMeaning
import ScipRuby.Cfg.BuilderFrame
import ScipRuby.Cfg.BuilderStrands
import ScipRuby.Cfg.BuilderSteps
import ScipRuby.Cfg.BuilderStatements
import ScipRuby.Cfg.BuilderCalls
import ScipRuby.Cfg.BuilderExceptions
import ScipRuby.Cfg.BuilderCorrect
import ScipRuby.Cfg.BuilderMethods
import ScipRuby.Cfg.BuilderHandover
