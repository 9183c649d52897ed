import JavaAnalyzer.Index.Metadata
import JavaAnalyzer.Index.HierarchyRefs
import JavaAnalyzer.Index.HierarchyReach
import JavaAnalyzer.Index.DeclarationRanges
import JavaAnalyzer.Index.Republication
import JavaAnalyzer.Index.ArtifactStore
import JavaAnalyzer.Index.ArchiveRoundTrip
import JavaAnalyzer.Index.ScopeCache
import JavaAnalyzer.Index.StoreHistory
import JavaAnalyzer.BuildIntegration.ReloadLoop
import JavaAnalyzer.BuildIntegration.ModelImport
import JavaAnalyzer.Language.ModuleRoundTrip
import JavaAnalyzer.Language.MemberTypes
import JavaAnalyzer.Language.SourceTypeCtx
import JavaAnalyzer.Language.ScopingRules
import JavaAnalyzer.Language.NamingWalks
import JavaAnalyzer.Language.MemberRanges
import JavaAnalyzer.Language.TypeAgreement
import JavaAnalyzer.Language.SyntheticNavigation
import JavaAnalyzer.Language.ExtractedClasses
import JavaAnalyzer.Completion.ExpressionProvider
import JavaAnalyzer.SalsaQueries.ExtractorViews
import JavaAnalyzer.SalsaQueries.Freshness
import JavaAnalyzer.Semantic.SemanticCache
import JavaAnalyzer.Semantic.SignatureGrammar
import JavaAnalyzer.Semantic.ReceiverText
import JavaAnalyzer.Semantic.Conversion
import JavaAnalyzer.Semantic.OverloadScore
import JavaAnalyzer.Lsp.RequestCancellation
import JavaAnalyzer.Lsp.SemanticContextCache
import JavaAnalyzer.Lsp.SemanticTokens
import JavaAnalyzer.Lsp.SharedSalsaFile
import JavaAnalyzer.Lsp.DocumentReindex
import JavaAnalyzer.Lsp.DocumentSync
import JavaAnalyzer.Lsp.CompletionEdit
import JavaAnalyzer.Lsp.DefinitionRange
import JavaAnalyzer.Lsp.PreparedRequest
import JavaAnalyzer.Lsp.ZipSource
import JavaAnalyzer.Workspace.ActiveJdk
import JavaAnalyzer.Workspace.SourceWatch
import JavaAnalyzer.Workspace.SourcePlacement
import JavaAnalyzer.Workspace.SourceOrigin
import JavaAnalyzer.Workspace.PathScope
import JavaAnalyzer.Workspace.WatchEvents
import JavaAnalyzer.Index.CacheTransparency
import JavaAnalyzer.Index.ScopeOrder
import JavaAnalyzer.Language.ModifierFlags
import JavaAnalyzer.Language.RelaxedTypes
import JavaAnalyzer.Language.GenericTypeTexts
import JavaAnalyzer.Language.SourceDescriptors
import JavaAnalyzer.Language.FlowNarrowing
import JavaAnalyzer.Language.CommentDetection
import JavaAnalyzer.Language.CopiedAnnotations
import JavaAnalyzer.Language.LombokConfig
import JavaAnalyzer.Semantic.PrimitiveArguments
import JavaAnalyzer.Semantic.EnclosingOwner
import JavaAnalyzer.Semantic.TypeParameterAgreement
import JavaAnalyzer.Semantic.BoundExpansion
import JavaAnalyzer.Semantic.CallsiteOverloads
import JavaAnalyzer.Workspace.SourceScan
import JavaAnalyzer.Semantic.ArgumentMapping
import JavaAnalyzer.Language.RopePositions
import JavaAnalyzer.Lsp.TreeEdits
import JavaAnalyzer.Lsp.TokenCollector
import JavaAnalyzer.Semantic.ArgumentTexts
import JavaAnalyzer.Index.SourceParameters
import JavaAnalyzer.Semantic.SourceTypeText
import JavaAnalyzer.Completion.SourceNames
import JavaAnalyzer.Completion.ChainParser
import JavaAnalyzer.Lsp.ImportEdit
import JavaAnalyzer.Language.OutlineCompleteness
import JavaAnalyzer.Language.ParameterHints
import JavaAnalyzer.Semantic.BindingAgreement
import JavaAnalyzer.Completion.PostProcessor
import JavaAnalyzer.Completion.CallableInsert
import JavaAnalyzer.Completion.GeneratedBodies
import JavaAnalyzer.Completion.RenderedTypes
import JavaAnalyzer.Completion.OverrideProvider
import JavaAnalyzer.Completion.Scorer
import JavaAnalyzer.Library.CheckedRuns
import JavaAnalyzer.Completion.Engine
import JavaAnalyzer.Index.GlobalIndex
import JavaAnalyzer.Language.ResolvedTypes
import JavaAnalyzer.Semantic.SymbolResolver
import JavaAnalyzer.Semantic.NameMeaning
import JavaAnalyzer.Language.ExpressionTypes
import JavaAnalyzer.Completion.OfferedMembers
