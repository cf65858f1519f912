import ParadoxCode.Engine.CachePreviews
import ParadoxCode.Engine.Cycles
import ParadoxCode.Engine.PositionOverflow
import ParadoxCode.Engine.SearchPrune
import ParadoxCode.Engine.TemplateReads
import ParadoxCode.Engine.ZipListing
import ParadoxCode.Format.Visible
import ParadoxCode.Hir.ConstantConditions
import ParadoxCode.Hir.LinkTemplates
import ParadoxCode.Hir.ReferenceNames
import ParadoxCode.Hir.ScopeTransition
import ParadoxCode.Hir.TemplateRelations
import ParadoxCode.Hir.UnconditionalReads
import ParadoxCode.Ide.DiagnosticMerge
import ParadoxCode.Ide.Evidence
import ParadoxCode.Ide.Insertion
import ParadoxCode.Ide.LocalisationFile
import ParadoxCode.Ide.LocalisationSearch
import ParadoxCode.Ide.MatchLocation
import ParadoxCode.Ide.ParameterTokens
import ParadoxCode.Ide.ReadableText
import ParadoxCode.Ide.SchemaRanges
import ParadoxCode.Ide.Suggestions
import ParadoxCode.Ide.TextHits
import ParadoxCode.Ide.TokenSources
import ParadoxCode.Ide.Winners
import ParadoxCode.Index.LinePositions
import ParadoxCode.Lib.CaseTable
import ParadoxCode.Lib.Traced
import ParadoxCode.Mission.Acyclic
import ParadoxCode.Mission.Encoding
import ParadoxCode.Mission.Layout
import ParadoxCode.Mission.Ranges
import ParadoxCode.Mission.Write
import ParadoxCode.Parser.Bounded
import ParadoxCode.Parser.Localisation
import ParadoxCode.Parser.QuotedParse
import ParadoxCode.Parser.QuotedScript
import ParadoxCode.Parser.ScriptLossless
import ParadoxCode.Parser.ScriptParse
import ParadoxCode.Pdc.SearchPages
import ParadoxCode.Pdc.WarmPass
import ParadoxCode.Rules.FieldQuery
import ParadoxCode.Rules.FileRules
import ParadoxCode.Rules.PatternMatch
import ParadoxCode.Rules.PatternUnique
import ParadoxCode.Rules.TemplateUnfold
import ParadoxCode.Rules.TypeSpelling
import ParadoxCode.Transcode.Refused
import ParadoxCode.Vfs.LogicalPaths
import ParadoxCode.Vfs.ScanUnion
import ParadoxCode.Workspace.FlagNames
import ParadoxCode.Workspace.FlagWrites
import ParadoxCode.Workspace.Lineage
import ParadoxCode.Workspace.Previews
import ParadoxCode.Workspace.QueryCache
import ParadoxCode.Workspace.SourceResolution
import ParadoxCode.Workspace.Synchronisation
