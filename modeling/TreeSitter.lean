import TreeSitter.Generate.BuildTables.AddReductions
import TreeSitter.Generate.BuildTables.BuildLexTableSound
import TreeSitter.Generate.BuildTables.ConflictBits
import TreeSitter.Generate.BuildTables.ItemSetClosure
import TreeSitter.Generate.BuildTables.MergeTokenSet
import TreeSitter.Generate.BuildTables.RenumberStatesSound
import TreeSitter.Generate.NfaCursorSound
import TreeSitter.Generate.PrepareGrammar.ClassShorthands
import TreeSitter.Generate.PrepareGrammar.EmptyRepeats
import TreeSitter.Generate.PrepareGrammar.ExpandRuleExact
import TreeSitter.Generate.PrepareGrammar.FlattenPrecedence
import TreeSitter.Generate.PrepareGrammar.PreparedLanguages
import TreeSitter.Generate.PrepareGrammar.ValidateIndirectRecursion
import TreeSitter.Generate.Render.Enumerators
import TreeSitter.Generate.Render.Widths
import TreeSitter.Generate.SplitGroups
import TreeSitter.Highlight.Extents
import TreeSitter.Highlight.HtmlFaithful
import TreeSitter.Highlight.IntersectRanges
import TreeSitter.Lib.GetChangedRanges
import TreeSitter.Lib.Node.Child
import TreeSitter.Lib.Node.DescendantForRange
import TreeSitter.Lib.Node.FirstChildForByte
import TreeSitter.Lib.Node.NextSibling
import TreeSitter.Lib.Parser.LexColumn
import TreeSitter.Lib.Parser.SelectChildren
import TreeSitter.Lib.Query.AnalysisState
import TreeSitter.Lib.Query.ConsumedCaptures
import TreeSitter.Lib.Query.LongestMatch
import TreeSitter.Lib.Query.PatternMapSound
import TreeSitter.Lib.Query.StringLiteral
import TreeSitter.Lib.Query.TextPredicateMeaning
import TreeSitter.Lib.Stack.Maxima
import TreeSitter.Lib.Stack.PopCount
import TreeSitter.Lib.Subtree.EditMarks
import TreeSitter.Lib.Subtree.ErrorGroups
import TreeSitter.Lib.SymbolForName
import TreeSitter.Lib.TreeCursor.FirstChildForByte
import TreeSitter.Lib.WasmStdlib.Bounds
import TreeSitter.Lib.WasmStore.DylinkFile
import TreeSitter.Lib.WasmStore.Placement
import TreeSitter.Tags.LineInfo
