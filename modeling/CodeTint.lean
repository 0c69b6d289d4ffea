import CodeTint.Config.Load
import CodeTint.Highlight
import CodeTint.Logging
import CodeTint.Proofs.Annotate
import CodeTint.Proofs.Ansi
import CodeTint.Proofs.Characters
import CodeTint.Proofs.CommentSpace
import CodeTint.Proofs.Config
import CodeTint.Proofs.Decoder
import CodeTint.Proofs.Document
import CodeTint.Proofs.Glyph
import CodeTint.Proofs.Html
import CodeTint.Proofs.Indexed
import CodeTint.Proofs.JsonScan
import CodeTint.Proofs.JsonText
import CodeTint.Proofs.Kinds
import CodeTint.Proofs.Layout
import CodeTint.Proofs.Lexeme
import CodeTint.Proofs.LineEndings
import CodeTint.Proofs.Literal
import CodeTint.Proofs.Lookahead
import CodeTint.Proofs.Lookback
import CodeTint.Proofs.Overrides
import CodeTint.Proofs.Partition
import CodeTint.Proofs.Pieces
import CodeTint.Proofs.RoundTrip
import CodeTint.Proofs.Scan
import CodeTint.Proofs.ScanState
import CodeTint.Proofs.Spans
import CodeTint.Proofs.Spelling
import CodeTint.Proofs.StyledRanges
import CodeTint.Proofs.Terminal
import CodeTint.Proofs.TextOutput
import CodeTint.Proofs.Utf8
import CodeTint.Proofs.WordEnd
import CodeTint.Proofs.Automaton
import CodeTint.Proofs.Neighbours
import CodeTint.Proofs.Loading
import CodeTint.Proofs.Layers
import CodeTint.Proofs.Numeral
import CodeTint.Proofs.CommentExtent
import CodeTint.Proofs.Escaping
import CodeTint.Proofs.TerminalText
import CodeTint.Proofs.Chunks
import CodeTint.Proofs.LongestMatch
import CodeTint.Proofs.CompiledTable
import CodeTint.Proofs.MergedTable
import CodeTint.Proofs.Lookup
import CodeTint.Proofs.Coverage
import CodeTint.Proofs.Malformed
import CodeTint.Proofs.StyleWords
import CodeTint.Proofs.ByteOrder
import CodeTint.Proofs.Resolution
