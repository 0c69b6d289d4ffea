import CodeTint.Annotate
import CodeTint.Config.Basic
import CodeTint.Json.Model
import CodeTint.Scan

/-!
# Highlighting

A highlighter joins a configuration to the languages it selects from. It scans a
source and, unless tokens are asked for, annotates it. Only settings that do not
resolve and tokens that do not cover their source are errors.
-/

namespace CodeTint

/-- A styled range of a source. -/
structure StyledRange where
  start : Nat
  stop : Nat
  kind : Kind
  style : String
  deriving DecidableEq, Repr

namespace StyledRange

/-- Puts a range in front, joined to the first one if both are of one kind and touch. -/
def prepend (range : StyledRange) : List StyledRange → List StyledRange
  | [] => [range]
  | next :: rest =>
      if range.kind = next.kind ∧ range.stop = next.start then { range with stop := next.stop } :: rest
      else range :: next :: rest

/-- Joins all neighbours of one kind that touch. -/
def coalesce (ranges : List StyledRange) : List StyledRange :=
  ranges.foldr prepend []

end StyledRange

inductive Highlighted
  | tokens (list : List Token)
  | annotated (text : Annotated)
  deriving DecidableEq, Repr

namespace Highlighted

def tokens? : Highlighted → Option (List Token)
  | .tokens list => some list
  | .annotated _ => none

def annotated? : Highlighted → Option Annotated
  | .tokens _ => none
  | .annotated text => some text

/-- The tokens, or the rendered text as a string. -/
def toJson : Highlighted → Json.Value
  | .tokens list => .object [("format", .string "tokens"), ("tokens", .array (list.map Json.ofToken))]
  | .annotated text => .object [("format", .string text.format.name), ("output", .string text.toText)]

end Highlighted

structure Highlighter where
  config : Config
  registry : Registry

namespace Highlighter

/-- Languages of the configuration come after the built-in ones and replace them. -/
def ofConfig (config : Config) : Highlighter where
  config := config
  registry :=
    if config.languages.isEmpty then .builtin else .ofSpecs (Builtin.specs ++ config.languages)

def ofSettings (settings : Settings) : Except ConfigError Highlighter :=
  (Config.ofSettings settings).map ofConfig

def withRegistry (highlighter : Highlighter) (registry : Registry) : Highlighter :=
  { highlighter with registry }

/-- The language the configuration selects. -/
def language (highlighter : Highlighter) : Language :=
  highlighter.registry.resolve highlighter.config.language

def tokens (highlighter : Highlighter) (source : Bytes) : List Token :=
  scan highlighter.language source

def annotator (highlighter : Highlighter) (format : Format) : Annotator where
  styles := highlighter.config.styles
  format := format
  coalesce := highlighter.config.coalesce

def highlight (highlighter : Highlighter) (source : Bytes) : Except PartitionError Highlighted :=
  let tokens := highlighter.tokens source
  match highlighter.config.output with
  | .tokens => .ok (.tokens tokens)
  | .annotated format =>
      ((highlighter.annotator format).annotate source tokens).map Highlighted.annotated

/-- Every source on its own, in order. -/
def highlightAll (highlighter : Highlighter) (sources : List Bytes) :
    List (Except PartitionError Highlighted) :=
  sources.map highlighter.highlight

/-- The range of a token whose kind has a style. -/
def styledRange? (config : Config) (token : Token) : Option StyledRange :=
  (config.styles.get? token.kind).map fun style => ⟨token.start, token.stop, token.kind, style⟩

/-- The styled ranges of a source, in order. -/
def styledRanges (highlighter : Highlighter) (source : Bytes) : List StyledRange :=
  let ranges := (highlighter.tokens source).filterMap (styledRange? highlighter.config)
  if highlighter.config.coalesce then StyledRange.coalesce ranges else ranges

end Highlighter

/-- Why a source is not highlighted. -/
inductive HighlightError
  | config (cause : ConfigError)
  | tokens (cause : PartitionError)
  deriving DecidableEq, Repr

def HighlightError.message : HighlightError → String
  | config cause => cause.message
  | tokens cause => "invalid token stream: " ++ cause.message

/-- Highlights one source by settings that are used for nothing else. -/
def highlight (settings : Settings) (source : Bytes) : Except HighlightError Highlighted := do
  let highlighter ← (Highlighter.ofSettings settings).mapError .config
  (highlighter.highlight source).mapError .tokens

end CodeTint
