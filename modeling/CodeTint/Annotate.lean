import CodeTint.Markup.Basic
import CodeTint.StyleMap
import CodeTint.Token

/-!
# Annotated text

Tokens that cover a source give chunks of escaped text, each with the style of
its kind or without. Neighbours of one kind may share a chunk. Undoing the
escaping of every chunk gives the source back.
-/

namespace CodeTint

/-- A piece of output; the content is escaped. -/
inductive Chunk
  | literal (content : Bytes)
  | styled (kind : Kind) (style : String) (content : Bytes)
  deriving DecidableEq, Repr

namespace Chunk

/-- The kind of a styled chunk. -/
def kind? : Chunk → Option Kind
  | literal _ => none
  | styled kind _ _ => some kind

def content : Chunk → Bytes
  | literal content => content
  | styled _ _ content => content

/-- The chunk of an escaped piece, styled if the map gives its kind a style. -/
def ofPiece (styles : StyleMap) (piece : Piece) : Chunk :=
  match styles.get? piece.kind with
  | some style => styled piece.kind style piece.text
  | none => literal piece.text

def render (format : Format) : Chunk → Bytes
  | literal content => content
  | styled _ style content => format.decorate style content

end Chunk

structure Annotated where
  format : Format
  chunks : List Chunk
  deriving DecidableEq, Repr

namespace Annotated

def isEmpty (annotated : Annotated) : Bool :=
  annotated.chunks.isEmpty

def render (annotated : Annotated) : Bytes :=
  annotated.chunks.flatMap (Chunk.render annotated.format)

/-- The rendered text, with a replacement for what is not UTF-8. -/
def toText (annotated : Annotated) : String :=
  String.ofList (Utf8.decodeLossy annotated.render)

/-- The source the chunks were made from. -/
def source (annotated : Annotated) : Bytes :=
  annotated.chunks.flatMap fun chunk => annotated.format.unescape chunk.content

end Annotated

namespace Piece

def escape (format : Format) (piece : Piece) : Piece :=
  ⟨piece.kind, format.escape piece.text⟩

/-- Puts a piece in front, joined to the first one if that is of the same kind. -/
def prepend (piece : Piece) : List Piece → List Piece
  | [] => [piece]
  | next :: rest =>
      if piece.kind = next.kind then ⟨piece.kind, piece.text ++ next.text⟩ :: rest
      else piece :: next :: rest

/-- Joins all neighbours of one kind. -/
def coalesce (pieces : List Piece) : List Piece :=
  pieces.foldr prepend []

end Piece

structure Annotator where
  styles : StyleMap
  format : Format
  /-- Neighbouring tokens of one kind share a chunk. -/
  coalesce : Bool := true

namespace Annotator

/-- The chunks of a source cut into these pieces. -/
def chunks (annotator : Annotator) (pieces : List Piece) : List Chunk :=
  let escaped := pieces.map (Piece.escape annotator.format)
  (if annotator.coalesce then Piece.coalesce escaped else escaped).map (Chunk.ofPiece annotator.styles)

/-- Annotates a source by tokens, which have to cover it. -/
def annotate (annotator : Annotator) (source : Bytes) (tokens : List Token) :
    Except PartitionError Annotated := do
  checkPartition tokens source.length
  return ⟨annotator.format, annotator.chunks (Piece.cut source tokens)⟩

end Annotator

end CodeTint
