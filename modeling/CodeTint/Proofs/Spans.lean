import CodeTint.Proofs.Annotate

/-!
# What stands in rendered HTML

Rendered HTML is read as texts and spans, one after another, none inside
another. `Spans` is that reading. Whatever the source and the class names are,
neither a text nor a class holds a character that could open, close or quote a
part of a tag, so leaving out the tags leaves exactly the texts.
-/

namespace CodeTint

namespace Html

/-- A text as the escaper writes it, without the characters that markup is made of. -/
structure Escaped (content : Bytes) : Prop where
  written : ∃ text, content = escape text
  inert : ∀ c ∈ ['<', '>', '"', '\''], Byte.ofChar c ∉ content

/-- A rendered text, and what it holds outside of its tags. -/
inductive Spans : Bytes → Bytes → Prop
  | nil : Spans [] []
  | text {content rendered rest : Bytes} (escaped : Escaped content) (later : Spans rendered rest) :
      Spans (content ++ rendered) (content ++ rest)
  | span {cls content rendered rest : Bytes} (quoted : Escaped cls) (escaped : Escaped content)
      (later : Spans rendered rest) :
      Spans
        (Text.bytes "<span class=\"" ++ cls ++ Text.bytes "\">" ++ content ++ Text.bytes "</span>" ++
          rendered)
        (content ++ rest)

/-- The characters of markup are written as entities, and no entity holds one. -/
theorem escaped_escape (text : Bytes) : Escaped (escape text) := by
  refine ⟨⟨text, rfl⟩, ?_⟩
  intro c member
  have listed : ∃ entity ∈ entities, entity.raw = Byte.ofChar c ∧ entity.raw ≠ ampersand := by
    simp only [List.mem_cons, List.not_mem_nil, or_false] at member
    rcases member with rfl | rfl | rfl | rfl <;> decide
  obtain ⟨entity, inTable, same, other⟩ := listed
  rw [← same]
  exact not_mem_escape inTable other text

namespace Escaped

variable {content : Bytes}

theorem less_not_mem (escaped : Escaped content) : less ∉ content :=
  escaped.inert '<' (by decide)

theorem greater_not_mem (escaped : Escaped content) : greater ∉ content :=
  escaped.inert '>' (by decide)

end Escaped

namespace Spans

/-- A tag ends at the first `>` behind its `<`, and a class holds none. -/
theorem stripTags_eq {rendered content : Bytes} (spans : Spans rendered content) :
    stripTags rendered = content := by
  induction spans with
  | nil => rw [stripTags]
  | text escaped later ih => rw [stripTags_plain escaped.less_not_mem, ih]
  | @span cls content rendered rest quoted escaped later ih =>
      have inside : greater ∉ Text.bytes "span class=\"" ++ cls ++ [0x22] := by
        simp only [List.mem_append, not_or]
        exact ⟨⟨by decide, quoted.greater_not_mem⟩, by decide⟩
      calc
        stripTags (Text.bytes "<span class=\"" ++ cls ++ Text.bytes "\">" ++ content ++
            Text.bytes "</span>" ++ rendered) =
            stripTags (less :: ((Text.bytes "span class=\"" ++ cls ++ [0x22]) ++
              greater :: (content ++ (closeTag ++ rendered)))) := by
          simp only [List.append_assoc]
          rfl
        _ = stripTags (content ++ (closeTag ++ rendered)) := stripTags_tag inside _
        _ = content ++ rest := by
          rw [stripTags_plain escaped.less_not_mem, stripTags_closeTag, ih]

/-- Chunks with escaped contents are rendered as spans, whatever their styles are. -/
theorem of_chunks {chunks : List Chunk} (escaped : ∀ chunk ∈ chunks, Escaped chunk.content) :
    Spans (chunks.flatMap (Chunk.render .html)) (chunks.flatMap Chunk.content) := by
  induction chunks with
  | nil => exact .nil
  | cons chunk rest ih =>
      have here := escaped chunk List.mem_cons_self
      have later := ih fun other member => escaped other (List.mem_cons_of_mem _ member)
      rw [List.flatMap_cons, List.flatMap_cons]
      cases chunk with
      | literal content => exact .text here later
      | styled kind style content => exact .span (escaped_escape (Text.bytes style)) here later

end Spans

end Html

namespace Annotator

/-- A chunk of HTML holds the escaped text of its tokens. -/
theorem escaped_chunks (styles : StyleMap) (coalesce : Bool) {source : Bytes} {tokens : List Token}
    (covers : checkPartition tokens source.length = .ok ()) :
    ∀ chunk ∈ (Annotator.mk styles .html coalesce).chunks (Piece.cut source tokens),
      Html.Escaped chunk.content := by
  intro chunk member
  obtain ⟨run, _, same⟩ := exists_run_of_mem_chunks _ covers member
  have joined := Format.html_escape_run (run.map fun token => token.text source)
  rw [List.flatMap_map] at joined
  rw [same]
  change Html.Escaped (run.flatMap fun token => Html.escape (token.text source))
  rw [joined]
  exact Html.escaped_escape _

/-- The chunks of HTML together hold the escaped source. -/
theorem content_html (styles : StyleMap) (coalesce : Bool) {source : Bytes} {tokens : List Token}
    (covers : checkPartition tokens source.length = .ok ()) :
    ((Annotator.mk styles .html coalesce).chunks (Piece.cut source tokens)).flatMap Chunk.content =
      Html.escape source := by
  have joined := Format.html_escape_run (tokens.map fun token => token.text source)
  rw [List.flatMap_map, ← List.flatMap_def, texts_join covers] at joined
  rw [contents_join _ covers]
  exact joined

/-- Whatever the tokens that cover a source and the styles are, the HTML is escaped text and
spans that do not nest; without its tags it is the escaped source, and it is read back as the
source. -/
theorem annotate_html_spans (styles : StyleMap) (coalesce : Bool) {source : Bytes}
    {tokens : List Token} (covers : checkPartition tokens source.length = .ok ()) :
    ∃ annotated, (Annotator.mk styles .html coalesce).annotate source tokens = .ok annotated ∧
      Html.Spans annotated.render (Html.escape source) ∧
      Html.stripTags annotated.render = Html.escape source ∧
      Html.toSource annotated.render = source := by
  have spans := Html.Spans.of_chunks (escaped_chunks styles coalesce covers)
  rw [content_html styles coalesce covers] at spans
  have stripped := spans.stripTags_eq
  refine ⟨_, annotate_of_covers _ covers, spans, stripped, ?_⟩
  exact (congrArg Html.unescape stripped).trans (Html.unescape_escape source)

/-- A class that tries to close its attribute and its tag, around a text that tries to open one. -/
theorem annotate_html_spans_hostile :
    checkPartition [⟨.ident, 0, 1⟩, ⟨.string, 1, 4⟩] 4 = .ok () ∧
      ∃ annotated,
        (Annotator.mk (.ofList [(.string, "\"><script>")]) .html true).annotate
          [0x3C, 0x26, 0x22, 0x3E] [⟨.ident, 0, 1⟩, ⟨.string, 1, 4⟩] = .ok annotated ∧
        annotated.render =
          Text.bytes "&lt;<span class=\"&quot;&gt;&lt;script&gt;\">&amp;&quot;&gt;</span>" ∧
        Html.Spans annotated.render (Html.escape [0x3C, 0x26, 0x22, 0x3E]) ∧
        Html.stripTags annotated.render = Html.escape [0x3C, 0x26, 0x22, 0x3E] ∧
        Html.toSource annotated.render = [0x3C, 0x26, 0x22, 0x3E] := by
  have covers : checkPartition [⟨.ident, 0, 1⟩, ⟨.string, 1, 4⟩]
      ([0x3C, 0x26, 0x22, 0x3E] : Bytes).length = .ok () := by decide
  obtain ⟨annotated, done, spans, stripped, read⟩ :=
    annotate_html_spans (.ofList [(.string, "\"><script>")]) true covers
  refine ⟨covers, annotated, done, ?_, spans, stripped, read⟩
  cases done
  decide +kernel

end Annotator

end CodeTint
