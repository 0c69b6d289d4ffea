import CodeTint.Proofs.Annotate
import Mathlib.Data.List.ModifyLast

/-!
# Chunks and runs of tokens

Annotating can be done in one pass: a token is joined to the last chunk or starts
a chunk of its own. What decides is the style of its kind, whether the last chunk
is styled and for which kind, and the kind of the token before, which is kept
apart since a literal chunk does not tell it. The pass makes one chunk of each
token, or with coalescing one of each maximal run of tokens of one kind.
-/

namespace CodeTint

/-! ## Maximal runs -/

/-- The runs cut the tokens wherever the kind changes, and nowhere else. -/
structure MaximalRuns (tokens : List Token) (runs : List (List Token)) : Prop where
  joined : runs.flatten = tokens
  nonempty : ∀ run ∈ runs, run ≠ []
  alike : ∀ run ∈ runs, ∀ first ∈ run, ∀ second ∈ run, first.kind = second.kind
  apart : runs.IsChain fun run next => ∀ last ∈ run, ∀ first ∈ next, last.kind ≠ first.kind

/-- Neighbours of one kind all the way are all of one kind. -/
theorem Token.kind_of_isChain {run : List Token}
    (chain : run.IsChain fun first second => (first.kind == second.kind) = true) {first second : Token}
    (inRun : first ∈ run) (member : second ∈ run) : first.kind = second.kind := by
  have kinds : (run.map Token.kind).IsChain (· = ·) :=
    List.isChain_map_of_isChain Token.kind (fun _ _ near => eq_of_beq near) chain
  cases run with
  | nil => cases inRun
  | cons head rest =>
      have same := List.isChain_eq_iff_eq_replicate.mp kinds head.kind rfl
      have atHead (token : Token) (listed : token ∈ head :: rest) : token.kind = head.kind :=
        List.eq_of_mem_replicate (same ▸ List.mem_map_of_mem listed)
      exact (atHead first inRun).trans (atHead second member).symm

theorem maximalRuns_splitBy (tokens : List Token) :
    MaximalRuns tokens (tokens.splitBy fun first second => first.kind == second.kind) := by
  have alike : ∀ run ∈ tokens.splitBy fun first second => first.kind == second.kind,
      ∀ first ∈ run, ∀ second ∈ run, first.kind = second.kind :=
    fun run member first inRun second inRun' =>
      Token.kind_of_isChain (List.isChain_of_mem_splitBy member) inRun inRun'
  refine ⟨List.flatten_splitBy _ tokens, fun run => List.ne_nil_of_mem_splitBy, alike, ?_⟩
  refine (List.isChain_getLast_head_splitBy _ tokens).imp_of_mem_imp ?_
  rintro run next inRuns inRuns' ⟨nonempty, nonempty', ends⟩ last inRun first inNext same
  refine beq_eq_false_iff_ne.mp ends ?_
  calc
    (run.getLast nonempty).kind = last.kind := alike run inRuns _ (List.getLast_mem nonempty) last inRun
    _ = first.kind := same
    _ = (next.head nonempty').kind := alike next inRuns' first inNext _ (List.head_mem nonempty')

section Runs

variable {α : Type} {related : α → α → Bool} {list run : List α} {next : α} {runs : List (List α)}

theorem splitBy_concat_related (split : list.splitBy related = runs ++ [run])
    (near : ∀ last ∈ run.getLast?, related last next = true) :
    (list ++ [next]).splitBy related = runs ++ [run ++ [next]] := by
  obtain ⟨joined, nonempty, chains, apart⟩ := List.splitBy_eq_iff.mp split
  obtain ⟨before, _, ends⟩ := List.isChain_append.mp apart
  have filled : run ≠ [] := by
    rintro rfl
    simp at nonempty
  rw [List.splitBy_eq_iff]
  refine ⟨by simp [joined], by simp_all, ?_, ?_⟩
  · intro other member
    rcases List.mem_append.mp member with earlier | last
    · exact chains other (List.mem_append_left _ earlier)
    · obtain rfl := List.mem_singleton.mp last
      refine (chains run (by simp)).append (.singleton next) ?_
      rintro last inRun _ ⟨⟩
      exact near last inRun
  · refine before.append (.singleton _) ?_
    rintro other inRuns _ ⟨⟩
    obtain ⟨nonempty', _, cut⟩ := ends other inRuns run rfl
    refine ⟨nonempty', by simp, ?_⟩
    simpa [List.head_append_of_ne_nil filled] using cut

end Runs

/-! ## One pass over the tokens -/

namespace Chunk

/-- Writes further content into a chunk. -/
def extend (text : Bytes) : Chunk → Chunk
  | literal content => literal (content ++ text)
  | styled kind style content => styled kind style (content ++ text)

theorem ofPiece_extend (styles : StyleMap) (kind : Kind) (content text : Bytes) :
    (ofPiece styles ⟨kind, content⟩).extend text = ofPiece styles ⟨kind, content ++ text⟩ := by
  cases found : styles.get? kind with
  | none => simp [ofPiece, found, extend]
  | some style => simp [ofPiece, found, extend]

end Chunk

namespace Annotator

/-- What is kept between two tokens. -/
structure Pass where
  chunks : List Chunk := []
  /-- The kind of the token read last. -/
  previous : Option Kind := none

/-- A token of the kind is joined to the last chunk. -/
def merges (annotator : Annotator) (pass : Pass) (kind : Kind) : Bool :=
  annotator.coalesce &&
    match pass.chunks.getLast?, annotator.styles.get? kind with
    | some (.literal _), none => pass.previous == some kind
    | some (.styled other _ _), some _ => other == kind
    | _, _ => false

/-- Reads one token. -/
def push (annotator : Annotator) (source : Bytes) (pass : Pass) (token : Token) : Pass :=
  let content := annotator.format.escape (token.text source)
  { chunks :=
      if annotator.merges pass token.kind then pass.chunks.modifyLast (Chunk.extend content)
      else pass.chunks ++ [.ofPiece annotator.styles ⟨token.kind, content⟩]
    previous := some token.kind }

def pushAll (annotator : Annotator) (source : Bytes) (tokens : List Token) : Pass :=
  tokens.foldl (annotator.push source) {}

variable (annotator : Annotator) (source : Bytes)

/-- The escaped texts of a run, one after another. -/
def runContent (run : List Token) : Bytes :=
  run.flatMap fun token => annotator.format.escape (token.text source)

/-- The chunk of a run of tokens of one kind. -/
def runChunk : List Token → Chunk
  | [] => .literal []
  | token :: rest => .ofPiece annotator.styles ⟨token.kind, annotator.runContent source (token :: rest)⟩

variable {annotator source} {tokens run : List Token} {token : Token} {runs : List (List Token)}

theorem runChunk_concat (nonempty : run ≠ []) (token : Token) :
    annotator.runChunk source (run ++ [token]) =
      (annotator.runChunk source run).extend (annotator.format.escape (token.text source)) := by
  cases run with
  | nil => exact absurd rfl nonempty
  | cons first rest => simp [runChunk, runContent, Chunk.ofPiece_extend]

theorem runs_nil (annotator : Annotator) : annotator.runs [] = [] := by
  unfold Annotator.runs
  split <;> rfl

/-- A token of the kind of the last run is joined to it. -/
theorem runs_concat_near (joined : annotator.coalesce = true) (split : annotator.runs tokens = runs ++ [run])
    (near : ∀ last ∈ run.getLast?, last.kind = token.kind) :
    annotator.runs (tokens ++ [token]) = runs ++ [run ++ [token]] := by
  rw [Annotator.runs, if_pos joined] at split ⊢
  exact splitBy_concat_related split fun last inRun => beq_iff_eq.mpr (near last inRun)

/-- A token of another kind starts a run, and so does every token without coalescing. -/
theorem runs_concat_apart
    (apart : annotator.coalesce = true → ∀ last ∈ tokens.getLast?, last.kind ≠ token.kind) :
    annotator.runs (tokens ++ [token]) = annotator.runs tokens ++ [[token]] := by
  cases joined : annotator.coalesce with
  | false => simp [Annotator.runs, joined]
  | true =>
      rw [Annotator.runs, Annotator.runs, if_pos joined, if_pos joined]
      exact List.splitBy_append_cons [] fun last inTokens => beq_eq_false_iff_ne.mpr (apart joined last inTokens)

theorem runs_alike (annotator : Annotator) {run : List Token} (member : run ∈ annotator.runs tokens) :
    run ≠ [] ∧ ∀ first ∈ run, ∀ second ∈ run, first.kind = second.kind := by
  unfold Annotator.runs at member
  split at member
  · have maximal := maximalRuns_splitBy tokens
    exact ⟨maximal.nonempty run member, maximal.alike run member⟩
  · obtain ⟨token, _, rfl⟩ := List.mem_map.mp member
    simp

/-- The last run ends with the last token. -/
theorem exists_last_run (annotator : Annotator) {last : Token} (ends : tokens.getLast? = some last) :
    ∃ runs run, annotator.runs tokens = runs ++ [run] ∧ run.getLast? = some last := by
  have joined := annotator.flatten_runs tokens
  rcases List.eq_nil_or_concat (annotator.runs tokens) with none | ⟨runs, run, split⟩
  · rw [none] at joined
    subst joined
    cases ends
  · rw [List.concat_eq_append] at split
    have filled := (annotator.runs_alike (split ▸ List.mem_append_right _ List.mem_cons_self)).1
    refine ⟨runs, run, split, ?_⟩
    rw [split] at joined
    rw [← ends, ← joined]
    simp [List.getLast?_append, List.getLast?_eq_getLast_of_ne_nil filled]

theorem runChunk_of_mem (alike : ∀ first ∈ run, ∀ second ∈ run, first.kind = second.kind)
    (member : token ∈ run) :
    annotator.runChunk source run =
      .ofPiece annotator.styles ⟨token.kind, annotator.runContent source run⟩ := by
  cases run with
  | nil => cases member
  | cons first rest => rw [runChunk, alike first List.mem_cons_self token member]

variable {pass : Pass} {kind : Kind}

theorem not_merges_nil (empty : pass.chunks = []) : annotator.merges pass kind = false := by
  simp [merges, empty]

/-- The last chunk and the kind kept apart tell together what the last kind was. -/
theorem merges_iff (kind : Kind) {chunks : List Chunk} {last : Kind} {content : Bytes}
    (made : pass.chunks = chunks ++ [.ofPiece annotator.styles ⟨last, content⟩])
    (kept : pass.previous = some last) :
    annotator.merges pass kind = true ↔ annotator.coalesce = true ∧ last = kind := by
  have ends : pass.chunks.getLast? = some (.ofPiece annotator.styles ⟨last, content⟩) := by
    rw [made, List.getLast?_concat]
  rw [merges, Bool.and_eq_true, ends, kept]
  refine and_congr_right fun _ => ?_
  cases lastStyle : annotator.styles.get? last with
  | none =>
      rw [Chunk.ofPiece_of_none lastStyle]
      cases here : annotator.styles.get? kind with
      | none => simp
      | some style =>
          refine iff_of_false Bool.false_ne_true ?_
          rintro rfl
          cases lastStyle.symm.trans here
  | some style =>
      rw [Chunk.ofPiece_of_some lastStyle]
      cases here : annotator.styles.get? kind with
      | none =>
          refine iff_of_false Bool.false_ne_true ?_
          rintro rfl
          cases lastStyle.symm.trans here
      | some style' => simp

/-- What one pass has made of the tokens it has read. -/
structure Reads (annotator : Annotator) (source : Bytes) (tokens : List Token) (pass : Pass) : Prop where
  chunks : pass.chunks = (annotator.runs tokens).map (annotator.runChunk source)
  previous : pass.previous = tokens.getLast?.map Token.kind

theorem Reads.push (reads : annotator.Reads source tokens pass) (token : Token) :
    annotator.Reads source (tokens ++ [token]) (annotator.push source pass token) := by
  refine ⟨?_, by simp [Annotator.push]⟩
  have alone : Chunk.ofPiece annotator.styles ⟨token.kind, annotator.format.escape (token.text source)⟩ =
      annotator.runChunk source [token] := by
    simp [runChunk, runContent]
  unfold Annotator.push
  dsimp only
  rw [alone]
  cases ends : tokens.getLast? with
  | none =>
      obtain rfl := List.getLast?_eq_none_iff.mp ends
      have empty : pass.chunks = [] := by
        rw [reads.chunks, runs_nil, List.map_nil]
      rw [not_merges_nil empty, empty, runs_concat_apart (by simp)]
      simp [← reads.chunks, empty]
  | some last =>
      obtain ⟨runs, run, split, inRun⟩ := annotator.exists_last_run ends
      obtain ⟨filled, alike⟩ := annotator.runs_alike (split ▸ List.mem_append_right _ List.mem_cons_self)
      have made := reads.chunks
      rw [split, List.map_append, List.map_singleton] at made
      have kept : pass.previous = some last.kind := by rw [reads.previous, ends, Option.map_some]
      -- Both the last chunk and the kind kept apart belong to the last token.
      have decides := merges_iff token.kind
        (made.trans (by rw [runChunk_of_mem alike (List.mem_of_getLast? inRun)])) kept
      by_cases joined : annotator.merges pass token.kind = true
      · obtain ⟨coalesce, same⟩ := decides.mp joined
        have near : ∀ other ∈ run.getLast?, other.kind = token.kind := by
          rw [inRun]
          rintro _ ⟨⟩
          exact same
        rw [if_pos joined, runs_concat_near coalesce split near, made, List.modifyLast_concat,
          ← runChunk_concat filled]
        simp
      · have apart : annotator.coalesce = true → ∀ other ∈ tokens.getLast?, other.kind ≠ token.kind := by
          rw [ends]
          rintro coalesce _ ⟨⟩ same
          exact joined (decides.mpr ⟨coalesce, same⟩)
        rw [if_neg joined, runs_concat_apart apart, reads.chunks]
        simp

theorem reads_pushAll (annotator : Annotator) (source : Bytes) (tokens : List Token) :
    annotator.Reads source tokens (annotator.pushAll source tokens) := by
  induction tokens using List.reverseRecOn with
  | nil => exact ⟨by rw [runs_nil, List.map_nil]; rfl, rfl⟩
  | append_singleton tokens token ih =>
      rw [pushAll, List.foldl_append]
      exact ih.push token

/-! ## Chunks of runs -/

theorem ofPiece_of_joins {piece : Piece}
    (joins : Piece.Joins (fun token => (Piece.ofToken source token).escape annotator.format) run piece) :
    Chunk.ofPiece annotator.styles piece = annotator.runChunk source run := by
  cases run with
  | nil => exact absurd rfl joins.nonempty
  | cons first rest =>
      have kind : first.kind = piece.kind := joins.kind first List.mem_cons_self
      have text : annotator.runContent source (first :: rest) = piece.text := joins.text.symm
      rw [runChunk, kind, text]

theorem chunks_of_joins {pieces : List Piece}
    (joined : List.Forall₂
      (Piece.Joins fun token => (Piece.ofToken source token).escape annotator.format) runs pieces) :
    pieces.map (Chunk.ofPiece annotator.styles) = runs.map (annotator.runChunk source) := by
  induction joined with
  | nil => rfl
  | cons joins _ ih => rw [List.map_cons, List.map_cons, ofPiece_of_joins joins, ih]

/-- The chunks of a source are those of the runs of its tokens. -/
theorem chunks_eq_runs (annotator : Annotator)
    (covers : checkPartition tokens source.length = .ok ()) :
    annotator.chunks (Piece.cut source tokens) =
      (annotator.runs tokens).map (annotator.runChunk source) := by
  unfold chunks Annotator.runs
  dsimp only
  rw [Piece.map_escape_cut covers]
  split
  · exact chunks_of_joins (Piece.coalesce_runs tokens)
  · simp [runChunk, runContent, Piece.escape, Piece.ofToken]

/-- The chunk is made of the run: it holds the escaped texts one after another, and it is styled
exactly if the kind of the tokens has a style. -/
structure Makes (annotator : Annotator) (source : Bytes) (run : List Token) (chunk : Chunk) : Prop where
  content : chunk.content = run.flatMap fun token => annotator.format.escape (token.text source)
  styled : ∀ token ∈ run, ∀ style,
    chunk = .styled token.kind style chunk.content ↔ annotator.styles.get? token.kind = some style
  literal : ∀ token ∈ run, chunk = .literal chunk.content ↔ annotator.styles.get? token.kind = none

theorem makes_runChunk (alike : ∀ first ∈ run, ∀ second ∈ run, first.kind = second.kind) :
    annotator.Makes source run (annotator.runChunk source run) := by
  constructor
  · cases run with
    | nil => rfl
    | cons first rest => exact Chunk.content_ofPiece ..
  · intro token member style
    rw [runChunk_of_mem alike member]
    cases found : annotator.styles.get? token.kind with
    | none => simp [Chunk.ofPiece, found]
    | some other => simp [Chunk.ofPiece, found, Chunk.content]
  · intro token member
    rw [runChunk_of_mem alike member]
    cases found : annotator.styles.get? token.kind with
    | none => simp [Chunk.ofPiece, found, Chunk.content]
    | some other => simp [Chunk.ofPiece, found]

/-- Annotating by tokens that cover a source makes one chunk of each token, or with coalescing one
of each maximal run of tokens of one kind. -/
theorem annotate_makes_runs (annotator : Annotator) {source : Bytes} {tokens : List Token}
    (covers : checkPartition tokens source.length = .ok ()) :
    ∃ annotated runs, annotator.annotate source tokens = .ok annotated ∧
      annotated.format = annotator.format ∧
      (annotator.coalesce = false → runs = tokens.map fun token => [token]) ∧
      (annotator.coalesce = true → MaximalRuns tokens runs) ∧
      List.Forall₂ (annotator.Makes source) runs annotated.chunks ∧
      annotated.chunks = (annotator.pushAll source tokens).chunks := by
  refine ⟨_, annotator.runs tokens, annotator.annotate_of_covers covers, rfl, ?_, ?_, ?_, ?_⟩
  · intro apart
    simp [Annotator.runs, apart]
  · intro joined
    rw [Annotator.runs, if_pos joined]
    exact maximalRuns_splitBy tokens
  · dsimp only
    rw [annotator.chunks_eq_runs covers, List.forall₂_map_right_iff, List.forall₂_same]
    intro run member
    exact makes_runChunk (annotator.runs_alike member).2
  · exact (annotator.chunks_eq_runs covers).trans (annotator.reads_pushAll source tokens).chunks.symm

/-- Two styled tokens of one kind, then two without a style of one kind and one of another: three
chunks, of which the two literal ones stay apart. -/
theorem annotate_makes_runs_mixed :
    checkPartition [⟨.ident, 0, 1⟩, ⟨.ident, 1, 2⟩, ⟨.whitespace, 2, 3⟩, ⟨.whitespace, 3, 4⟩,
        ⟨.plaintext, 4, 5⟩] 5 = .ok () ∧
      ∃ annotated runs, (Annotator.mk (.ofList [(.ident, "name")]) .html true).annotate
          [0x61, 0x62, 0x20, 0x20, 0x3C] [⟨.ident, 0, 1⟩, ⟨.ident, 1, 2⟩, ⟨.whitespace, 2, 3⟩,
            ⟨.whitespace, 3, 4⟩, ⟨.plaintext, 4, 5⟩] = .ok annotated ∧
        annotated.chunks = [.styled .ident "name" [0x61, 0x62], .literal [0x20, 0x20],
          .literal (Text.bytes "&lt;")] ∧
        MaximalRuns [⟨.ident, 0, 1⟩, ⟨.ident, 1, 2⟩, ⟨.whitespace, 2, 3⟩, ⟨.whitespace, 3, 4⟩,
          ⟨.plaintext, 4, 5⟩] runs ∧
        List.Forall₂ ((Annotator.mk (.ofList [(.ident, "name")]) .html true).Makes
          [0x61, 0x62, 0x20, 0x20, 0x3C]) runs annotated.chunks := by
  have covers : checkPartition [⟨.ident, 0, 1⟩, ⟨.ident, 1, 2⟩, ⟨.whitespace, 2, 3⟩, ⟨.whitespace, 3, 4⟩,
      ⟨.plaintext, 4, 5⟩] ([0x61, 0x62, 0x20, 0x20, 0x3C] : Bytes).length = .ok () := by decide
  obtain ⟨annotated, runs, done, _, _, maximal, made, _⟩ :=
    annotate_makes_runs (Annotator.mk (.ofList [(.ident, "name")]) .html true) covers
  refine ⟨covers, annotated, runs, done, ?_, maximal rfl, made⟩
  cases done
  decide +kernel

end Annotator

end CodeTint
