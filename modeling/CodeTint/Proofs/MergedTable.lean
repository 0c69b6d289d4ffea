import CodeTint.Proofs.CompiledTable

/-!
# Merged tables

The merged language knows the keywords and operators of all its parts. Keywords
of a part that ignores case are listed in lower case but compared as they are
written, so the merged language knows such a keyword in lower case only. Its
longest operator at any place is the longest that a part finds there.
-/

namespace CodeTint

/-! ## Lower case -/

theorem Byte.lower_large {b : UInt8} (large : 0x80 ≤ b.toNat) : Byte.lower b = b := by
  refine if_neg ?_
  simp only [Bool.and_eq_true, decide_eq_true_eq, UInt8.le_iff_toNat_le]
  rintro ⟨_, upper⟩
  change b.toNat ≤ 0x5A at upper
  omega

namespace Text

theorem toLower_ascii {c : Char} (ascii : c.toNat < 0x80) :
    c.toLower.toNat < 0x80 ∧ Byte.ofChar c.toLower = Byte.lower (Byte.ofChar c) := by
  have all : ∀ code < 0x80, (Char.ofNat code).toLower.toNat < 0x80 ∧
      Byte.ofChar (Char.ofNat code).toLower = Byte.lower (Byte.ofChar (Char.ofNat code)) := by decide
  have here := all c.toNat ascii
  rwa [Char.ofNat_toNat] at here

theorem toLower_large {c : Char} (large : 0x80 ≤ c.toNat) : c.toLower = c := by
  refine dif_neg ?_
  rintro ⟨_, upper⟩
  rw [UInt32.le_iff_toNat_le] at upper
  change c.toNat ≤ 90 at upper
  omega

/-- Letters are lowered alike as characters and as bytes. -/
theorem encode_toLower (text : List Char) :
    Utf8.encode (text.map Char.toLower) = (Utf8.encode text).map Byte.lower := by
  induction text with
  | nil => rfl
  | cons c rest ih =>
      rw [List.map_cons]
      by_cases ascii : c.toNat < 0x80
      · obtain ⟨ascii', same⟩ := toLower_ascii ascii
        rw [Utf8.encode_cons_ascii ascii', Utf8.encode_cons_ascii ascii, List.map_cons, same, ih]
      · have kept : (String.utf8EncodeChar c).map Byte.lower = String.utf8EncodeChar c := by
          refine (List.map_congr_left fun b member => Byte.lower_large ?_).trans (List.map_id _)
          refine Nat.le_of_not_lt fun small => ascii ?_
          rw [(Utf8.sequence_encodeChar c).toNat_of_mem member small]
          exact small
        rw [toLower_large (Nat.le_of_not_lt ascii), Utf8.encode_cons, Utf8.encode_cons, List.map_append, kept, ih]

theorem bytes_lower (text : String) : bytes (lower text) = (bytes text).map Byte.lower := by
  rw [bytes, lower, String.toList_ofList, encode_toLower]
  rfl

end Text

namespace Language

variable {name : String} {specs others : List Spec}

/-! ## Keywords -/

theorem keywordBytes_eq (ignoreCase : Bool) (keyword : String) :
    keywordBytes ignoreCase keyword = Text.bytes (if ignoreCase then Text.lower keyword else keyword) := by
  cases ignoreCase with
  | false => rfl
  | true => exact (Text.bytes_lower keyword).symm

theorem isKeyword_merged_iff {lexeme : Bytes} :
    (merged name specs).isKeyword lexeme = true ↔ ∃ spec ∈ specs, lexeme ∈ keywordsOf spec :=
  List.contains_iff_mem.trans (List.mem_eraseDups.trans List.mem_flatMap)

/-- A keyword of a part is one of the merged language in the form in which the part compares it. -/
theorem isKeyword_merged_of_part (name : String) {spec : Spec} (listed : spec ∈ specs) {lexeme : Bytes}
    (known : (ofSpec spec).isKeyword lexeme = true) :
    (merged name specs).isKeyword (if spec.ignoreCase then lexeme.map Byte.lower else lexeme) = true :=
  isKeyword_merged_iff.mpr ⟨spec, listed, mem_keywordsOf.mpr (isKeyword_ofSpec_iff.mp known)⟩

/-! ## Operators -/

/-- The operators of all the descriptions. -/
def pooledTexts (specs : List Spec) : Set String :=
  {text | ∃ spec ∈ specs, text ∈ spec.operatorTexts}

theorem pooledTexts_eq (specs : List Spec) :
    pooledTexts specs = {text | text ∈ specs.flatMap Spec.operators ∧ Text.StartsMark text} := by
  ext text
  simp [pooledTexts, Spec.operatorTexts, ← exists_and_right, and_assoc]

/-- A pooled operator stands somewhere exactly if one of a part does. -/
theorem mem_lengthsAt_pooledTexts {rest : Bytes} {size : Nat} :
    size ∈ Text.lengthsAt (pooledTexts specs) rest ↔
      ∃ spec ∈ specs, size ∈ Text.lengthsAt spec.operatorTexts rest := by
  constructor
  · rintro ⟨text, ⟨spec, listed, inSpec⟩, stands, rfl⟩
    exact ⟨spec, listed, text, inSpec, stands, rfl⟩
  · rintro ⟨spec, listed, text, inSpec, stands, rfl⟩
    exact ⟨text, ⟨spec, listed, inSpec⟩, stands, rfl⟩

theorem spelled_merged (specs : List Spec) :
    Delimiter.Spelled (specs.flatMap operatorsOf) (pooledTexts specs) := by
  constructor
  · intro delimiter member
    obtain ⟨spec, listed, inSpec⟩ := List.mem_flatMap.mp member
    obtain ⟨text, offered, same⟩ := (spelled_operatorsOf spec).sound delimiter inSpec
    exact ⟨text, ⟨spec, listed, offered⟩, same⟩
  · rintro text ⟨spec, listed, offered⟩
    obtain ⟨delimiter, inSpec, same⟩ := (spelled_operatorsOf spec).complete text offered
    exact ⟨delimiter, List.mem_flatMap.mpr ⟨spec, listed, inSpec⟩, same⟩

/-- The length of the operator that a description has at the front of a text. -/
def partLength? (rest : Bytes) (spec : Spec) : Option Nat :=
  ((ofSpec spec).operator? rest).map Delimiter.length

theorem operator?_merged_length (name : String) (specs : List Spec) (rest : Bytes) :
    ((merged name specs).operator? rest).map Delimiter.length = (specs.filterMap (partLength? rest)).max? := by
  have whole := (spelled_merged specs).longestAt rest
  have part (spec : Spec) : Text.LongestAt spec.operatorTexts rest (partLength? rest spec) :=
    (spelled_operatorsOf spec).longestAt rest
  refine Option.ext fun size => (whole.some_iff size).trans ?_
  rw [List.max?_eq_some_iff]
  simp only [List.mem_filterMap, (part _).some_iff]
  constructor
  · rintro ⟨offered, greatest⟩
    obtain ⟨spec, listed, inSpec⟩ := mem_lengthsAt_pooledTexts.mp offered
    refine ⟨⟨spec, listed, inSpec, fun other inSpec' => ?_⟩, ?_⟩
    · exact greatest (mem_lengthsAt_pooledTexts.mpr ⟨spec, listed, inSpec'⟩)
    · rintro other ⟨spec', listed', offered', _⟩
      exact greatest (mem_lengthsAt_pooledTexts.mpr ⟨spec', listed', offered'⟩)
  · rintro ⟨⟨spec, listed, inSpec, _⟩, greatest⟩
    refine ⟨mem_lengthsAt_pooledTexts.mpr ⟨spec, listed, inSpec⟩, ?_⟩
    intro other offered
    obtain ⟨spec', listed', inSpec'⟩ := mem_lengthsAt_pooledTexts.mp offered
    obtain ⟨best, found, bound⟩ := (part spec').exists_of_mem inSpec'
    exact Nat.le_trans bound (greatest best ⟨spec', listed', ((part spec').some_iff best).mp found⟩)

/-! ## The order of the parts -/

theorem agrees_merged (same : ∀ spec, spec ∈ others ↔ spec ∈ specs) :
    (merged name specs).Agrees (merged name others) := by
  constructor
  · intro lexeme
    rw [Bool.eq_iff_iff, isKeyword_merged_iff, isKeyword_merged_iff]
    simp only [same]
  · exact fun _ => rfl
  · have pooled : pooledTexts others = pooledTexts specs := by
      simp only [pooledTexts, same]
    exact (spelled_merged specs).find?_eq (pooled ▸ spelled_merged others)
  · exact fun _ => rfl
  · exact fun _ _ => rfl
  · rfl

/-- The merged language knows the keywords of its parts, each in the form in which its part lists it,
and finds at every offset the longest operator that a part finds there. Its tokens do not depend on
the order of the parts. -/
theorem merged_table_union (name : String) (specs : List Spec) :
    (∀ lexeme, (merged name specs).isKeyword lexeme = true ↔
        ∃ spec ∈ specs, ∃ keyword ∈ spec.keywords, keyword ≠ "" ∧
          Text.bytes (if spec.ignoreCase then Text.lower keyword else keyword) = lexeme) ∧
      (∀ spec ∈ specs, ∀ lexeme, (ofSpec spec).isKeyword lexeme = true →
        (spec.ignoreCase = false → (merged name specs).isKeyword lexeme = true) ∧
          (spec.ignoreCase = true → (merged name specs).isKeyword (lexeme.map Byte.lower) = true)) ∧
      (∀ source offset,
        ((merged name specs).operatorAt? source offset).map Delimiter.length =
            (specs.filterMap fun spec => ((ofSpec spec).operatorAt? source offset).map Delimiter.length).max? ∧
          ((merged name specs).operatorAt? source offset = none ↔
            ∀ spec ∈ specs, (ofSpec spec).operatorAt? source offset = none) ∧
          (OperatorIndex.ofOperators (specs.flatMap Spec.operators)).matchAt? source offset =
            ((merged name specs).operatorAt? source offset).map Delimiter.length) ∧
      ∀ others, others.Perm specs → ∀ source, scan (merged name others) source = scan (merged name specs) source := by
  refine ⟨?_, ?_, ?_, fun others same source => (agrees_merged fun _ => same.mem_iff).scan_eq source⟩
  · intro lexeme
    simp only [isKeyword_merged_iff, mem_keywordsOf, keywordBytes_eq]
  · intro spec listed lexeme known
    have merges := isKeyword_merged_of_part name listed known
    constructor
    · intro written
      simpa [written] using merges
    · intro folded
      simpa [folded] using merges
  · intro source offset
    have lengths := operator?_merged_length name specs (source.drop offset)
    refine ⟨lengths, ?_, ?_⟩
    · rw [← Option.map_eq_none_iff]
      refine (congrArg (· = none) lengths).to_iff.trans ?_
      simp [partLength?, operatorAt?]
    · have whole := (spelled_merged specs).longestAt (source.drop offset)
      rw [pooledTexts_eq] at whole
      exact (OperatorIndex.longestAt_matchAt? (specs.flatMap Spec.operators) source offset).unique whole

/-- Of a part that ignores case the lower case form is known, of one that does not the form that is
listed; the longer operator is that of the second part. -/
theorem merged_table_union_folded :
    ∃ folded written : Spec, folded.ignoreCase = true ∧ written.ignoreCase = false ∧
      (ofSpec folded).isKeyword (Text.bytes "Select") = true ∧
      (merged "both" [folded, written]).isKeyword ((Text.bytes "Select").map Byte.lower) = true ∧
      (merged "both" [folded, written]).isKeyword (Text.bytes "Select") = false ∧
      (ofSpec written).isKeyword (Text.bytes "Self") = true ∧
      (merged "both" [folded, written]).isKeyword (Text.bytes "Self") = true ∧
      ((merged "both" [folded, written]).operatorAt? [0x3C, 0x3D, 0x3E] 0).map Delimiter.length = some 3 ∧
      scan (merged "both" [written, folded]) [0x3C, 0x3D, 0x3E] =
        scan (merged "both" [folded, written]) [0x3C, 0x3D, 0x3E] := by
  let folded : Spec := ⟨"folded", [], [], ["SELECT"], ["<="], [], [], "'", false, true⟩
  let written : Spec := ⟨"written", [], [], ["Self"], ["<=>"], [], [], "'", false, false⟩
  obtain ⟨_, known, operators, alike⟩ := merged_table_union "both" [folded, written]
  have inFolded : (ofSpec folded).isKeyword (Text.bytes "Select") = true := by decide +kernel
  have inWritten : (ofSpec written).isKeyword (Text.bytes "Self") = true := by decide +kernel
  refine ⟨folded, written, rfl, rfl, inFolded, (known folded (by simp) _ inFolded).2 rfl, by decide +kernel,
    inWritten, (known written (by simp) _ inWritten).1 rfl, ?_, alike _ (.swap folded written []) _⟩
  exact (operators [0x3C, 0x3D, 0x3E] 0).1.trans (by decide +kernel)

end Language

end CodeTint
