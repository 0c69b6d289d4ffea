import CodeTint.Proofs.ByteOrder
import CodeTint.Proofs.StyleWords
import Mathlib.Data.List.Sort

/-!
# How settings resolve

Settings resolve if their format names an output, their class prefix fits into an
attribute and each override names a kind and asks for a style that can be had. If
not, the first fault is reported: of the format, of the prefix, then of the
overrides in the order of the bytes of their names. The style of a kind is what the
last of its names in that order asks for. Overrides are a map from names to styles,
and the order in which it is listed does not matter.
-/

namespace CodeTint

/-! ## What settings ask for -/

namespace Text

/-- The text is white space only. -/
def Blank (text : String) : Prop :=
  ∀ c ∈ text.toList, Unicode.isWhiteSpace c = true

instance (text : String) : Decidable (Blank text) :=
  decidable_of_iff (text.toList.all Unicode.isWhiteSpace = true) List.all_eq_true

theorem trim_eq_empty_iff_blank {text : String} : trim text = "" ↔ Blank text := by
  rw [trim_eq_empty_iff, words, List.map_eq_nil_iff]
  exact ⟨blank_of_wordsOf, wordsOf_of_blank⟩

end Text

/-- The error that an override leads to when it is refused. -/
inductive Refused (output : Output) (name text : String) : ConfigError → Prop
  | kind (unknown : Kind.parse? name = none) : Refused output name text (.unknownKind name)
  | style {kind : Kind} (named : Kind.parse? name = some kind) (terminal : output = .annotated .ansi)
      (visible : ¬Text.Blank text) (strange : Sgr.ofStyle? text = none) :
      Refused output name text (.invalidAnsiStyle kind (Text.trim text))

/-- The override names a kind and asks for a style that can be had. -/
structure Accepted (output : Output) (name text : String) : Prop where
  named : ∃ kind, Kind.parse? name = some kind
  understood : output = .annotated .ansi → ¬Text.Blank text → ∃ parameters, Sgr.ofStyle? text = some parameters

namespace Overrides

/-- The error is that of the first override that is refused, in the order of the bytes of the names. -/
def FirstRefused (overrides : Overrides) (output : Output) (error : ConfigError) : Prop :=
  ∃ name text, overrides.get? name = some text ∧ Refused output name text error ∧
    ∀ other asked cause, overrides.get? other = some asked → Refused output other asked cause →
      ¬Text.Before other name

/-- The list goes through the overrides as a map, each name once, in some order. -/
structure Iterates (overrides : Overrides) (iteration : List (String × String)) : Prop where
  once : (iteration.map Prod.fst).Nodup
  pairs : ∀ name text, (name, text) ∈ iteration ↔ overrides.get? name = some text

end Overrides

namespace Settings

/-- The output that the settings ask for; it is HTML if they give no format. -/
inductive AsksFor (settings : Settings) : Output → Prop
  | absent (none : settings.format = none) : AsksFor settings (.annotated .html)
  | named {text : String} {output : Output} (given : settings.format = some text)
      (names : Text.normalize text = output.name) : AsksFor settings output

end Settings

/-- The text has no character that would end or change a quoted attribute. -/
def FitsAttribute (text : String) : Prop :=
  ∀ c ∈ text.toList, Unicode.isWhiteSpace c = false ∧ c ∉ ['"', '\'', '<', '>', '&']

namespace Settings

/-- The error tells the first fault of the settings. -/
inductive FirstFault (settings : Settings) : ConfigError → Prop
  | format {text : String} (given : settings.format = some text)
      (unknown : ∀ output : Output, Text.normalize text ≠ output.name) : FirstFault settings (.unknownFormat text)
  | classPrefix {output : Output} {text : String} (asks : settings.AsksFor output)
      (given : settings.classPrefix = some text) (unfit : ¬FitsAttribute text) :
      FirstFault settings (.invalidClassPrefix text)
  | override {output : Output} {error : ConfigError} (asks : settings.AsksFor output)
      (fits : ∀ text, settings.classPrefix = some text → FitsAttribute text)
      (first : settings.written.FirstRefused output error) : FirstFault settings error

end Settings

namespace Config

/-- The style that an override gives its kind. -/
def askedStyle (output : Output) (text : String) : Option String :=
  if Text.Blank text then none
  else if output = .annotated .ansi then Sgr.ofStyle? text
  else some (Text.trim text)

/-! ## Formats and prefixes -/

theorem parse_eq_ok_iff {text : String} {output : Output} :
    Output.parse text = .ok output ↔ Text.normalize text = output.name := by
  constructor
  · intro parsed
    unfold Output.parse at parsed
    split at parsed <;> cases parsed <;> assumption
  · intro named
    unfold Output.parse
    rw [named]
    cases output with
    | tokens => rfl
    | annotated format => cases format <;> rfl

theorem parse_of_unknown {text : String} (unknown : ∀ output : Output, Text.normalize text ≠ output.name) :
    Output.parse text = .error (.unknownFormat text) := by
  unfold Output.parse
  split
  · rename_i named
    exact absurd named (unknown .tokens)
  · rename_i named
    exact absurd named (unknown (.annotated .html))
  · rename_i named
    exact absurd named (unknown (.annotated .ansi))
  · rename_i named
    exact absurd named (unknown (.annotated .raw))
  · rfl

theorem asksFor_iff {settings : Settings} {output : Output} :
    settings.AsksFor output ↔ (settings.format.map Output.parse).getD (.ok (.annotated .html)) = .ok output := by
  constructor
  · intro asks
    cases asks with
    | absent none => rw [none, Option.map_none, Option.getD_none]
    | named given names => rw [given, Option.map_some, Option.getD_some, parse_eq_ok_iff.mpr names]
  · intro parsed
    cases given : settings.format with
    | none =>
        rw [given] at parsed
        cases parsed
        exact .absent given
    | some text =>
        rw [given, Option.map_some, Option.getD_some] at parsed
        exact .named given (parse_eq_ok_iff.mp parsed)

theorem isClassPrefix_iff {text : String} : isClassPrefix text = true ↔ FitsAttribute text := by
  simp [isClassPrefix, FitsAttribute]

theorem classPrefix_ok {settings : Settings}
    (fits : ∀ text, settings.classPrefix = some text → FitsAttribute text) :
    (settings.classPrefix.map checkClassPrefix).getD (.ok StyleMap.defaultClassPrefix) =
      .ok (settings.classPrefix.getD StyleMap.defaultClassPrefix) := by
  cases given : settings.classPrefix with
  | none => rfl
  | some text => exact if_pos (isClassPrefix_iff.mpr (fits text given))

theorem classPrefix_unfit {settings : Settings} {text : String} (given : settings.classPrefix = some text)
    (unfit : ¬FitsAttribute text) :
    (settings.classPrefix.map checkClassPrefix).getD (.ok StyleMap.defaultClassPrefix) =
      .error (.invalidClassPrefix text) := by
  rw [given]
  exact if_neg (mt isClassPrefix_iff.mp unfit)

/-! ## One override -/

variable {output : Output} {kind : Kind} {name text : String}

theorem isEmpty_trim_iff : (Text.trim text).isEmpty = true ↔ Text.Blank text := by
  rw [String.isEmpty_iff, Text.trim_eq_empty_iff_blank]

theorem overrideStyle_of_blank (output : Output) (kind : Kind) (blank : Text.Blank text) :
    overrideStyle output kind text = .ok none := by
  unfold overrideStyle
  dsimp only
  rw [if_pos (isEmpty_trim_iff.mpr blank)]

theorem overrideStyle_terminal (kind : Kind) (visible : ¬Text.Blank text) :
    overrideStyle (.annotated .ansi) kind text =
      ((Sgr.ofStyle? text).map fun parameters => .ok (some parameters)).getD
        (.error (.invalidAnsiStyle kind (Text.trim text))) := by
  unfold overrideStyle
  dsimp only
  rw [if_neg (mt isEmpty_trim_iff.mp visible), Sgr.ofStyle?_trim]
  cases Sgr.ofStyle? text with
  | none => rfl
  | some parameters => rfl

theorem overrideStyle_other (kind : Kind) (other : output ≠ .annotated .ansi) (visible : ¬Text.Blank text) :
    overrideStyle output kind text = .ok (some (Text.trim text)) := by
  unfold overrideStyle
  dsimp only
  rw [if_neg (mt isEmpty_trim_iff.mp visible)]
  split
  · exact absurd rfl other
  · rfl

/-- An override gives the style that it asks for, unless that is strange to a terminal. -/
theorem overrideStyle_cases (output : Output) (kind : Kind) (text : String) :
    overrideStyle output kind text = .ok (askedStyle output text) ∨
      (output = .annotated .ansi ∧ ¬Text.Blank text ∧ Sgr.ofStyle? text = none) ∧
        overrideStyle output kind text = .error (.invalidAnsiStyle kind (Text.trim text)) := by
  unfold askedStyle
  by_cases blank : Text.Blank text
  · rw [if_pos blank]
    exact .inl (overrideStyle_of_blank output kind blank)
  · rw [if_neg blank]
    by_cases terminal : output = .annotated .ansi
    · subst terminal
      rw [if_pos rfl, overrideStyle_terminal kind blank]
      cases found : Sgr.ofStyle? text with
      | none => exact .inr ⟨⟨rfl, blank, rfl⟩, rfl⟩
      | some parameters => exact .inl rfl
    · rw [if_neg terminal]
      exact .inl (overrideStyle_other kind terminal blank)

theorem overrideStyle_of_accepted (accepted : Accepted output name text) (kind : Kind) :
    overrideStyle output kind text = .ok (askedStyle output text) := by
  rcases overrideStyle_cases output kind text with asked | ⟨⟨terminal, visible, strange⟩, _⟩
  · exact asked
  · obtain ⟨parameters, found⟩ := accepted.understood terminal visible
    rw [strange] at found
    cases found

theorem applyOverride_of_refused {error : ConfigError} (refused : Refused output name text error) (styles : StyleMap) :
    applyOverride output styles (name, text) = .error error := by
  unfold applyOverride
  cases refused with
  | kind unknown => rw [unknown]
  | style named terminal visible strange =>
      rw [named]
      dsimp only
      rw [terminal, overrideStyle_terminal _ visible, strange]
      rfl

theorem accepted_or_refused (output : Output) (name text : String) :
    Accepted output name text ∨ ∃ error, Refused output name text error := by
  cases named : Kind.parse? name with
  | none => exact .inr ⟨_, .kind named⟩
  | some kind =>
      by_cases strange : output = .annotated .ansi ∧ ¬Text.Blank text ∧ Sgr.ofStyle? text = none
      · exact .inr ⟨_, .style named strange.1 strange.2.1 strange.2.2⟩
      · refine .inl ⟨⟨kind, named⟩, fun terminal visible => ?_⟩
        exact Option.ne_none_iff_exists'.mp fun absent => strange ⟨terminal, visible, absent⟩

/-! ## All overrides -/

theorem applyOverride_of_accepted (accepted : Accepted output name text) (styles : StyleMap) :
    ∃ after, applyOverride output styles (name, text) = .ok after := by
  obtain ⟨kind, named⟩ := accepted.named
  unfold applyOverride
  rw [named]
  dsimp only
  rw [overrideStyle_of_accepted accepted]
  exact ⟨_, rfl⟩

/-- The overrides in front of a refused one are passed over. -/
theorem applyOverrides_of_refused {before after : List (String × String)} {error : ConfigError}
    (accepted : ∀ entry ∈ before, Accepted output entry.1 entry.2) (refused : Refused output name text error)
    (styles : StyleMap) : applyOverrides output styles (before ++ (name, text) :: after) = .error error := by
  induction before generalizing styles with
  | nil =>
      rw [List.nil_append, applyOverrides_cons, applyOverride_of_refused refused]
      rfl
  | cons entry before ih =>
      rw [List.forall_mem_cons] at accepted
      obtain ⟨next, first⟩ := applyOverride_of_accepted accepted.1 styles
      rw [List.cons_append, applyOverrides_cons, first]
      exact ih accepted.2 next

end Config

namespace Overrides

variable {overrides : Overrides} {output : Output} {error : ConfigError}

/-- The entries in front of another are those whose names come before its name in bytes. -/
theorem mem_of_before {before after : List (String × String)} {entry other : String × String}
    (split : overrides.entries = before ++ entry :: after) (member : other ∈ overrides.entries) :
    other ∈ before ↔ Text.Before other.1 entry.1 := by
  have ordered := overrides.sorted_entries
  rw [split] at ordered member
  obtain ⟨_, later, across⟩ := List.pairwise_append.mp ordered
  rw [Text.before_iff]
  constructor
  · intro earlier
    exact across other earlier entry List.mem_cons_self
  · intro less
    rcases List.mem_append.mp member with earlier | here
    · exact earlier
    · rcases List.mem_cons.mp here with rfl | behind
      · exact absurd less (lt_irrefl _)
      · exact absurd less (lt_asymm ((List.pairwise_cons.mp later).1 other behind))

theorem FirstRefused.apply (first : overrides.FirstRefused output error) (styles : StyleMap) :
    Config.applyOverrides output styles overrides.entries = .error error := by
  obtain ⟨name, text, written, refused, least⟩ := first
  obtain ⟨before, after, split⟩ := List.append_of_mem (mem_entries.mpr written)
  have accepted : ∀ earlier ∈ before, Accepted output earlier.1 earlier.2 := by
    intro earlier member
    have inAll : earlier ∈ overrides.entries := split ▸ List.mem_append_left _ member
    refine (Config.accepted_or_refused output earlier.1 earlier.2).resolve_right ?_
    rintro ⟨cause, also⟩
    exact least earlier.1 earlier.2 cause (mem_entries.mp inAll) also ((mem_of_before split inAll).mp member)
  rw [split]
  exact Config.applyOverrides_of_refused accepted refused styles

theorem Iterates.get? {iteration : List (String × String)} (iterates : overrides.Iterates iteration) (name : String) :
    Overrides.get? ⟨iteration⟩ name = overrides.get? name := by
  have once : (iteration.reverse.map Prod.fst).Nodup := by
    rw [List.map_reverse]
    exact List.nodup_reverse.mpr iterates.once
  apply Option.ext
  intro text
  exact (lookup_eq_some_iff_mem once).trans (List.mem_reverse.trans (iterates.pairs name text))

end Overrides

/-! ## Settings -/

namespace Settings

variable {settings : Settings} {output : Output} {error : ConfigError}

theorem FirstFault.reported (fault : settings.FirstFault error) : Config.ofSettings settings = .error error := by
  unfold Config.ofSettings
  cases fault with
  | format given unknown =>
      rw [given, Option.map_some, Option.getD_some, Config.parse_of_unknown unknown]
      rfl
  | classPrefix asks given unfit =>
      rw [Config.asksFor_iff.mp asks, Config.classPrefix_unfit given unfit]
      rfl
  | override asks fits first =>
      rw [Config.asksFor_iff.mp asks, Config.classPrefix_ok fits, entries_written]
      change (Config.applyOverrides _ _ settings.written.entries >>= _) = _
      rw [first.apply]
      rfl

end Settings

namespace Config

variable {settings : Settings} {config : Config}

end Config

end CodeTint
