import CodeTint.Proofs.Config
import Mathlib.Data.List.Induction
import Mathlib.Data.List.TakeWhile
import Mathlib.Data.String.Basic

/-!
# Which override decides

Overrides are written for names, and several names may mean one kind: they are
compared after trimming and lowering. They are applied in the order of the names,
so of all names of a kind the greatest one decides, no matter which of two merged
settings it comes from.
-/

namespace CodeTint

namespace Overrides

/-! ## Entries -/

theorem get?_append (first second : Overrides) (name : String) :
    (first.append second).get? name = (second.get? name).or (first.get? name) := by
  unfold get? append
  rw [List.reverse_append, List.lookup_append]

theorem lookup_cons (name : String) (entry : String × String) (rest : List (String × String)) :
    (entry :: rest).lookup name = if name = entry.1 then some entry.2 else rest.lookup name := by
  rw [List.lookup_cons]
  split
  · rename_i here
    rw [if_pos (eq_of_beq here)]
  · rename_i apart
    rw [if_neg (ne_of_beq_false apart)]

/-- A list of entries in which the names strictly increase. -/
def Sorted (entries : List (String × String)) : Prop :=
  entries.Pairwise fun before after => before.1 < after.1

theorem mem_insert {name style : String} {entry : String × String} {sorted : List (String × String)}
    (member : entry ∈ insert name style sorted) : entry = (name, style) ∨ entry ∈ sorted := by
  induction sorted with
  | nil => exact .inl (List.mem_singleton.mp member)
  | cons first rest ih =>
      unfold insert at member
      split at member
      · exact List.mem_cons.mp member
      · split at member
        · rcases List.mem_cons.mp member with same | later
          · exact .inl same
          · exact .inr (List.mem_cons_of_mem _ later)
        · rcases List.mem_cons.mp member with rfl | later
          · exact .inr List.mem_cons_self
          · exact (ih later).imp_right (List.mem_cons_of_mem _)

theorem Sorted.insert {sorted : List (String × String)} (ordered : Sorted sorted) (name style : String) :
    Sorted (Overrides.insert name style sorted) := by
  induction sorted with
  | nil => exact List.pairwise_singleton _ _
  | cons first rest ih =>
      obtain ⟨above, later⟩ := List.pairwise_cons.mp ordered
      unfold Overrides.insert
      split
      · rename_i below
        refine List.pairwise_cons.mpr ⟨?_, ordered⟩
        intro entry member
        rcases List.mem_cons.mp member with rfl | member
        · exact below
        · exact lt_trans below (above entry member)
      · rename_i notBelow
        split
        · rename_i same
          subst same
          exact List.pairwise_cons.mpr ⟨above, later⟩
        · rename_i other
          refine List.pairwise_cons.mpr ⟨?_, ih later⟩
          intro entry member
          rcases mem_insert member with rfl | member
          · exact lt_of_le_of_ne (not_lt.mp notBelow) (Ne.symm other)
          · exact above entry member

theorem lookup_insert (name style other : String) (sorted : List (String × String)) :
    (insert name style sorted).lookup other =
      if other = name then some style else sorted.lookup other := by
  induction sorted with
  | nil => exact lookup_cons other (name, style) []
  | cons first rest ih =>
      unfold insert
      split
      · exact lookup_cons other (name, style) (first :: rest)
      · split
        · rename_i same
          rw [lookup_cons, lookup_cons, same]
          split <;> rfl
        · rename_i apart
          rw [lookup_cons, lookup_cons, ih]
          by_cases here : other = first.1
          · rw [if_pos here, if_pos here, if_neg fun same => apart (same.symm.trans here)]
          · rw [if_neg here, if_neg here]

theorem sorted_entries (overrides : Overrides) : Sorted overrides.entries := by
  have sorted_foldl (writes sorted : List (String × String)) (ordered : Sorted sorted) :
      Sorted (writes.foldl (fun sorted entry => insert entry.1 entry.2 sorted) sorted) := by
    induction writes generalizing sorted with
    | nil => exact ordered
    | cons entry rest ih => exact ih _ (ordered.insert entry.1 entry.2)
  exact sorted_foldl overrides.writes [] List.Pairwise.nil

theorem lookup_entries (overrides : Overrides) (name : String) :
    overrides.entries.lookup name = overrides.get? name := by
  have lookup_foldl (writes sorted : List (String × String)) :
      (writes.foldl (fun sorted entry => insert entry.1 entry.2 sorted) sorted).lookup name =
        (writes.reverse.lookup name).or (sorted.lookup name) := by
    induction writes generalizing sorted with
    | nil => rfl
    | cons entry rest ih =>
        rw [List.foldl_cons, ih, lookup_insert, List.reverse_cons, List.lookup_append, Option.or_assoc]
        rw [lookup_cons, List.lookup_nil]
        split
        · rw [Option.some_or]
        · rw [Option.none_or]
  rw [entries, lookup_foldl, List.lookup_nil, Option.or_none, get?]

/-- Where each name stands once, its style is the one that is found. -/
theorem lookup_eq_some_iff_mem {entries : List (String × String)} (once : (entries.map Prod.fst).Nodup)
    {name style : String} : entries.lookup name = some style ↔ (name, style) ∈ entries := by
  induction entries with
  | nil => simp
  | cons first rest ih =>
      rw [List.map_cons, List.nodup_cons] at once
      rw [List.mem_cons, lookup_cons]
      by_cases here : name = first.1
      · have absent : (name, style) ∉ rest := by
          intro member
          exact once.1 (here ▸ List.mem_map.mpr ⟨(name, style), member, rfl⟩)
        obtain ⟨firstName, firstStyle⟩ := first
        cases here
        simp [absent, eq_comm]
      · have apart : (name, style) ≠ first := fun same => here (congrArg Prod.fst same)
        simp [here, apart, ih once.2]

theorem Sorted.mem_iff {sorted : List (String × String)} (ordered : Sorted sorted) {name style : String} :
    (name, style) ∈ sorted ↔ sorted.lookup name = some style := by
  have once : (sorted.map Prod.fst).Nodup := List.pairwise_map.mpr (ordered.imp fun less => ne_of_lt less)
  exact (lookup_eq_some_iff_mem once).symm

/-- The entries are the names with the styles written last for them. -/
theorem mem_entries {overrides : Overrides} {name style : String} :
    (name, style) ∈ overrides.entries ↔ overrides.get? name = some style := by
  rw [(sorted_entries overrides).mem_iff, lookup_entries]

/-! ## The name that decides -/

/-- Of the names of a kind for which a style is written this is the greatest, with its style. -/
structure Decides (overrides : Overrides) (kind : Kind) (name style : String) : Prop where
  written : overrides.get? name = some style
  named : Kind.parse? name = some kind
  greatest : ∀ other text, overrides.get? other = some text → Kind.parse? other = some kind →
    other ≤ name

theorem exists_decides {overrides : Overrides} {kind : Kind} {name style : String}
    (written : overrides.get? name = some style) (named : Kind.parse? name = some kind) :
    ∃ decider text, overrides.Decides kind decider text := by
  have ordered := (sorted_entries overrides).filter fun entry => Kind.parse? entry.1 = some kind
  have members {name style : String} : (name, style) ∈ overrides.entries.filter
        (fun entry => Kind.parse? entry.1 = some kind) ↔
      overrides.get? name = some style ∧ Kind.parse? name = some kind := by
    rw [List.mem_filter, mem_entries, decide_eq_true_eq]
  generalize overrides.entries.filter (fun entry => Kind.parse? entry.1 = some kind) = ofKind
    at ordered members
  cases ofKind using List.reverseRecOn with
  | nil => cases members.mpr ⟨written, named⟩
  | append_singleton before last =>
      obtain ⟨decider, text⟩ := last
      obtain ⟨decides, ofName⟩ := members.mp (List.mem_append_right before List.mem_cons_self)
      refine ⟨decider, text, decides, ofName, ?_⟩
      intro other otherText otherWritten otherNamed
      rcases List.mem_append.mp (members.mpr ⟨otherWritten, otherNamed⟩) with earlier | same
      · exact le_of_lt ((List.pairwise_append.mp ordered).2.2 _ earlier _ List.mem_cons_self)
      · rw [List.mem_singleton] at same
        exact le_of_eq (congrArg Prod.fst same)

/-- Without the writes for names of the kind. -/
def withoutKind (kind : Kind) (overrides : Overrides) : Overrides :=
  ⟨overrides.writes.filter fun write => Kind.parse? write.1 ≠ some kind⟩

theorem get?_withoutKind (kind : Kind) (overrides : Overrides) (name : String) :
    (overrides.withoutKind kind).get? name =
      if Kind.parse? name = some kind then none else overrides.get? name := by
  have lookup_filter (writes : List (String × String)) :
      (writes.filter fun write => Kind.parse? write.1 ≠ some kind).lookup name =
        if Kind.parse? name = some kind then none else writes.lookup name := by
    induction writes with
    | nil => simp
    | cons write rest ih =>
        rw [List.filter_cons, lookup_cons]
        by_cases here : name = write.1
        · subst here
          by_cases ofKind : Kind.parse? write.1 = some kind
          · simpa [ofKind] using ih
          · simp [ofKind, lookup_cons]
        · by_cases ofKind : Kind.parse? write.1 = some kind
          · simpa [ofKind, here] using ih
          · simpa [ofKind, here, lookup_cons] using ih
  unfold get? withoutKind
  rw [← List.filter_reverse, lookup_filter]

variable {first second : Overrides} {kind : Kind} {name style : String}

/-- The second overrides decide if the first have no greater name of the kind. -/
theorem Decides.append_right (decides : second.Decides kind name style)
    (below : ∀ other text, first.get? other = some text → Kind.parse? other = some kind → other ≤ name) :
    (first.append second).Decides kind name style := by
  refine ⟨?_, decides.named, ?_⟩
  · rw [get?_append, decides.written, Option.some_or]
  · intro other text written named
    rw [get?_append, Option.or_eq_some_iff] at written
    rcases written with inSecond | ⟨_, inFirst⟩
    · exact decides.greatest other text inSecond named
    · exact below other text inFirst named

/-- The first overrides decide if they have a greater name of the kind. -/
theorem Decides.append_left {other text : String} (decides : second.Decides kind name style)
    (outer : first.Decides kind other text) (above : name < other) :
    (first.append second).Decides kind other text := by
  have absent : second.get? other = none := by
    rw [Option.eq_none_iff_forall_ne_some]
    intro written found
    exact not_le_of_gt above (decides.greatest other written found outer.named)
  refine ⟨?_, outer.named, ?_⟩
  · rw [get?_append, absent, Option.none_or, outer.written]
  · intro next written found named
    rw [get?_append, Option.or_eq_some_iff] at found
    rcases found with inSecond | ⟨_, inFirst⟩
    · exact le_trans (decides.greatest next written inSecond named) (le_of_lt above)
    · exact outer.greatest next written inFirst named

theorem Decides.withoutKind_append (decides : second.Decides kind name style) (first : Overrides) :
    ((first.withoutKind kind).append second).Decides kind name style := by
  refine decides.append_right ?_
  intro other text written named
  rw [get?_withoutKind, if_pos named] at written
  cases written

end Overrides

/-! ## Styles that overrides ask for -/

namespace Text

open Unicode (isWhiteSpace)

theorem visible_toLower {c : Char} (visible : isWhiteSpace c = false) : isWhiteSpace c.toLower = false := by
  unfold Char.toLower
  split
  · rename_i upper
    rw [Bool.eq_false_iff]
    intro white
    obtain ⟨least, greatest⟩ := upper
    rw [ge_iff_le, UInt32.le_iff_toNat_le] at least
    rw [UInt32.le_iff_toNat_le] at greatest
    have code : (c.val + ('a'.val - 'A'.val)).toNat = c.val.toNat + 32 := by
      rw [UInt32.toNat_add]
      change (c.val.toNat + 32) % 2 ^ 32 = _
      change c.val.toNat ≤ 90 at greatest
      omega
    change 65 ≤ c.val.toNat at least
    change c.val.toNat ≤ 90 at greatest
    have far := Unicode.far_of_isWhiteSpace white
    simp only [Char.toNat, code] at far
    omega
  · exact visible

theorem words_ne_nil {text : String} {c : Char} (member : c ∈ text.toList)
    (visible : isWhiteSpace c = false) : words text ≠ [] := by
  have left : text.toList.dropWhile isWhiteSpace ≠ [] := by
    intro read
    have blank := List.dropWhile_eq_nil_iff.mp read c member
    rw [visible] at blank
    cases blank
  unfold words
  rw [ne_eq, List.map_eq_nil_iff, wordsOf]
  split
  · rename_i read
    exact absurd read left
  · exact List.cons_ne_nil _ _

/-- What is left of a text after trimming is empty or holds more than white space. -/
theorem visible_of_trim {text : String} (nonempty : trim text ≠ "") :
    ∃ c ∈ (trim text).toList, isWhiteSpace c = false := by
  unfold trim trimEnd at nonempty ⊢
  rw [String.toList_ofList]
  generalize (text.toList.dropWhile isWhiteSpace).reverse = backwards at nonempty ⊢
  cases left : backwards.dropWhile isWhiteSpace with
  | nil =>
      rw [left] at nonempty
      exact absurd rfl nonempty
  | cons c rest =>
      have stopped := Utf8.stopped_of_dropWhile isWhiteSpace backwards (by rw [left, List.head?_cons])
      exact ⟨c, List.mem_reverse.mpr List.mem_cons_self, stopped⟩

end Text

namespace Sgr

theorem intercalate_ne_empty {first : String} (rest : List String) (nonempty : first ≠ "") :
    ";".intercalate (first :: rest) ≠ "" := by
  cases rest with
  | nil =>
      rw [String.intercalate_singleton]
      exact nonempty
  | cons second rest =>
      rw [String.intercalate_cons_cons]
      intro empty
      exact nonempty (by simpa using congrArg String.toList empty)

theorem modifier?_ne_empty {word parameter : String} (found : modifier? word = some parameter) :
    parameter ≠ "" := by
  unfold modifier? at found
  split at found <;> cases found <;> decide

theorem parameter_ne_empty (color : Color) : color.parameter ≠ "" := by
  obtain ⟨hue, bright⟩ := color
  cases hue <;> cases bright <;> decide

theorem ofWords?_ne_empty {words : List String} {parameters : String} (nonempty : words ≠ [])
    (found : ofWords? words = some parameters) : parameters ≠ "" := by
  unfold ofWords? at found
  dsimp only at found
  split at found
  · rename_i modifiersOnly
    cases found
    obtain ⟨word, rest, rfl⟩ := List.exists_cons_of_ne_nil nonempty
    have modifier := List.filter_eq_nil_iff.mp modifiersOnly word List.mem_cons_self
    cases here : modifier? word with
    | none => exact absurd (by rw [here]; rfl) modifier
    | some parameter =>
        rw [List.filterMap_cons_some here]
        exact intercalate_ne_empty _ (modifier?_ne_empty here)
  · obtain ⟨color, _, rfl⟩ := Option.map_eq_some_iff.mp found
    exact intercalate_ne_empty _ (parameter_ne_empty color)

/-- A style that is understood has parameters. -/
theorem ofStyle?_ne_empty {style parameters : String} (found : ofStyle? style = some parameters) :
    parameters ≠ "" := by
  unfold ofStyle? at found
  dsimp only at found
  split at found
  · cases found
  · rename_i nonempty
    rw [String.isEmpty_iff] at nonempty
    split at found
    · cases found
      exact nonempty
    · obtain ⟨c, member, visible⟩ := Text.visible_of_trim nonempty
      refine ofWords?_ne_empty (Text.words_ne_nil (c := c.toLower) ?_ (Text.visible_toLower visible)) found
      rw [Text.lower, String.toList_ofList]
      exact List.mem_map_of_mem member

end Sgr

namespace Config

variable {output : Output} {styles after : StyleMap} {kind : Kind}

theorem overrideStyle_ne_empty {text style : String}
    (asked : overrideStyle output kind text = .ok (some style)) : style ≠ "" := by
  unfold overrideStyle at asked
  dsimp only at asked
  split at asked
  · cases asked
  · rename_i nonempty
    rw [String.isEmpty_iff] at nonempty
    split at asked
    · split at asked
      · rename_i parameters found
        cases asked
        exact Sgr.ofStyle?_ne_empty found
      · cases asked
    · cases asked
      exact nonempty

/-- An override changes the style of the kind it names to the one it asks for. -/
theorem get?_applyOverride {entry : String × String}
    (applied : applyOverride output styles entry = .ok after) :
    ∃ named change, Kind.parse? entry.1 = some named ∧ overrideStyle output named entry.2 = .ok change ∧
      ∀ other, after.get? other = if other = named then change else styles.get? other := by
  unfold applyOverride at applied
  split at applied
  · cases applied
  · rename_i named parsed
    cases asked : overrideStyle output named entry.2 with
    | error =>
        rw [asked] at applied
        cases applied
    | ok change =>
        rw [asked] at applied
        refine ⟨named, change, parsed, asked, ?_⟩
        intro other
        cases change with
        | none =>
            cases applied
            exact StyleMap.get?_remove styles named other
        | some style =>
            cases applied
            have nonempty : ¬style.isEmpty := fun empty =>
              overrideStyle_ne_empty asked (String.isEmpty_iff.mp empty)
            rw [StyleMap.get?_set, if_neg nonempty]

/-- Overrides can be applied if each of them names a kind and asks for a style that can be had;
the styles before them do not matter. -/
theorem applyOverrides_ok_iff {entries : List (String × String)} :
    (∃ after, applyOverrides output styles entries = .ok after) ↔
      ∀ entry ∈ entries, ∃ named change,
        Kind.parse? entry.1 = some named ∧ overrideStyle output named entry.2 = .ok change := by
  induction entries generalizing styles with
  | nil => exact ⟨fun _ => by simp, fun _ => ⟨styles, rfl⟩⟩
  | cons entry rest ih =>
      rw [List.forall_mem_cons, applyOverrides_cons]
      constructor
      · rintro ⟨after, applied⟩
        obtain ⟨next, first, applied⟩ := Except.bind_eq_ok applied
        obtain ⟨named, change, parsed, asked, _⟩ := get?_applyOverride first
        exact ⟨⟨named, change, parsed, asked⟩, ih.mp ⟨after, applied⟩⟩
      · rintro ⟨⟨named, change, parsed, asked⟩, later⟩
        obtain ⟨next, first⟩ : ∃ next, applyOverride output styles entry = .ok next := by
          unfold applyOverride
          rw [parsed]
          dsimp only
          rw [asked]
          exact ⟨_, rfl⟩
        rw [first]
        exact ih.mpr later

theorem get?_applyOverrides_other {entries : List (String × String)}
    (applied : applyOverrides output styles entries = .ok after)
    (other : ∀ entry ∈ entries, Kind.parse? entry.1 ≠ some kind) : after.get? kind = styles.get? kind := by
  induction entries generalizing styles with
  | nil =>
      cases applied
      rfl
  | cons entry rest ih =>
      rw [List.forall_mem_cons] at other
      rw [applyOverrides_cons] at applied
      obtain ⟨next, first, applied⟩ := Except.bind_eq_ok applied
      obtain ⟨named, change, parsed, _, changed⟩ := get?_applyOverride first
      rw [ih applied other.2, changed, if_neg]
      rintro rfl
      exact other.1 parsed

/-- The last override of a kind says which style the kind has. -/
theorem overrideStyle_of_last {before later : List (String × String)} {name text : String}
    (applied : applyOverrides output styles (before ++ (name, text) :: later) = .ok after)
    (named : Kind.parse? name = some kind)
    (last : ∀ next ∈ later, Kind.parse? next.1 ≠ some kind) :
    overrideStyle output kind text = .ok (after.get? kind) := by
  induction before generalizing styles with
  | nil =>
      rw [List.nil_append, applyOverrides_cons] at applied
      obtain ⟨next, first, applied⟩ := Except.bind_eq_ok applied
      obtain ⟨other, change, parsed, asked, changed⟩ := get?_applyOverride first
      obtain rfl : other = kind := Option.some.inj (parsed.symm.trans named)
      rw [get?_applyOverrides_other applied last, changed, if_pos rfl]
      exact asked
  | cons entry before ih =>
      rw [List.cons_append, applyOverrides_cons] at applied
      obtain ⟨next, _, applied⟩ := Except.bind_eq_ok applied
      exact ih applied

/-- The greatest name of a kind says which style the kind has. -/
theorem overrideStyle_of_decides {overrides : Overrides} {name text : String}
    (applied : applyOverrides output styles overrides.entries = .ok after)
    (decides : overrides.Decides kind name text) :
    overrideStyle output kind text = .ok (after.get? kind) := by
  have ordered := overrides.sorted_entries
  obtain ⟨before, later, split⟩ := List.append_of_mem (Overrides.mem_entries.mpr decides.written)
  have written (next : String × String) (member : next ∈ later) : overrides.get? next.1 = some next.2 := by
    apply Overrides.mem_entries.mp
    rw [split]
    exact List.mem_append_right before (List.mem_cons_of_mem _ member)
  rw [split] at applied ordered
  refine overrideStyle_of_last applied decides.named ?_
  intro next member named
  have above := (List.pairwise_cons.mp (List.pairwise_append.mp ordered).2.1).1 next member
  exact absurd above (not_lt_of_ge (decides.greatest next.1 next.2 (written next member) named))

end Config

/-! ## Merged settings -/

namespace Settings

/-- The overrides of the settings; without any, nothing is written. -/
def written (settings : Settings) : Overrides :=
  settings.overrides.getD ⟨[]⟩

/-- Without the overrides of one kind. -/
def withoutKind (kind : Kind) (settings : Settings) : Settings :=
  { settings with overrides := settings.overrides.map (Overrides.withoutKind kind) }

theorem entries_written (settings : Settings) :
    (settings.overrides.map Overrides.entries).getD [] = settings.written.entries := by
  unfold written
  cases settings.overrides with
  | none => rfl
  | some overrides => rfl

theorem written_merge (parent child : Settings) :
    (parent.merge child).written = parent.written.append child.written := by
  unfold written merge
  dsimp only
  cases parent.overrides with
  | none =>
      cases child.overrides with
      | none => rfl
      | some second => rfl
  | some first =>
      cases child.overrides with
      | none =>
          change first = Overrides.append first ⟨[]⟩
          rw [Overrides.append, List.append_nil]
      | some second => rfl

theorem written_withoutKind (kind : Kind) (settings : Settings) :
    (settings.withoutKind kind).written = settings.written.withoutKind kind := by
  unfold written withoutKind
  cases settings.overrides with
  | none => rfl
  | some overrides => rfl

end Settings

namespace Config

/-- The steps by which settings are resolved. -/
theorem steps_of_ofSettings {settings : Settings} {config : Config}
    (resolved : ofSettings settings = .ok config) :
    (settings.format.map Output.parse).getD (.ok (.annotated .html)) = .ok config.output ∧
      (settings.classPrefix.map checkClassPrefix).getD (.ok StyleMap.defaultClassPrefix) =
        .ok config.classPrefix ∧
      applyOverrides config.output (defaultStyles config.output config.classPrefix)
        settings.written.entries = .ok config.styles := by
  unfold ofSettings at resolved
  obtain ⟨output, format, resolved⟩ := Except.bind_eq_ok resolved
  obtain ⟨classPrefix, checked, resolved⟩ := Except.bind_eq_ok resolved
  obtain ⟨styles, applied, resolved⟩ := Except.bind_eq_ok resolved
  rw [Settings.entries_written] at applied
  cases resolved
  exact ⟨format, checked, applied⟩

theorem ofSettings_of_steps {settings : Settings} {output : Output} {classPrefix : String}
    {styles : StyleMap}
    (format : (settings.format.map Output.parse).getD (.ok (.annotated .html)) = .ok output)
    (checked : (settings.classPrefix.map checkClassPrefix).getD (.ok StyleMap.defaultClassPrefix) =
      .ok classPrefix)
    (applied : applyOverrides output (defaultStyles output classPrefix) settings.written.entries =
      .ok styles) :
    ofSettings settings = .ok ⟨settings.language.bind languageHint?, output, classPrefix, styles,
      settings.coalesce.getD true, settings.languages.getD []⟩ := by
  rw [← Settings.entries_written] at applied
  unfold ofSettings
  rw [format, checked]
  change (applyOverrides output (defaultStyles output classPrefix) _ >>= _) = _
  rw [applied]
  rfl

/-- Settings that resolve still do with some of their overrides only. -/
theorem ofSettings_of_fewer {settings fewer : Settings} {config : Config}
    (resolved : ofSettings settings = .ok config) (format : fewer.format = settings.format)
    (classPrefix : fewer.classPrefix = settings.classPrefix)
    (kept : ∀ name text, fewer.written.get? name = some text → settings.written.get? name = some text) :
    ∃ alone, ofSettings fewer = .ok alone ∧ alone.output = config.output := by
  obtain ⟨outputStep, prefixStep, applied⟩ := steps_of_ofSettings resolved
  obtain ⟨styles, again⟩ : ∃ styles, applyOverrides config.output
      (defaultStyles config.output config.classPrefix) fewer.written.entries = .ok styles := by
    apply applyOverrides_ok_iff.mpr
    intro entry member
    have inAll := Overrides.mem_entries.mpr (kept entry.1 entry.2 (Overrides.mem_entries.mp member))
    exact applyOverrides_ok_iff.mp ⟨_, applied⟩ entry inAll
  rw [← format] at outputStep
  rw [← classPrefix] at prefixStep
  exact ⟨_, ofSettings_of_steps outputStep prefixStep again, rfl⟩

/-- Where a child overrides a kind, the style of the kind is the one the child asks for, exactly
if no name that the parent writes for the kind is greater than all of the child's, unless it asks
for the same style. -/
theorem merge_style_iff {parent child : Settings} {kind : Kind} {name style : String} {config : Config}
    (overridden : child.written.get? name = some style) (named : Kind.parse? name = some kind)
    (resolved : ofSettings (parent.merge child) = .ok config) :
    ∃ alone decider text, ofSettings ((parent.withoutKind kind).merge child) = .ok alone ∧
      child.written.Decides kind decider text ∧
      overrideStyle config.output kind text = .ok (alone.styles.get? kind) ∧
      (config.styles.get? kind = alone.styles.get? kind ↔
        ∀ other asked, parent.written.Decides kind other asked → decider < other →
          overrideStyle config.output kind asked = overrideStyle config.output kind text) := by
  obtain ⟨decider, text, decides⟩ := Overrides.exists_decides overridden named
  have merged := (steps_of_ofSettings resolved).2.2
  rw [Settings.written_merge] at merged
  obtain ⟨alone, resolvedAlone, sameOutput⟩ :
      ∃ alone, ofSettings ((parent.withoutKind kind).merge child) = .ok alone ∧
        alone.output = config.output := by
    refine ofSettings_of_fewer resolved rfl rfl ?_
    intro next asked written
    rw [Settings.written_merge, Overrides.get?_append, Option.or_eq_some_iff] at written ⊢
    refine written.imp_right fun inParent => ⟨inParent.1, ?_⟩
    rw [Settings.written_withoutKind, Overrides.get?_withoutKind] at inParent
    split at inParent
    · cases inParent.2
    · exact inParent.2
  have mergedAlone := (steps_of_ofSettings resolvedAlone).2.2
  rw [Settings.written_merge, Settings.written_withoutKind, sameOutput] at mergedAlone
  have ofChild := overrideStyle_of_decides mergedAlone (decides.withoutKind_append parent.written)
  refine ⟨alone, decider, text, resolvedAlone, decides, ofChild, ?_⟩
  rw [ofChild]
  constructor
  · intro same other asked outer above
    rw [← same]
    exact overrideStyle_of_decides merged (decides.append_left outer above)
  · intro agree
    apply Except.ok.inj
    by_cases greater : ∃ other asked, parent.written.Decides kind other asked ∧ decider < other
    · obtain ⟨other, asked, outer, above⟩ := greater
      rw [← agree other asked outer above]
      exact (overrideStyle_of_decides merged (decides.append_left outer above)).symm
    · have below (next asked : String) (written : parent.written.get? next = some asked)
          (ofKind : Kind.parse? next = some kind) : next ≤ decider := by
        obtain ⟨other, otherAsked, outer⟩ := Overrides.exists_decides written ofKind
        have notAbove : ¬decider < other := fun above => greater ⟨other, otherAsked, outer, above⟩
        exact le_trans (outer.greatest next asked written ofKind) (not_lt.mp notAbove)
      rw [← ofChild]
      exact (overrideStyle_of_decides merged (decides.append_right below)).symm

/-- Of `KEYWORD` in the parent and `Keyword` in the child the second is greater. -/
theorem merge_style_iff_terminal :
    ∃ config alone decider text,
      Overrides.get? ⟨[("Keyword", "bold cyan")]⟩ "Keyword" = some "bold cyan" ∧
      Kind.parse? "Keyword" = some .keyword ∧
      ofSettings (Settings.merge
        { format := some "ansi", overrides := some ⟨[("KEYWORD", "red"), ("comment", "dim")]⟩ }
        { overrides := some ⟨[("Keyword", "bold cyan")]⟩ }) = .ok config ∧
      ofSettings (Settings.merge (Settings.withoutKind .keyword
          { format := some "ansi", overrides := some ⟨[("KEYWORD", "red"), ("comment", "dim")]⟩ })
        { overrides := some ⟨[("Keyword", "bold cyan")]⟩ }) = .ok alone ∧
      Overrides.Decides ⟨[("Keyword", "bold cyan")]⟩ .keyword decider text ∧
      overrideStyle config.output .keyword text = .ok (alone.styles.get? .keyword) ∧
      (config.styles.get? .keyword = alone.styles.get? .keyword ↔
        ∀ other asked, Overrides.Decides ⟨[("KEYWORD", "red"), ("comment", "dim")]⟩ .keyword other asked →
          decider < other →
          overrideStyle config.output .keyword asked = overrideStyle config.output .keyword text) := by
  have done : (ofSettings (Settings.merge
      { format := some "ansi", overrides := some ⟨[("KEYWORD", "red"), ("comment", "dim")]⟩ }
      { overrides := some ⟨[("Keyword", "bold cyan")]⟩ })).map (fun _ => ()) = .ok () := by
    decide +kernel
  have written : (Settings.written { overrides := some ⟨[("Keyword", "bold cyan")]⟩ }).get? "Keyword" =
      some "bold cyan" := by
    decide +kernel
  have named : Kind.parse? "Keyword" = some .keyword := by decide +kernel
  cases resolved : ofSettings (Settings.merge
      { format := some "ansi", overrides := some ⟨[("KEYWORD", "red"), ("comment", "dim")]⟩ }
      { overrides := some ⟨[("Keyword", "bold cyan")]⟩ }) with
  | error =>
      rw [resolved] at done
      cases done
  | ok config =>
      obtain ⟨alone, decider, text, decided⟩ := merge_style_iff written named resolved
      exact ⟨config, alone, decider, text, written, named, rfl, decided⟩

/-- The parent writes the kind in lower case and the child does not, so the parent's style stays. -/
theorem merge_style_of_greater_name :
    (ofSettings (Settings.merge { overrides := some ⟨[("comment", "base")]⟩ }
        { overrides := some ⟨[("Comment", "child")]⟩ })).map (fun config => config.styles.get? .comment) =
      .ok (some "base") ∧
    (ofSettings (Settings.merge (Settings.withoutKind .comment { overrides := some ⟨[("comment", "base")]⟩ })
        { overrides := some ⟨[("Comment", "child")]⟩ })).map (fun config => config.styles.get? .comment) =
      .ok (some "child") := by
  decide +kernel

end Config

end CodeTint
