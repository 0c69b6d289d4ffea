import CodeTint.Config.Basic
import CodeTint.Proofs.Utf8

/-!
# Styles of a configuration

Whatever a terminal configuration is made from, each of its styles is a list of
SGR parameters: digits and semicolons.
-/

namespace CodeTint

theorem Except.bind_eq_ok {ε α β : Type} {first : Except ε α} {next : α → Except ε β} {result : β}
    (done : first >>= next = .ok result) : ∃ value, first = .ok value ∧ next value = .ok result := by
  cases first with
  | error => cases done
  | ok value => exact ⟨value, rfl, done⟩

/-! ## SGR parameters -/

namespace Sgr

theorem isRaw_append {first second : String} (left : isRaw first = true) (right : isRaw second = true) :
    isRaw (first ++ second) = true := by
  unfold isRaw at left right ⊢
  rw [String.toList_append, List.all_append, left, right]
  rfl

theorem isRaw_intercalate {parts : List String} (raw : ∀ part ∈ parts, isRaw part = true) :
    isRaw (";".intercalate parts) = true := by
  induction parts with
  | nil =>
      rw [String.intercalate_nil]
      rfl
  | cons first rest ih =>
      have here := raw first List.mem_cons_self
      cases rest with
      | nil =>
          rw [String.intercalate_singleton]
          exact here
      | cons second rest =>
          have later := ih fun part member => raw part (List.mem_cons_of_mem _ member)
          rw [String.intercalate_cons_cons]
          exact isRaw_append (isRaw_append here rfl) later

theorem isRaw_parameter (color : Color) : isRaw color.parameter = true := by
  obtain ⟨hue, bright⟩ := color
  cases hue <;> cases bright <;> rfl

theorem isRaw_of_modifier? {word parameter : String} (found : modifier? word = some parameter) :
    isRaw parameter = true := by
  unfold modifier? at found
  split at found <;> cases found <;> rfl

theorem isRaw_of_ofWords? {words : List String} {parameters : String}
    (found : ofWords? words = some parameters) : isRaw parameters = true := by
  have modifiers : ∀ part ∈ words.filterMap modifier?, isRaw part = true := by
    intro part member
    obtain ⟨word, _, same⟩ := List.mem_filterMap.mp member
    exact isRaw_of_modifier? same
  unfold ofWords? at found
  dsimp only at found
  split at found
  · cases found
    exact isRaw_intercalate modifiers
  · obtain ⟨color, _, rfl⟩ := Option.map_eq_some_iff.mp found
    apply isRaw_intercalate
    intro part member
    rcases List.mem_cons.mp member with rfl | later
    · exact isRaw_parameter color
    · exact modifiers part later

/-- A style is understood as digits and semicolons. -/
theorem isRaw_of_ofStyle? {style parameters : String} (found : ofStyle? style = some parameters) :
    isRaw parameters = true := by
  unfold ofStyle? at found
  dsimp only at found
  split at found
  · cases found
  · split at found
    · rename_i raw
      cases found
      exact raw
    · exact isRaw_of_ofWords? found

/-- The bytes of SGR parameters are digits and semicolons. -/
theorem bytes_of_isRaw {style : String} (raw : isRaw style = true) :
    ∀ b ∈ Text.bytes style, Byte.isDigit b = true ∨ b = 0x3B := by
  intro b member
  obtain ⟨c, inStyle, inBytes⟩ := List.mem_flatMap.mp member
  rcases Bool.or_eq_true_iff.mp (List.all_eq_true.mp raw c inStyle) with digit | semicolon
  · simp only [Char.isDigit, Bool.and_eq_true, decide_eq_true_eq, ge_iff_le, UInt32.le_iff_toNat_le] at digit
    have ascii : c.toNat < 0x80 := Nat.lt_of_le_of_lt digit.2 (by decide)
    have same := Utf8.toNat_of_mem_encodeChar ascii inBytes
    left
    simp only [Byte.isDigit, Bool.and_eq_true, decide_eq_true_eq, UInt8.le_iff_toNat_le, same]
    exact digit
  · obtain rfl := eq_of_beq semicolon
    have same := Utf8.toNat_of_mem_encodeChar (by decide) inBytes
    exact .inr (UInt8.toNat_inj.mp same)

end Sgr

/-! ## Style maps -/

namespace StyleMap

/-- Every style of the map is of the given sort. -/
def Every (sort : String → Prop) (styles : StyleMap) : Prop :=
  ∀ kind style, styles.get? kind = some style → sort style

variable {sort : String → Prop} {styles : StyleMap}

theorem Every.empty : empty.Every sort := by
  intro kind style found
  cases found

theorem Every.remove (every : styles.Every sort) (kind : Kind) : (styles.remove kind).Every sort := by
  intro other style found
  rw [get?_remove] at found
  split at found
  · cases found
  · exact every other style found

/-- The empty style is not kept, so it need not be of the sort. -/
theorem Every.set (every : styles.Every sort) (kind : Kind) {style : String}
    (fits : style ≠ "" → sort style) : (styles.set kind style).Every sort := by
  intro other found same
  rw [get?_set] at same
  split at same
  · split at same
    · cases same
    · rename_i nonempty
      cases same
      exact fits fun empty => nonempty (String.isEmpty_iff.mpr empty)
  · exact every other found same

theorem every_ofList {entries : List (Kind × String)}
    (fits : ∀ entry ∈ entries, entry.2 ≠ "" → sort entry.2) : (ofList entries).Every sort := by
  have every_foldl (start : StyleMap) (every : start.Every sort) :
      (entries.foldl (fun styles entry => styles.set entry.1 entry.2) start).Every sort := by
    induction entries generalizing start with
    | nil => exact every
    | cons entry rest ih =>
        exact ih (fun other member => fits other (List.mem_cons_of_mem _ member)) _
          (every.set entry.1 (fits entry List.mem_cons_self))
  exact every_foldl .empty .empty

theorem every_ansiPalette : ansiPalette.Every (Sgr.isRaw · = true) := by
  apply every_ofList
  intro entry member _
  simp only [List.mem_cons, List.not_mem_nil, or_false] at member
  rcases member with rfl | rfl | rfl | rfl | rfl
  all_goals rfl

end StyleMap

/-! ## Configurations -/

namespace Config

/-- For a terminal, every style is a list of SGR parameters. -/
def Terminal (output : Output) (styles : StyleMap) : Prop :=
  output = .annotated .ansi → styles.Every (Sgr.isRaw · = true)

theorem isRaw_of_overrideStyle {kind : Kind} {text style : String}
    (asked : overrideStyle (.annotated .ansi) kind text = .ok (some style)) : Sgr.isRaw style = true := by
  unfold overrideStyle at asked
  dsimp only at asked
  split at asked
  · cases asked
  · split at asked
    · rename_i parameters found
      cases asked
      exact Sgr.isRaw_of_ofStyle? found
    · cases asked

theorem every_applyOverride {sort : String → Prop} {output : Output} {styles after : StyleMap}
    {entry : String × String}
    (asked : ∀ kind text style,
      overrideStyle output kind text = .ok (some style) → style ≠ "" → sort style)
    (every : styles.Every sort) (applied : applyOverride output styles entry = .ok after) :
    after.Every sort := by
  unfold applyOverride at applied
  split at applied
  · cases applied
  · rename_i kind _
    cases answer : overrideStyle output kind entry.2 with
    | error => rw [answer] at applied; cases applied
    | ok change =>
        rw [answer] at applied
        cases change with
        | none =>
            cases applied
            exact every.remove kind
        | some style =>
            cases applied
            exact every.set kind (asked kind entry.2 style answer)

theorem every_applyOverrides {sort : String → Prop} {output : Output} {styles after : StyleMap}
    {entries : List (String × String)}
    (asked : ∀ kind text style,
      overrideStyle output kind text = .ok (some style) → style ≠ "" → sort style)
    (every : styles.Every sort) (applied : applyOverrides output styles entries = .ok after) :
    after.Every sort := by
  induction entries generalizing styles with
  | nil =>
      cases applied
      exact every
  | cons entry rest ih =>
      rw [applyOverrides_cons] at applied
      obtain ⟨next, first, applied⟩ := Except.bind_eq_ok applied
      exact ih (every_applyOverride asked every first) applied

/-- What the default styles and all that overrides can ask for have in common, every style of a
configuration has. -/
theorem every_ofSettings {sort : String → Prop} {settings : Settings} {config : Config}
    (resolved : ofSettings settings = .ok config)
    (defaults : (defaultStyles config.output config.classPrefix).Every sort)
    (asked : ∀ kind text style,
      overrideStyle config.output kind text = .ok (some style) → style ≠ "" → sort style) :
    config.styles.Every sort := by
  unfold ofSettings at resolved
  obtain ⟨output, _, resolved⟩ := Except.bind_eq_ok resolved
  obtain ⟨classPrefix, _, resolved⟩ := Except.bind_eq_ok resolved
  obtain ⟨styles, applied, resolved⟩ := Except.bind_eq_ok resolved
  cases resolved
  exact every_applyOverrides asked defaults applied

theorem terminal_ofSettings {settings : Settings} {config : Config}
    (resolved : ofSettings settings = .ok config) : Terminal config.output config.styles := by
  intro output
  refine every_ofSettings resolved ?_ ?_
  · rw [output]
    exact StyleMap.every_ansiPalette
  · rw [output]
    intro kind text style asked _
    exact isRaw_of_overrideStyle asked

/-- No style of a configuration is empty. -/
theorem nonempty_ofSettings {settings : Settings} {config : Config}
    (resolved : ofSettings settings = .ok config) : config.styles.Every (· ≠ "") := by
  refine every_ofSettings resolved ?_ fun _ _ _ _ nonempty => nonempty
  unfold defaultStyles
  split
  · exact StyleMap.every_ofList fun _ _ nonempty => nonempty
  · exact StyleMap.every_ofList fun _ _ nonempty => nonempty

end Config

end CodeTint
