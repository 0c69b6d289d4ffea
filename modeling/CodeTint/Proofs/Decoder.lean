import CodeTint.Config.Document
import CodeTint.Proofs.JsonScan
import Mathlib.Data.List.Chain

/-!
# What decoders accept

A decoder takes tokens from the front of a list. Those that any decoder of settings
takes are orderly: none of them is broken, and between two scalars there is always a
structural token. Each combinator keeps this property of the decoders it is given.
-/

namespace CodeTint

/-- At most one of two neighbours is a scalar. -/
def JsonToken.Apart (first second : JsonToken) : Prop :=
  ¬(first.isScalar = true ∧ second.isScalar = true)

/-- No token is broken and no two neighbours are scalars. -/
structure JsonToken.Orderly (tokens : List JsonToken) : Prop where
  whole : JsonToken.broken ∉ tokens
  apart : tokens.IsChain Apart

namespace JsonToken.Orderly

variable {first second : List JsonToken} {token : JsonToken}

theorem nil : Orderly [] :=
  ⟨List.not_mem_nil, .nil⟩

theorem cons (rest : Orderly second) (whole : token ≠ .broken)
    (apart : token.isScalar = true → ∀ next ∈ second.head?, next.isScalar = false) :
    Orderly (token :: second) := by
  refine ⟨?_, rest.apart.cons ?_⟩
  · rw [List.mem_cons, not_or]
    exact ⟨Ne.symm whole, rest.whole⟩
  · rintro next member ⟨here, there⟩
    rw [apart here next member] at there
    cases there

theorem single (whole : token ≠ .broken) : Orderly [token] :=
  nil.cons whole fun _ next member => by cases member

/-- A structural token before an orderly list. -/
theorem structural (rest : Orderly second) (whole : token ≠ .broken) (mark : token.isScalar = false) :
    Orderly (token :: second) :=
  rest.cons whole fun scalar => by
    rw [mark] at scalar
    cases scalar

/-- Two orderly lists with a structural token between them. -/
theorem separated (before : Orderly first) (behind : Orderly second) (whole : token ≠ .broken)
    (mark : token.isScalar = false) : Orderly (first ++ token :: second) := by
  have rest := behind.structural whole mark
  refine ⟨?_, before.apart.append rest.apart ?_⟩
  · rw [List.mem_append, not_or]
    exact ⟨before.whole, rest.whole⟩
  · rintro last _ next member ⟨_, there⟩
    cases member
    rw [mark] at there
    cases there

theorem right (orderly : Orderly (first ++ second)) : Orderly second :=
  ⟨fun broken => orderly.whole (List.mem_append_right first broken), orderly.apart.right_of_append⟩

end JsonToken.Orderly

namespace Json

open JsonToken (Orderly)

variable {α β ρ σ : Type}

/-- The tokens in front of the rest are orderly. -/
def Takes (tokens rest : List JsonToken) : Prop :=
  ∃ taken, tokens = taken ++ rest ∧ Orderly taken

/-- What the decoder takes is orderly. -/
def Decoder.Sound (decoder : Decoder α) : Prop :=
  ∀ tokens read, decoder tokens = .ok read → Takes tokens read.rest

namespace Takes

variable {tokens middle rest : List JsonToken} {token : JsonToken}

theorem refl (tokens : List JsonToken) : Takes tokens tokens :=
  ⟨[], rfl, .nil⟩

theorem first (whole : token ≠ .broken) (rest : List JsonToken) : Takes (token :: rest) rest :=
  ⟨[token], rfl, .single whole⟩

/-- A structural token in front. -/
theorem after (takes : Takes tokens rest) (whole : token ≠ .broken) (mark : token.isScalar = false) :
    Takes (token :: tokens) rest := by
  obtain ⟨taken, rfl, orderly⟩ := takes
  exact ⟨token :: taken, rfl, orderly.structural whole mark⟩

/-- A structural token between. -/
theorem through (takes : Takes tokens (token :: middle)) (later : Takes middle rest) (whole : token ≠ .broken)
    (mark : token.isScalar = false) : Takes tokens rest := by
  obtain ⟨taken, rfl, orderly⟩ := takes
  obtain ⟨more, rfl, behind⟩ := later
  exact ⟨taken ++ token :: more, by simp, orderly.separated behind whole mark⟩

/-- A structural token at the end. -/
theorem upTo (takes : Takes tokens (token :: rest)) (whole : token ≠ .broken)
    (mark : token.isScalar = false) : Takes tokens rest :=
  takes.through (refl rest) whole mark

end Takes

/-- The tokens in front of the rest are orderly, and stay so behind a scalar. -/
def Closes (tokens rest : List JsonToken) : Prop :=
  ∃ taken, tokens = taken ++ rest ∧ Orderly taken ∧ ∀ token ∈ taken.head?, token.isScalar = false

theorem Closes.takes {tokens rest : List JsonToken} (closes : Closes tokens rest) : Takes tokens rest := by
  obtain ⟨taken, same, orderly, _⟩ := closes
  exact ⟨taken, same, orderly⟩

theorem Closes.after {tokens rest : List JsonToken} {token : JsonToken} (closes : Closes tokens rest)
    (whole : token ≠ .broken) : Takes (token :: tokens) rest := by
  obtain ⟨taken, rfl, orderly, head⟩ := closes
  exact ⟨token :: taken, rfl, orderly.cons whole fun _ => head⟩

theorem Takes.closes {tokens rest : List JsonToken} {token : JsonToken} (takes : Takes tokens rest)
    (whole : token ≠ .broken) (mark : token.isScalar = false) : Closes (token :: tokens) rest := by
  obtain ⟨taken, rfl, orderly⟩ := takes
  refine ⟨token :: taken, rfl, orderly.structural whole mark, fun next member => ?_⟩
  cases member
  exact mark

/-- A key and a colon in front. -/
theorem Takes.entry {tokens rest : List JsonToken} (takes : Takes tokens rest) (key : Option String) :
    Takes (.string key :: .colon :: tokens) rest := by
  have behind : Closes (.colon :: tokens) rest := takes.closes JsonToken.noConfusion rfl
  exact behind.after JsonToken.noConfusion

theorem sound_string : string.Sound := by
  intro tokens read found
  unfold string at found
  split at found
  · cases found
    exact .first JsonToken.noConfusion _
  · cases found

theorem sound_boolean : boolean.Sound := by
  intro tokens read found
  unfold boolean at found
  split at found
  · cases found
    exact .first JsonToken.noConfusion _
  · cases found

theorem exists_of_map_eq_ok {result : Except DecodeError α} {f : α → β} {value : β}
    (mapped : result.map f = .ok value) : ∃ inner, result = .ok inner ∧ f inner = value := by
  cases result with
  | error error => cases mapped
  | ok inner =>
      cases mapped
      exact ⟨inner, rfl, rfl⟩

theorem Decoder.Sound.map {decoder : Decoder α} (sound : decoder.Sound) (f : α → β) :
    Decoder.Sound (Json.map f decoder) := by
  intro tokens read found
  obtain ⟨inner, done, rfl⟩ := exists_of_map_eq_ok found
  exact sound tokens inner done

theorem Decoder.Sound.nullable {decoder : Decoder α} (sound : decoder.Sound) :
    Decoder.Sound (Json.nullable decoder) := by
  intro tokens read found
  unfold Json.nullable at found
  split at found
  · cases found
    exact .first JsonToken.noConfusion _
  · exact sound.map some _ read found

/-! ## Skipped values -/

mutual

theorem takes_of_skipValue? (frames : List Frame) (tokens after : List JsonToken)
    (found : skipValue? frames tokens = some after) : Takes tokens after := by
  unfold skipValue? at found
  split at found
  case h_1 rest | h_3 rest =>
    have closes := closes_of_skipFrames? _ _ _ found
    exact (closes.takes.after JsonToken.noConfusion rfl).after JsonToken.noConfusion rfl
  case h_2 rest =>
    have takes := takes_of_skipValue? _ _ _ found
    exact (takes.entry _).after JsonToken.noConfusion rfl
  case h_4 rest _ => exact (takes_of_skipValue? _ _ _ found).after JsonToken.noConfusion rfl
  case h_5 rest | h_6 rest | h_7 rest | h_8 rest =>
    exact (closes_of_skipFrames? _ _ _ found).after JsonToken.noConfusion
  case h_9 => cases found

/-- What follows a value in a frame starts with a structural token. -/
theorem closes_of_skipFrames? (frames : List Frame) (tokens after : List JsonToken)
    (found : skipFrames? frames tokens = some after) : Closes tokens after := by
  unfold skipFrames? at found
  split at found
  case h_1 => cases found; exact ⟨[], rfl, .nil, fun token member => by cases member⟩
  case h_2 | h_4 => exact (closes_of_skipFrames? _ _ _ found).takes.closes JsonToken.noConfusion rfl
  case h_3 => exact (takes_of_skipValue? _ _ _ found).closes JsonToken.noConfusion rfl
  case h_5 =>
    have takes := takes_of_skipValue? _ _ _ found
    exact (takes.entry _).closes JsonToken.noConfusion rfl
  case h_6 => cases found

end

theorem sound_skip : skip.Sound := by
  intro tokens read found
  unfold skip at found
  split at found
  · rename_i rest skipped
    cases found
    exact takes_of_skipValue? [] tokens rest skipped
  · cases found

/-! ## Arrays and objects -/

theorem Decoder.Sound.items {item : Decoder α} (sound : item.Sound) :
    Decoder.Sound (Json.items item) := by
  intro tokens read found
  fun_induction Json.items item tokens with
  | case1 tokens error failed => cases found
  | case2 tokens value rest shorter last =>
      cases found
      exact (sound _ _ last).upTo JsonToken.noConfusion rfl
  | case3 tokens value rest shorter next ih =>
      obtain ⟨inner, done, rfl⟩ := exists_of_map_eq_ok found
      exact (sound _ _ next).through (ih inner done) JsonToken.noConfusion rfl
  | case4 tokens read here other => cases found

theorem Decoder.Sound.list {item : Decoder α} (sound : item.Sound) :
    Decoder.Sound (Json.list item) := by
  intro tokens read found
  unfold Json.list at found
  split at found
  · cases found
    exact (Takes.first JsonToken.noConfusion _).after JsonToken.noConfusion rfl
  · obtain ⟨inner, done, rfl⟩ := exists_of_map_eq_ok found
    exact (sound.items _ inner done).after JsonToken.noConfusion rfl
  · cases found

section Objects

variable {member : σ → String → Except DecodeError (Decoder σ)}

theorem sound_members (sound : ∀ state key value, member state key = .ok value → value.Sound)
    (state : σ) : Decoder.Sound (members member state) := by
  intro tokens read found
  fun_induction members member state tokens with
  | case3 state key tokens value chosen next rest shorter last =>
      cases found
      have takes := sound _ _ _ chosen _ _ last
      exact (takes.upTo JsonToken.noConfusion rfl).entry _
  | case4 state key tokens value chosen next rest shorter read ih =>
      obtain ⟨inner, done, rfl⟩ := exists_of_map_eq_ok found
      have takes := sound _ _ _ chosen _ _ read
      exact (takes.through (ih inner done) JsonToken.noConfusion rfl).entry _
  | _ => cases found

theorem sound_object (sound : ∀ state key value, member state key = .ok value → value.Sound)
    (state : σ) : Decoder.Sound (object member state) := by
  intro tokens read found
  unfold object at found
  split at found
  · cases found
    exact (Takes.first JsonToken.noConfusion _).after JsonToken.noConfusion rfl
  · obtain ⟨inner, done, rfl⟩ := exists_of_map_eq_ok found
    exact (sound_members sound state _ inner done).after JsonToken.noConfusion rfl
  · cases found

end Objects

theorem Decoder.Sound.pairs {value : Decoder α} (sound : value.Sound) :
    Decoder.Sound (Json.pairs value) :=
  sound_object (fun _ _ _ chosen => by cases chosen; exact sound.map _) []

/-! ## Records -/

/-- Every field is read by a sound decoder. -/
def SoundFields (fields : List (Field ρ)) : Prop :=
  ∀ field ∈ fields, ∀ record, (field.read record).Sound

theorem sound_fieldMember {fields : List (Field ρ)} (sound : SoundFields fields) (state : Partial ρ)
    (key : String) (value : Decoder (Partial ρ)) (chosen : fieldMember fields state key = .ok value) :
    value.Sound := by
  unfold fieldMember at chosen
  split at chosen
  · cases chosen
    exact sound_skip.map _
  · rename_i field found
    split at chosen
    · cases chosen
    · cases chosen
      exact (sound field (List.mem_of_find?_eq_some found) _).map _

theorem sound_positional {fields : List (Field ρ)} (sound : SoundFields fields) (record : ρ) :
    Decoder.Sound (positional fields record) := by
  induction fields generalizing record with
  | nil => intro tokens read found; cases found
  | cons field fields ih =>
      intro tokens read found
      have here := sound field List.mem_cons_self record tokens
      unfold positional at found
      split at found
      · cases found
      · rename_i next rest shorter last
        split at found
        · cases found
        · cases found
          exact (here _ last).upTo JsonToken.noConfusion rfl
      · rename_i next rest shorter more
        obtain ⟨inner, done, rfl⟩ := exists_of_map_eq_ok found
        have later := ih (fun field member => sound field (List.mem_cons_of_mem _ member)) next _ inner done
        exact (here _ more).through later JsonToken.noConfusion rfl
      · cases found

theorem sound_record {fields : List (Field ρ)} (sound : SoundFields fields) (initial : ρ) :
    Decoder.Sound (record fields initial) := by
  intro tokens read found
  unfold record at found
  split at found
  · split at found
    · cases found
    · cases found
      exact (Takes.first JsonToken.noConfusion _).after JsonToken.noConfusion rfl
  · obtain ⟨inner, done, rfl⟩ := exists_of_map_eq_ok found
    exact (sound_positional sound initial _ inner done).after JsonToken.noConfusion rfl
  · split at found
    · cases found
    · rename_i result rest shorter done
      split at found
      · cases found
        exact sound_object (sound_fieldMember sound) _ _ _ done
      · cases found

theorem soundFields_blockComment : SoundFields blockCommentFields := by
  simp only [SoundFields, blockCommentFields, List.forall_mem_cons]
  exact ⟨fun _ => sound_string.map _, fun _ => sound_string.map _, fun _ => sound_boolean.map _,
    fun _ member => nomatch member⟩

theorem soundFields_spec : SoundFields specFields := by
  have words := sound_string.list
  have comments : (list blockComment).Sound := (sound_record soundFields_blockComment _).list
  simp only [SoundFields, specFields, List.forall_mem_cons]
  exact ⟨fun _ => sound_string.map _, fun _ => words.map _, fun _ => words.map _, fun _ => words.map _,
    fun _ => words.map _, fun _ => words.map _, fun _ => comments.map _, fun _ => sound_string.map _,
    fun _ => sound_boolean.map _, fun _ => sound_boolean.map _, fun _ member => nomatch member⟩

theorem decode_eq_ok_iff (decoder : Decoder α) (text : String) (value : α) :
    decode decoder text = .ok value ↔
      ∃ read, decoder (JsonToken.scan text.toList) = .ok read ∧ read.rest = [] ∧ read.value = value := by
  unfold decode
  split
  · rename_i failed
    rw [failed]
    simp
  · rename_i done
    rw [done]
    simp
  · rename_i read more done
    rw [done]
    simp only [reduceCtorEq, Except.ok.injEq, exists_eq_left', false_iff, not_and]
    intro empty
    obtain ⟨last, rest, shorter⟩ := read
    obtain rfl : rest = [] := empty
    exact absurd rfl (more last shorter)

theorem orderly_of_decode {decoder : Decoder α} (sound : decoder.Sound) {text : String} {value : α}
    (done : decode decoder text = .ok value) : Orderly (JsonToken.scan text.toList) := by
  obtain ⟨read, found, empty, _⟩ := (decode_eq_ok_iff decoder text value).mp done
  obtain ⟨taken, same, orderly⟩ := sound _ _ found
  rw [same, empty, List.append_nil]
  exact orderly

end Json

namespace Document

open Json

theorem sound_boolean : Document.boolean.Sound := by
  intro tokens read found
  unfold Document.boolean at found
  split at found
  · split at found
    · cases found
      exact .first JsonToken.noConfusion _
    · cases found
  · exact Json.sound_boolean.nullable _ read found

theorem soundFields : SoundFields fields := by
  have word := sound_string.nullable
  have overrides := sound_string.pairs.nullable
  have languages : (nullable (list spec)).Sound := (sound_record soundFields_spec _).list.nullable
  simp only [SoundFields, fields, List.forall_mem_cons]
  exact ⟨fun _ => word.map _, fun _ => word.map _, fun _ => word.map _, fun _ => word.map _,
    fun _ => overrides.map _, fun _ => sound_boolean.map _, fun _ => languages.map _,
    fun _ member => nomatch member⟩

end Document

end CodeTint
