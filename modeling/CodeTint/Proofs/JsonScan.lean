import CodeTint.Json.Token

/-!
# Where JSON tokens end

A number ends before a character that goes on with no number, and a literal name
after its last letter. So the tokens of a text without quotes, before a text that
goes on with no word, are the tokens of the one and then those of the other, unless
the first is broken. A string ends at its closing quote, and there is none before a
control character.
-/

namespace CodeTint.JsonToken

/-- A number or a literal name may go on with this character. -/
def continuesWord (c : Char) : Bool :=
  c.isDigit || "+-.eEtrufalsn".toList.contains c

/-- No word goes on into the text. -/
def StopsWord (text : List Char) : Prop :=
  ∀ c ∈ text.head?, continuesWord c = false

theorem stopsWord_nil : StopsWord [] := by
  intro c member
  cases member

theorem stopsWord_cons {c : Char} (stops : continuesWord c = false) (rest : List Char) :
    StopsWord (c :: rest) := by
  intro d member
  cases member
  exact stops

variable {rest : List Char}

theorem StopsWord.not_digit (stops : StopsWord rest) : ∀ c ∈ rest.head?, c.isDigit = false := by
  intro c member
  exact (Bool.or_eq_false_iff.mp (stops c member)).1

theorem StopsWord.ne (stops : StopsWord rest) {d : Char} (continues : continuesWord d = true) :
    ∀ c ∈ rest.head?, c ≠ d := by
  rintro c member rfl
  rw [stops c member] at continues
  cases continues

/-! ## Numbers -/

theorem takeWhile_append {isMember : Char → Bool} (stops : ∀ c ∈ rest.head?, isMember c = false)
    (text : List Char) :
    (text ++ rest).takeWhile isMember = text.takeWhile isMember ∧
      (text ++ rest).dropWhile isMember = text.dropWhile isMember ++ rest := by
  induction text with
  | nil =>
      cases rest with
      | nil => exact ⟨rfl, rfl⟩
      | cons c rest =>
          have other := stops c rfl
          rw [List.nil_append, List.takeWhile_cons, List.dropWhile_cons, other]
          exact ⟨rfl, rfl⟩
  | cons c text ih =>
      rw [List.cons_append, List.takeWhile_cons, List.dropWhile_cons, List.takeWhile_cons, List.dropWhile_cons]
      cases isMember c with
      | true => exact ⟨congrArg (c :: ·) ih.1, ih.2⟩
      | false => exact ⟨rfl, rfl⟩

theorem digits?_append (stops : StopsWord rest) (text : List Char) :
    digits? (text ++ rest) = (digits? text).map fun found => (found.1, found.2 ++ rest) := by
  obtain ⟨taken, dropped⟩ := takeWhile_append stops.not_digit text
  unfold digits?
  rw [taken, dropped]
  cases text.takeWhile Char.isDigit with
  | nil => rfl
  | cons c digits => rfl

theorem whole?_append (stops : StopsWord rest) (text : List Char) :
    whole? (text ++ rest) = (whole? text).map fun found => (found.1, found.2 ++ rest) := by
  have other {text : List Char} (zero : ∀ more, text ≠ '0' :: more) :
      whole? text = (digits? text).map fun found => (decimal found.1, found.2) := by
    unfold whole?
    split
    · exact absurd rfl (zero _)
    · rfl
  have run {text : List Char} (here : ∀ more, text ≠ '0' :: more) (whole : ∀ more, text ++ rest ≠ '0' :: more) :
      whole? (text ++ rest) = (whole? text).map fun found => (found.1, found.2 ++ rest) := by
    rw [other here, other whole, digits?_append stops, Option.map_map, Option.map_map]
    rfl
  cases text with
  | nil =>
      refine run (fun more same => by cases same) fun more same => ?_
      rw [List.nil_append] at same
      exact stops.ne (d := '0') (by decide) '0' (by rw [same]; rfl) rfl
  | cons c text =>
      by_cases zero : c = '0'
      · subst zero
        rfl
      · exact run (fun more same => zero (List.cons.inj same).1) fun more same => zero (List.cons.inj same).1

theorem fraction?_of_ne {text : List Char} (other : ∀ c ∈ text.head?, c ≠ '.') :
    fraction? text = some (false, text) := by
  unfold fraction?
  split
  · exact absurd rfl (other '.' rfl)
  · rfl

theorem fraction?_append (stops : StopsWord rest) (text : List Char) :
    fraction? (text ++ rest) = (fraction? text).map fun found => (found.1, found.2 ++ rest) := by
  cases text with
  | nil => exact fraction?_of_ne (stops.ne (by decide))
  | cons c text =>
      by_cases dot : c = '.'
      · subst dot
        change (digits? (text ++ rest)).map _ = ((digits? text).map _).map _
        rw [digits?_append stops, Option.map_map, Option.map_map]
        rfl
      · have other : ∀ d ∈ (c :: text).head?, d ≠ '.' := by
          intro d member
          cases member
          exact dot
        rw [fraction?_of_ne other]
        exact fraction?_of_ne other

theorem withoutSign_of_ne {text : List Char} (other : ∀ c ∈ text.head?, c ≠ '+' ∧ c ≠ '-') :
    withoutSign text = text := by
  unfold withoutSign
  split
  · exact absurd rfl (other '+' rfl).1
  · exact absurd rfl (other '-' rfl).2
  · rfl

theorem withoutSign_append (stops : StopsWord rest) (text : List Char) :
    withoutSign (text ++ rest) = withoutSign text ++ rest := by
  cases text with
  | nil =>
      exact withoutSign_of_ne fun c member =>
        ⟨stops.ne (by decide) c member, stops.ne (by decide) c member⟩
  | cons c text =>
      by_cases plus : c = '+'
      · subst plus
        rfl
      by_cases minus : c = '-'
      · subst minus
        rfl
      have other : ∀ d ∈ (c :: text).head?, d ≠ '+' ∧ d ≠ '-' := by
        intro d member
        cases member
        exact ⟨plus, minus⟩
      rw [withoutSign_of_ne other]
      exact withoutSign_of_ne other

theorem exponent?_of_ne {text : List Char} (other : ∀ c ∈ text.head?, c ≠ 'e' ∧ c ≠ 'E') :
    exponent? text = some (false, text) := by
  unfold exponent?
  split
  · exact absurd rfl (other 'e' rfl).1
  · exact absurd rfl (other 'E' rfl).2
  · rfl

theorem exponent?_append (stops : StopsWord rest) (text : List Char) :
    exponent? (text ++ rest) = (exponent? text).map fun found => (found.1, found.2 ++ rest) := by
  have marked (text : List Char) :
      (digits? (withoutSign (text ++ rest))).map (fun found => (true, found.2)) =
        ((digits? (withoutSign text)).map fun found => (true, found.2)).map
          fun found => (found.1, found.2 ++ rest) := by
    rw [withoutSign_append stops, digits?_append stops, Option.map_map, Option.map_map]
    rfl
  cases text with
  | nil =>
      exact exponent?_of_ne fun c member =>
        ⟨stops.ne (by decide) c member, stops.ne (by decide) c member⟩
  | cons c text =>
      by_cases small : c = 'e'
      · subst small
        exact marked text
      by_cases capital : c = 'E'
      · subst capital
        exact marked text
      have other : ∀ d ∈ (c :: text).head?, d ≠ 'e' ∧ d ≠ 'E' := by
        intro d member
        cases member
        exact ⟨small, capital⟩
      rw [exponent?_of_ne other]
      exact exponent?_of_ne other

theorem unsigned?_append (stops : StopsWord rest) (text : List Char) :
    unsigned? (text ++ rest) = (unsigned? text).map fun found => (found.1, found.2 ++ rest) := by
  unfold unsigned?
  rw [whole?_append stops]
  cases whole? text with
  | none => rfl
  | some entry =>
      obtain ⟨value, text⟩ := entry
      dsimp only [Option.map_some]
      rw [fraction?_append stops]
      cases fraction? text with
      | none => rfl
      | some entry =>
          obtain ⟨hasFraction, text⟩ := entry
          dsimp only [Option.map_some]
          rw [exponent?_append stops, Option.map_map, Option.map_map]
          rfl

/-! ## Tokens -/

theorem isPrefixOf_append_of_stops {name : List Char} (stops : ∀ c ∈ rest.head?, c ∉ name) (text : List Char) :
    name.isPrefixOf (text ++ rest) = name.isPrefixOf text := by
  induction name generalizing text with
  | nil =>
      cases text with
      | nil => cases rest <;> rfl
      | cons c text => rfl
  | cons n name ih =>
      cases text with
      | nil =>
          cases rest with
          | nil => rfl
          | cons c rest =>
              have other : (n == c) = false := by
                rw [beq_eq_false_iff_ne]
                rintro rfl
                exact stops n rfl List.mem_cons_self
              rw [List.nil_append, List.isPrefixOf_cons_cons, other]
              rfl
      | cons c text =>
          rw [List.cons_append, List.isPrefixOf_cons_cons, List.isPrefixOf_cons_cons,
            ih fun c member inside => stops c member (List.mem_cons_of_mem n inside)]

theorem StopsWord.not_mem (stops : StopsWord rest) {name : List Char}
    (letters : name.all continuesWord = true) : ∀ c ∈ rest.head?, c ∉ name := by
  intro c member inside
  have continues := List.all_eq_true.mp letters c inside
  rw [stops c member] at continues
  cases continues

/-- A token that starts with no quote is the same before a text that goes on with no word. -/
theorem front?_append {c : Char} (quote : c ≠ '"') (stops : StopsWord rest) (text : List Char) :
    front? c (text ++ rest) = (front? c text).map fun found => (found.1, found.2 ++ rest) := by
  have dropped (n : Nat) {name : List Char} (long : name.length = n + 1)
      (front : name.isPrefixOf (c :: text) = true) : (text ++ rest).drop n = text.drop n ++ rest := by
    have fits := (List.isPrefixOf_iff_prefix.mp front).length_le
    rw [List.length_cons] at fits
    exact List.drop_append_of_le_length (by omega)
  have named {name : List Char} (letters : name.all continuesWord = true) :
      name.isPrefixOf (c :: (text ++ rest)) = name.isPrefixOf (c :: text) :=
    isPrefixOf_append_of_stops (stops.not_mem letters) (c :: text)
  unfold front?
  cases structural? c with
  | some token => rfl
  | none =>
      dsimp only
      rw [beq_eq_false_iff_ne.mpr quote, if_neg Bool.false_ne_true, if_neg Bool.false_ne_true,
        unsigned?_append stops, ← List.cons_append, unsigned?_append stops, List.cons_append,
        named (by decide), named (by decide), named (by decide)]
      split
      · rw [Option.map_map, Option.map_map]
        rfl
      split
      · rw [Option.map_map, Option.map_map]
        rfl
      split
      · rename_i front
        rw [dropped 3 (by decide) front]
        rfl
      split
      · rename_i front
        rw [dropped 4 (by decide) front]
        rfl
      split
      · rename_i front
        rw [dropped 3 (by decide) front]
        rfl
      · rfl

theorem digits?_suffix {text digits after : List Char} (found : digits? text = some (digits, after)) :
    after <:+ text := by
  unfold digits? at found
  split at found
  · cases found
  · cases found
    exact List.dropWhile_suffix _

theorem whole?_suffix {text after : List Char} {value : Nat} (found : whole? text = some (value, after)) :
    after <:+ text := by
  unfold whole? at found
  split at found
  · cases found
    exact List.suffix_cons _ _
  · obtain ⟨⟨digits, rest⟩, inner, same⟩ := Option.map_eq_some_iff.mp found
    cases same
    exact digits?_suffix inner

theorem fraction?_suffix {text after : List Char} {present : Bool}
    (found : fraction? text = some (present, after)) : after <:+ text := by
  unfold fraction? at found
  split at found
  · obtain ⟨⟨digits, rest⟩, inner, same⟩ := Option.map_eq_some_iff.mp found
    cases same
    exact (digits?_suffix inner).trans (List.suffix_cons _ _)
  · cases found
    exact List.suffix_refl _

theorem withoutSign_suffix (text : List Char) : withoutSign text <:+ text := by
  unfold withoutSign
  split
  · exact List.suffix_cons _ _
  · exact List.suffix_cons _ _
  · exact List.suffix_refl _

theorem exponent?_suffix {text after : List Char} {present : Bool}
    (found : exponent? text = some (present, after)) : after <:+ text := by
  unfold exponent? at found
  split at found
  · obtain ⟨⟨digits, rest⟩, inner, same⟩ := Option.map_eq_some_iff.mp found
    cases same
    exact ((digits?_suffix inner).trans (withoutSign_suffix _)).trans (List.suffix_cons _ _)
  · obtain ⟨⟨digits, rest⟩, inner, same⟩ := Option.map_eq_some_iff.mp found
    cases same
    exact ((digits?_suffix inner).trans (withoutSign_suffix _)).trans (List.suffix_cons _ _)
  · cases found
    exact List.suffix_refl _

theorem unsigned?_suffix {text after : List Char} {value : Option Nat}
    (found : unsigned? text = some (value, after)) : after <:+ text := by
  unfold unsigned? at found
  split at found
  · cases found
  · rename_i whole
    split at found
    · cases found
    · rename_i fraction
      obtain ⟨⟨present, rest⟩, exponent, same⟩ := Option.map_eq_some_iff.mp found
      cases same
      exact ((exponent?_suffix exponent).trans (fraction?_suffix fraction)).trans (whole?_suffix whole)

/-- A token that is a value of its own. -/
def isScalar : JsonToken → Bool
  | string _ | number _ | truth _ | null => true
  | _ => false

theorem front?_structural {c : Char} {token : JsonToken} (structural : structural? c = some token)
    (text : List Char) : front? c text = some (token, text) := by
  rw [front?, structural]

/-- A token that starts with no quote and no structural character is a scalar, and ends where the
rest of the text begins. -/
theorem front?_word {c : Char} {text after : List Char} {token : JsonToken} (structural : structural? c = none)
    (quote : c ≠ '"') (found : front? c text = some (token, after)) :
    token.isScalar = true ∧ after <:+ text := by
  rw [front?, structural] at found
  dsimp only at found
  rw [beq_eq_false_iff_ne.mpr quote, if_neg Bool.false_ne_true] at found
  split at found
  · obtain ⟨⟨value, after⟩, inner, same⟩ := Option.map_eq_some_iff.mp found
    cases same
    exact ⟨rfl, unsigned?_suffix inner⟩
  split at found
  · obtain ⟨⟨value, after⟩, inner, same⟩ := Option.map_eq_some_iff.mp found
    cases same
    refine ⟨rfl, ?_⟩
    rcases List.suffix_cons_iff.mp (unsigned?_suffix inner) with whole | part
    · have shorter := unsigned?_length inner
      rw [whole] at shorter
      omega
    · exact part
  split at found
  · cases found
    exact ⟨rfl, List.drop_suffix _ _⟩
  split at found
  · cases found
    exact ⟨rfl, List.drop_suffix _ _⟩
  split at found
  · cases found
    exact ⟨rfl, List.drop_suffix _ _⟩
  · cases found

theorem structural?_ne_broken {c : Char} {token : JsonToken} (structural : structural? c = some token) :
    token ≠ .broken := by
  rintro rfl
  unfold structural? at structural
  split at structural <;> cases structural

/-! ## Texts -/

theorem scan_nil : scan [] = [] := by
  rw [scan]

theorem scan_blank {c : Char} (blank : isBlank c = true) (text : List Char) : scan (c :: text) = scan text := by
  rw [scan, if_pos blank]

theorem scan_front {c : Char} (visible : isBlank c = false) {text after : List Char} {token : JsonToken}
    (found : front? c text = some (token, after)) : scan (c :: text) = token :: scan after := by
  rw [scan, visible, if_neg Bool.false_ne_true]
  split
  · rename_i here
    rw [found] at here
    cases here
    rfl
  · rename_i absent
    rw [found] at absent
    cases absent

theorem scan_broken {c : Char} (visible : isBlank c = false) {text : List Char} (absent : front? c text = none) :
    scan (c :: text) = [.broken] := by
  rw [scan, visible, if_neg Bool.false_ne_true]
  split
  · rename_i here
    rw [absent] at here
    cases here
  · rfl

/-- The tokens of a text with more behind it: none follow a broken one. -/
def followedBy (first second : List JsonToken) : List JsonToken :=
  if .broken ∈ first then first else first ++ second

theorem followedBy_nil (second : List JsonToken) : followedBy [] second = second :=
  rfl

theorem followedBy_cons {token : JsonToken} (whole : token ≠ .broken) (first second : List JsonToken) :
    followedBy (token :: first) second = token :: followedBy first second := by
  unfold followedBy
  simp only [List.mem_cons, Ne.symm whole, false_or]
  split <;> rfl

theorem followedBy_broken (second : List JsonToken) : followedBy [.broken] second = [.broken] :=
  rfl

/-- The tokens of a text without quotes, before a text that goes on with no word. -/
theorem scan_append {text : List Char} (quotes : '"' ∉ text) (stops : StopsWord rest) :
    scan (text ++ rest) = followedBy (scan text) (scan rest) := by
  fun_induction scan text with
  | case1 => rfl
  | case2 c text blank ih =>
      rw [List.mem_cons, not_or] at quotes
      rw [List.cons_append, scan_blank blank, ih quotes.2]
  | case3 c text visible token after found ih =>
      rw [List.mem_cons, not_or] at quotes
      have more := front?_append (Ne.symm quotes.1) stops text
      rw [found, Option.map_some] at more
      rw [Bool.not_eq_true] at visible
      have split : token ≠ .broken ∧ after <:+ text := by
        cases structural : structural? c with
        | some mark =>
            rw [front?_structural structural] at found
            cases found
            exact ⟨structural?_ne_broken structural, List.suffix_refl _⟩
        | none =>
            obtain ⟨scalar, suffix⟩ := front?_word structural (Ne.symm quotes.1) found
            refine ⟨?_, suffix⟩
            rintro rfl
            cases scalar
      rw [List.cons_append, scan_front visible more, ih fun inside => quotes.2 (split.2.subset inside),
        followedBy_cons split.1]
  | case4 c text visible absent =>
      rw [List.mem_cons, not_or] at quotes
      have more := front?_append (Ne.symm quotes.1) stops text
      rw [absent, Option.map_none] at more
      rw [Bool.not_eq_true] at visible
      rw [List.cons_append, scan_broken visible more, followedBy_broken]

/-! ## Strings -/

/-- What may stand between the quotes of a literal: no quote in it is without a backslash. -/
inductive Enclosed : List Char → Prop
  | nil : Enclosed []
  | plain {c : Char} {body : List Char} (quote : c ≠ '"') (slash : c ≠ '\\') :
      Enclosed body → Enclosed (c :: body)
  | escape (c : Char) {body : List Char} : Enclosed body → Enclosed ('\\' :: c :: body)

theorem stringParts?_plain {c : Char} (quote : c ≠ '"') (slash : c ≠ '\\') (rest : List Char) :
    stringParts? (c :: rest) =
      if c.toNat < 0x20 then none
      else (stringParts? rest).map fun found => (.char c :: found.1, found.2) := by
  have apart : (c == '\\') = false := beq_eq_false_iff_ne.mpr slash
  rw [stringParts?]
  · simp only [apart, Bool.false_or, decide_eq_true_eq]
  · exact quote
  · rintro a b d e more rfl
    exact absurd rfl slash
  · rintro letter more rfl
    exact absurd rfl slash

theorem stringParts?_escape {letter : Char} (other : letter ≠ 'u') (rest : List Char) :
    stringParts? ('\\' :: letter :: rest) =
      (escaped? letter).bind fun c => (stringParts? rest).map fun found => (.char c :: found.1, found.2) := by
  rw [stringParts?]
  · cases escaped? letter with
    | none => rfl
    | some c =>
        cases stringParts? rest with
        | none => rfl
        | some found => rfl
  · rintro a b c d more rfl
    exact absurd rfl other

theorem stringParts?_code (a b c d : Char) (rest : List Char) :
    stringParts? ('\\' :: 'u' :: a :: b :: c :: d :: rest) =
      (hexCode? a b c d).bind fun code =>
        (stringParts? rest).map fun found => (.unit code :: found.1, found.2) := by
  rw [stringParts?]
  cases hexCode? a b c d with
  | none => rfl
  | some code =>
      cases stringParts? rest with
      | none => rfl
      | some found => rfl

theorem stringParts?_short {text : List Char} (short : text.length < 4) :
    stringParts? ('\\' :: 'u' :: text) = none := by
  rw [stringParts?]
  · rfl
  · rintro a b c d rest _ rfl
    simp only [List.length_cons] at short
    omega

theorem plain_of_hexDigit {d : Char} (hexadecimal : (hexDigit? d).isSome = true) :
    0x20 ≤ d.toNat ∧ d ≠ '"' ∧ d ≠ '\\' := by
  have apart {least greatest : Char} (lower : least ≤ d) (upper : d ≤ greatest) (visible : 0x20 ≤ least.toNat)
      (quote : '"'.toNat < least.toNat) (slash : greatest.toNat < '\\'.toNat ∨ '\\'.toNat < least.toNat) :
      0x20 ≤ d.toNat ∧ d ≠ '"' ∧ d ≠ '\\' := by
    have low : least.toNat ≤ d.toNat := lower
    have high : d.toNat ≤ greatest.toNat := upper
    refine ⟨Nat.le_trans visible low, ?_, ?_⟩
    · rintro rfl
      omega
    · rintro rfl
      omega
  unfold hexDigit? at hexadecimal
  split at hexadecimal
  · rename_i range
    exact apart range.1 range.2 (by decide) (by decide) (by decide)
  split at hexadecimal
  · rename_i range
    exact apart range.1 range.2 (by decide) (by decide) (by decide)
  split at hexadecimal
  · rename_i range
    exact apart range.1 range.2 (by decide) (by decide) (by decide)
  · cases hexadecimal

theorem hexCode?_eq_none {a b c d : Char} (other : ∃ e ∈ [a, b, c, d], hexDigit? e = none) :
    hexCode? a b c d = none := by
  unfold hexCode?
  split
  · rename_i first second third fourth
    obtain ⟨e, member, absent⟩ := other
    simp only [List.mem_cons, List.not_mem_nil, or_false] at member
    rcases member with rfl | rfl | rfl | rfl
    · rw [absent] at first; cases first
    · rw [absent] at second; cases second
    · rw [absent] at third; cases third
    · rw [absent] at fourth; cases fourth
  · rfl

/-- A code of hexadecimal digits has no room for another character. -/
theorem stringParts?_code_none {text : List Char} (other : ∃ c ∈ text.take 4, hexDigit? c = none) :
    stringParts? ('\\' :: 'u' :: text) = none := by
  match text, other with
  | a :: b :: c :: d :: rest, other => rw [stringParts?_code, hexCode?_eq_none other]; rfl
  | [], _ | [_], _ | [_, _], _ | [_, _, _], _ => exact stringParts?_short (by simp)

/-- What follows a code point in an enclosed text is enclosed. -/
theorem Enclosed.drop_plain {c : Char} {body : List Char} (enclosed : Enclosed (c :: body))
    (hexadecimal : (hexDigit? c).isSome = true) : Enclosed body := by
  cases enclosed with
  | plain _ _ rest => exact rest
  | escape => cases hexadecimal

/-- Before a text that goes on with no hexadecimal digit the characters of the body are all refused,
or all read, whatever that text is. -/
def ReadsAlike (body : List Char) : Prop :=
  (∀ rest, (∀ c ∈ rest.head?, hexDigit? c = none) → stringParts? (body ++ rest) = none) ∨
    ∃ parts, ∀ rest, (∀ c ∈ rest.head?, hexDigit? c = none) →
      stringParts? (body ++ rest) = (stringParts? rest).map fun found => (parts ++ found.1, found.2)

theorem ReadsAlike.cons (front : List Char) (part : Part) {body : List Char} (later : ReadsAlike body)
    (step : ∀ rest, stringParts? (front ++ (body ++ rest)) =
      (stringParts? (body ++ rest)).map fun found => (part :: found.1, found.2)) :
    ReadsAlike (front ++ body) := by
  rcases later with refused | ⟨parts, read⟩
  · refine .inl fun rest other => ?_
    rw [List.append_assoc, step, refused rest other]
    rfl
  · refine .inr ⟨part :: parts, fun rest other => ?_⟩
    rw [List.append_assoc, step, read rest other, Option.map_map]
    rfl

theorem ReadsAlike.of_refused {body : List Char} (refused : ∀ rest, stringParts? (body ++ rest) = none) :
    ReadsAlike body :=
  .inl fun rest _ => refused rest

/-- The digits of a code would have to go on into the text behind. -/
theorem readsAlike_short {tail : List Char} (short : tail.length < 4) : ReadsAlike ('\\' :: 'u' :: tail) := by
  refine .inl fun rest other => ?_
  cases rest with
  | nil =>
      rw [List.append_nil]
      exact stringParts?_short short
  | cons c rest =>
      refine stringParts?_code_none ⟨c, ?_, other c rfl⟩
      change c ∈ (tail ++ c :: rest).take 4
      rw [List.take_append, List.mem_append]
      obtain ⟨left, room⟩ : ∃ left, 4 - tail.length = left + 1 := ⟨4 - tail.length - 1, by omega⟩
      rw [room, List.take_succ_cons]
      exact .inr List.mem_cons_self

theorem readsAlike_code {tail : List Char} (enclosed : Enclosed tail)
    (later : ∀ body, body.length < tail.length → Enclosed body → ReadsAlike body) :
    ReadsAlike ('\\' :: 'u' :: tail) := by
  match tail, enclosed, later with
  | a :: b :: c :: d :: tail, enclosed, later =>
      cases code : hexCode? a b c d with
      | none =>
          refine .of_refused fun rest => ?_
          change stringParts? ('\\' :: 'u' :: a :: b :: c :: d :: (tail ++ rest)) = none
          rw [stringParts?_code, code]
          rfl
      | some value =>
          have digit {e : Char} (member : e ∈ [a, b, c, d]) : (hexDigit? e).isSome = true := by
            rw [Option.isSome_iff_ne_none]
            intro absent
            rw [hexCode?_eq_none ⟨e, member, absent⟩] at code
            cases code
          have inner := (((enclosed.drop_plain (digit (by simp))).drop_plain (digit (by simp))).drop_plain
            (digit (by simp))).drop_plain (digit (by simp))
          refine ReadsAlike.cons ['\\', 'u', a, b, c, d] (.unit value)
            (later tail (by simp only [List.length_cons]; omega) inner) fun rest => ?_
          change stringParts? ('\\' :: 'u' :: a :: b :: c :: d :: (tail ++ rest)) = _
          rw [stringParts?_code, code]
          rfl
  | [], _, _ | [_], _, _ | [_, _], _, _ | [_, _, _], _, _ => exact readsAlike_short (by simp)

theorem Enclosed.readsAlike {body : List Char} (enclosed : Enclosed body) : ReadsAlike body := by
  induction length : body.length using Nat.strongRecOn generalizing body with
  | _ n ih =>
      subst length
      cases enclosed with
      | nil =>
          refine .inr ⟨[], fun rest _ => ?_⟩
          rw [List.nil_append]
          cases stringParts? rest <;> rfl
      | @plain c body quote slash rest =>
          by_cases control : c.toNat < 0x20
          · refine .of_refused fun rest => ?_
            rw [List.cons_append, stringParts?_plain quote slash, if_pos control]
          · refine ReadsAlike.cons [c] (.char c) (ih _ (Nat.lt_succ_self _) rest rfl) fun rest => ?_
            exact (stringParts?_plain quote slash _).trans (if_neg control)
      | @escape c body rest =>
          by_cases code : c = 'u'
          · subst code
            exact readsAlike_code rest fun body shorter inner =>
              ih _ (Nat.lt_trans shorter (Nat.lt_succ_of_lt (Nat.lt_succ_self _))) inner rfl
          · cases letter : escaped? c with
            | none =>
                refine .of_refused fun rest => ?_
                rw [List.cons_append, List.cons_append, stringParts?_escape code, letter]
                rfl
            | some d =>
                refine ReadsAlike.cons ['\\', c] (.char d)
                  (ih _ (Nat.lt_succ_of_lt (Nat.lt_succ_self _)) rest rfl) fun rest => ?_
                exact (stringParts?_escape code _).trans (by rw [letter]; rfl)

theorem front?_quote (rest : List Char) :
    front? '"' rest = (stringParts? rest).map fun found =>
      (string ((joinParts? found.1).map String.ofList), found.2) :=
  rfl

theorem scan_string {rest after : List Char} {parts : List Part} (found : stringParts? rest = some (parts, after)) :
    scan ('"' :: rest) = .string ((joinParts? parts).map String.ofList) :: scan after :=
  scan_front rfl (by rw [front?_quote, found]; rfl)

theorem scan_string_broken {rest : List Char} (absent : stringParts? rest = none) :
    scan ('"' :: rest) = [.broken] :=
  scan_broken rfl (by rw [front?_quote, absent]; rfl)

/-- A literal is a string, or broken, whatever follows its closing quote. -/
theorem Enclosed.scan_closed {body : List Char} (enclosed : Enclosed body) :
    (∀ rest, scan ('"' :: (body ++ '"' :: rest)) = [.broken]) ∨
      ∃ value, ∀ rest, scan ('"' :: (body ++ '"' :: rest)) = .string value :: scan rest := by
  have quote (rest : List Char) : ∀ c ∈ ('"' :: rest).head?, hexDigit? c = none := by
    intro c member
    cases member
    rfl
  rcases enclosed.readsAlike with refused | ⟨parts, read⟩
  · exact .inl fun rest => scan_string_broken (refused _ (quote rest))
  · exact .inr ⟨(joinParts? (parts ++ [])).map String.ofList, fun rest => scan_string (read _ (quote rest))⟩

/-- A literal that is not closed before the end of the text or a control character is broken, also if
it ends in a backslash. -/
theorem Enclosed.scan_open {body : List Char} (enclosed : Enclosed body)
    (control : ∀ c ∈ rest.head?, c.toNat < 0x20) :
    scan ('"' :: (body ++ rest)) = [.broken] ∧ scan ('"' :: (body ++ '\\' :: rest)) = [.broken] := by
  have refused {text : List Char} (other : ∀ c ∈ text.head?, hexDigit? c = none)
      (none : stringParts? text = none) : scan ('"' :: (body ++ text)) = [.broken] := by
    refine scan_string_broken ?_
    rcases enclosed.readsAlike with refused | ⟨parts, read⟩
    · exact refused text other
    · rw [read text other, none]
      rfl
  cases rest with
  | nil => exact ⟨refused (fun c member => by cases member) rfl, refused (fun c member => by cases member; rfl) rfl⟩
  | cons c rest =>
      have low := control c rfl
      have apart {d : Char} (visible : 0x20 ≤ d.toNat) : c ≠ d := by
        rintro rfl
        omega
      refine ⟨refused (fun d member => ?_) ?_, refused (fun d member => by cases member; rfl) ?_⟩
      · cases member
        rw [← Option.not_isSome_iff_eq_none]
        intro digit
        have visible := (plain_of_hexDigit digit).1
        omega
      · rw [stringParts?_plain (apart (by decide)) (apart (by decide)), if_pos low]
      · have letter : escaped? c = none := by
          unfold escaped?
          split <;> first | rfl | exact absurd rfl (apart (by decide))
        rw [stringParts?_escape (apart (by decide)), letter]
        rfl

/-! ## Words -/

/-- The character is no blank, no structural character and no quote. -/
def isWordChar (c : Char) : Bool :=
  !isBlank c && (structural? c).isNone && c != '"'

theorem isWordChar_iff {c : Char} :
    isWordChar c = true ↔ isBlank c = false ∧ structural? c = none ∧ c ≠ '"' := by
  rw [isWordChar, Bool.and_eq_true, Bool.and_eq_true, Bool.not_eq_true', Option.isNone_iff_eq_none, bne_iff_ne,
    and_assoc]

theorem continuesWord_of_structural {c : Char} {token : JsonToken} (structural : structural? c = some token) :
    continuesWord c = false := by
  unfold structural? at structural
  split at structural <;> first | rfl | cases structural

/-- No token starts with a control character or a character that is not ASCII. -/
theorem classes_of_far {c : Char} (far : c.toNat ≤ 0x20 ∨ 0x80 ≤ c.toNat) :
    structural? c = none ∧ c ≠ '"' ∧ continuesWord c = false := by
  have apart (d : Char) (least : 0x20 < d.toNat) (greatest : d.toNat < 0x80) : c ≠ d := by
    rintro rfl
    omega
  refine ⟨?_, apart '"' (by decide) (by decide), Bool.or_eq_false_iff.mpr ⟨?_, ?_⟩⟩
  · unfold structural?
    split <;> first | rfl | exact absurd rfl (apart _ (by decide) (by decide))
  · rw [Bool.eq_false_iff]
    intro digit
    have range := Char.isDigit_iff_toNat.mp digit
    have zero : '0'.toNat = 0x30 := rfl
    have nine : '9'.toNat = 0x39 := rfl
    omega
  · have listed : "+-.eEtrufalsn".toList.all (fun d => 0x20 < d.toNat && d.toNat < 0x80) = true := rfl
    rw [Bool.eq_false_iff]
    intro member
    have range := List.all_eq_true.mp listed c (List.contains_iff_mem.mp member)
    rw [Bool.and_eq_true, decide_eq_true_eq, decide_eq_true_eq] at range
    exact apart c range.1 range.2 rfl

theorem front?_of_not_continuesWord {c : Char} (structural : structural? c = none) (quote : c ≠ '"')
    (stops : continuesWord c = false) (text : List Char) : front? c text = none := by
  have stopped := stopsWord_cons stops text
  have named {name : List Char} (letters : name.all continuesWord = true) (nonempty : name ≠ []) :
      name.isPrefixOf (c :: text) = false := by
    have alone := isPrefixOf_append_of_stops (stopped.not_mem letters) []
    rw [List.nil_append] at alone
    rw [alone]
    cases name with
    | nil => exact absurd rfl nonempty
    | cons n name => rfl
  rw [front?, structural]
  dsimp only
  rw [beq_eq_false_iff_ne.mpr quote, beq_eq_false_iff_ne.mpr (stopped.ne (by decide) c rfl),
    stopped.not_digit c rfl, named (by decide) (by decide), named (by decide) (by decide),
    named (by decide) (by decide)]
  rfl

/-- Blanks are skipped, and other white space is broken. -/
theorem scan_whiteSpace {space : List Char} (far : ∀ c ∈ space, c.toNat ≤ 0x20 ∨ 0x80 ≤ c.toNat) :
    (∀ rest, scan (space ++ rest) = scan rest) ∨ ∀ rest, scan (space ++ rest) = [.broken] := by
  induction space with
  | nil => exact .inl fun rest => rfl
  | cons c space ih =>
      cases blank : isBlank c with
      | true =>
          rcases ih fun d member => far d (List.mem_cons_of_mem c member) with skipped | refused
          · refine .inl fun rest => ?_
            rw [List.cons_append, scan_blank blank, skipped]
          · refine .inr fun rest => ?_
            rw [List.cons_append, scan_blank blank, refused]
      | false =>
          obtain ⟨structural, quote, stops⟩ := classes_of_far (far c List.mem_cons_self)
          refine .inr fun rest => ?_
          rw [List.cons_append, scan_broken blank (front?_of_not_continuesWord structural quote stops _)]

/-- A value, or no token. -/
def endsApart (token : JsonToken) : Bool :=
  token.isScalar || token == .broken

theorem scan_wordChar {c : Char} (word : isWordChar c = true) (rest : List Char) :
    ∃ token others, scan (c :: rest) = token :: others ∧ endsApart token = true := by
  obtain ⟨visible, structural, quote⟩ := isWordChar_iff.mp word
  cases found : front? c rest with
  | none => exact ⟨.broken, [], scan_broken visible found, rfl⟩
  | some entry =>
      obtain ⟨token, after⟩ := entry
      refine ⟨token, scan after, scan_front visible found, ?_⟩
      rw [endsApart, (front?_word structural quote found).1, Bool.true_or]

theorem endsApart_of_mem_scan {word : List Char} (all : ∀ c ∈ word, isWordChar c = true) :
    ∀ token ∈ scan word, endsApart token = true := by
  fun_induction scan word with
  | case1 => intro token member; cases member
  | case2 c text blank ih => exact ih fun d member => all d (List.mem_cons_of_mem c member)
  | case3 c text visible token after found ih =>
      obtain ⟨_, structural, quote⟩ := isWordChar_iff.mp (all c List.mem_cons_self)
      obtain ⟨scalar, suffix⟩ := front?_word structural quote found
      intro next member
      rcases List.mem_cons.mp member with rfl | later
      · rw [endsApart, scalar, Bool.true_or]
      · exact ih (fun d inside => all d (List.mem_cons_of_mem c (suffix.subset inside))) next later
  | case4 c text visible absent =>
      intro token member
      rw [List.mem_singleton.mp member]
      rfl

end CodeTint.JsonToken
