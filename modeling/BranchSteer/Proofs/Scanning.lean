import BranchSteer.Json.Token

/-!
The scanner finds the tokens of a text again. A text spells its tokens (`Spells`) wherever it begins behind a
complete token. Spelled texts are put together at a punctuation mark or at a blank, since neither can go on a
word or a number.
-/

namespace BranchSteer.Json

namespace Number

structure Fits (number : Number) : Prop where
  significand : number.significand < 0x10000000000000000
  power : ∀ exponent ∈ number.exponent, exponent.natAbs < 0x10000000000000000

theorem leadingValue_concat (digits : List Char) (digit : Char) : leadingValue (digits ++ [digit]) =
    let leading := leadingValue digits
    let value := leading.1 * 10 + (digit.toNat - '0'.toNat)
    if leading.2 = 0 ∧ value < 0x10000000000000000 then (value, 0)
    else (leading.1, leading.2 + 1) := by
  simp [leadingValue]

theorem leadingValue_toDigits {value : Nat} (fits : value < 0x10000000000000000) :
    leadingValue (Nat.toDigits 10 value) = (value, 0) := by
  induction value using Nat.strongRecOn with
  | ind value ih =>
      have last : (Nat.digitChar (value % 10)).toNat - '0'.toNat = value % 10 :=
        Nat.toNat_digitChar_sub_48_of_lt_ten (Nat.mod_lt _ (by decide))
      by_cases single : value < 10
      · have alone := leadingValue_concat [] (Nat.digitChar (value % 10))
        rw [last, Nat.mod_eq_of_lt single] at alone
        rw [Nat.toDigits_of_lt_base single]
        simpa [leadingValue, fits] using alone
      · have before := ih (value / 10) (by omega) (by omega)
        have whole : value / 10 * 10 + value % 10 = value := Nat.div_add_mod' value 10
        rw [Nat.toDigits_of_base_le (by decide) (by omega), leadingValue_concat, before, last]
        simp only [whole, fits, and_self, if_true]

theorem eq_zero_of_head_toDigits {value : Nat} (head : (Nat.toDigits 10 value).head? = some '0') :
    value = 0 := by
  induction value using Nat.strongRecOn with
  | ind value ih =>
      by_cases single : value < 10
      · simpa [Nat.toDigits_of_lt_base single] using head
      · rw [Nat.toDigits_of_base_le (by decide) (by omega), List.head?_append] at head
        cases written : (Nat.toDigits 10 (value / 10)).head? with
        | none => exact absurd (List.head?_eq_none_iff.mp written) Nat.toDigits_ne_nil
        | some first =>
            rw [written] at head
            have := ih (value / 10) (by omega) (written.trans head)
            omega

theorem isDigit_toDigits {value : Nat} : ∀ digit ∈ Nat.toDigits 10 value, digit.isDigit = true :=
  fun _ member => Nat.isDigit_of_mem_toDigits (by decide) (by decide) member

theorem toDigits_eq_cons (value : Nat) : ∃ digit rest,
    Nat.toDigits 10 value = digit :: rest ∧ digit.isDigit = true := by
  cases written : Nat.toDigits 10 value with
  | nil => exact absurd written Nat.toDigits_ne_nil
  | cons digit rest =>
      exact ⟨digit, rest, rfl, isDigit_toDigits digit (written ▸ List.mem_cons_self)⟩

theorem power?_toDigits {value : Nat} (fits : value < 0x10000000000000000) :
    power? (Nat.toDigits 10 value) = some value := by
  rw [power?, if_pos ⟨Nat.toDigits_ne_nil, List.all_eq_true.mpr isDigit_toDigits⟩,
    leadingValue_toDigits fits]

theorem exponentOf?_text {exponent : Int} (fits : exponent.natAbs < 0x10000000000000000) :
    exponentOf? ((if exponent < 0 then ['-'] else []) ++ Nat.toDigits 10 exponent.natAbs) =
      some exponent := by
  have read := power?_toDigits fits
  by_cases negative : exponent < 0
  · have same : -(exponent.natAbs : Int) = exponent := by omega
    simp only [negative, if_true, List.cons_append, List.nil_append, exponentOf?, read]
    exact congrArg some same
  · obtain ⟨digit, rest, written, isDigit⟩ := toDigits_eq_cons exponent.natAbs
    have same : (exponent.natAbs : Int) = exponent := by omega
    rw [if_neg negative, List.nil_append]
    rw [written] at read ⊢
    unfold exponentOf?
    split
    · simp_all
    · simp_all
    · simp [read, same]

theorem wholeOf?_toDigits (negative : Bool) (value : Nat) (rest : List Char)
    (ends : ∀ character ∈ rest.head?, character.isDigit = false) :
    wholeOf? negative (Nat.toDigits 10 value ++ rest) =
      fractionOf? negative (Nat.toDigits 10 value) rest := by
  have taken : rest.takeWhile Char.isDigit = [] ∧ rest.dropWhile Char.isDigit = rest := by
    cases rest with
    | nil => simp
    | cons character _ => simp [ends character (by simp)]
  have canonical : ¬ (Nat.toDigits 10 value = [] ∨
      ((Nat.toDigits 10 value).head? = some '0' ∧ Nat.toDigits 10 value ≠ ['0'])) := by
    rintro (empty | ⟨zero, more⟩)
    · exact Nat.toDigits_ne_nil empty
    · rw [eq_zero_of_head_toDigits zero] at more
      exact more (Nat.toDigits_zero 10)
  unfold wholeOf?
  rw [List.takeWhile_append_of_pos isDigit_toDigits, List.dropWhile_append_of_pos isDigit_toDigits,
    taken.1, taken.2, List.append_nil]
  exact if_neg canonical

theorem text_eq {number : Number} (fits : number.Fits) : ∃ digit rest,
    number.text = (if number.negative then ['-'] else []) ++ digit :: rest ∧
      digit.isDigit = true ∧ wholeOf? number.negative (digit :: rest) = some number := by
  obtain ⟨negative, significand, exponent⟩ := number
  obtain ⟨digit, more, written, isDigit⟩ := toDigits_eq_cons significand
  have digits : leadingValue (Nat.toDigits 10 significand) = (significand, 0) :=
    leadingValue_toDigits fits.significand
  cases exponent with
  | none =>
      have read := wholeOf?_toDigits negative significand [] (by simp)
      refine ⟨digit, more, by simp [text, written], isDigit, ?_⟩
      rw [← written]
      simpa [fractionOf?, digits] using read
  | some exponent =>
      have power := exponentOf?_text (fits.power exponent rfl)
      have read := wholeOf?_toDigits negative significand ('e' ::
        ((if exponent < 0 then ['-'] else []) ++ Nat.toDigits 10 exponent.natAbs)) (by simp)
      refine ⟨digit, more ++ _, by simp [text, written]; rfl, isDigit, ?_⟩
      rw [← List.cons_append, ← written, read]
      simp [fractionOf?, digits, power]

theorem ofCharacters?_text {number : Number} (fits : number.Fits) :
    ofCharacters? number.text = some number := by
  obtain ⟨digit, rest, written, isDigit, read⟩ := text_eq fits
  rw [written]
  cases negative : number.negative with
  | true => simpa [ofCharacters?, negative] using read
  | false =>
      simp only [Bool.false_eq_true, if_false, List.nil_append]
      unfold ofCharacters?
      split
      · simp_all
      · exact negative ▸ read

end Number

theorem hexDigit?_digitChar : ∀ digit < 16, hexDigit? (Nat.digitChar digit) = some digit := by
  decide

namespace Piece

theorem decode_unit {value : Nat} (low : value < 0x20) (rest : List Piece) :
    decode (.unit value :: rest) = (decode rest).map (Char.ofNat value :: ·) := by
  have plain : isHighSurrogate value = false ∧ isLowSurrogate value = false := by
    simp only [isHighSurrogate, isLowSurrogate, Bool.and_eq_false_iff, decide_eq_false_iff_not]
    omega
  cases rest with
  | nil => simp [decode, plain]
  | cons piece others => cases piece <;> simp [decode, plain]

theorem scan_escape (character : Char) (pieces : List Piece) (before : List Token) :
    ∃ piece, (escape character).foldlM Scanner.next? ⟨.string pieces, before⟩ =
        some ⟨.string (piece :: pieces), before⟩ ∧
      ∀ rest, decode (piece :: rest) = (decode rest).map (character :: ·) := by
  unfold escape
  split
  case h_8 noQuote noBackslash _ _ _ _ _ =>
    by_cases control : character.toNat < 0x20
    · refine ⟨.unit character.toNat, ?_, fun rest => ?_⟩
      · have high := hexDigit?_digitChar (character.toNat / 16) (by omega)
        have low := hexDigit?_digitChar (character.toNat % 16) (by omega)
        have value : character.toNat / 16 * 16 + character.toNat % 16 = character.toNat :=
          Nat.div_add_mod' _ _
        have zero : hexDigit? '0' = some 0 := by decide
        simp [control, Scanner.next?, zero, high, low, value]
      · rw [decode_unit control, Char.ofNat_toNat]
    · have quote : character ≠ '"' := noQuote
      have backslash : character ≠ '\\' := noBackslash
      refine ⟨.character character, ?_, fun _ => rfl⟩
      simp [control, Scanner.next?, quote, backslash]
  all_goals exact ⟨.character _, rfl, fun _ => rfl⟩

theorem scan_escapes (characters : List Char) (pieces : List Piece) (before : List Token) :
    ∃ read, (characters.flatMap escape).foldlM Scanner.next? ⟨.string pieces, before⟩ =
        some ⟨.string (read.reverse ++ pieces), before⟩ ∧ decode read = some characters := by
  induction characters generalizing pieces with
  | nil => exact ⟨[], rfl, rfl⟩
  | cons character rest ih =>
      obtain ⟨piece, first, stands⟩ := scan_escape character pieces before
      obtain ⟨read, second, decoded⟩ := ih (piece :: pieces)
      refine ⟨piece :: read, ?_, by simp [stands, decoded]⟩
      rw [List.flatMap_cons, List.foldlM_append, first]
      simpa using second

end Piece

namespace Scanner

def Separates (character : Char) : Prop :=
  character.isLower = false ∧ isNumeric character = false

theorem separates_of_mark {character : Char} {token : Token} (mark : mark? character = some token) :
    Separates character := by
  unfold mark? at mark
  split at mark
  case h_7 => simp at mark
  all_goals exact ⟨by decide, by decide⟩

theorem separates_of_blank {character : Char} (blank : isBlank character = true) :
    Separates character ∧ mark? character = none := by
  simp only [isBlank, Bool.or_eq_true, decide_eq_true_eq] at blank
  rcases blank with ((rfl | rfl) | rfl) | rfl <;> exact ⟨⟨by decide, by decide⟩, by decide⟩

theorem next?_of_complete {scanner : Scanner} {tokens : List Token} {character : Char}
    (complete : scanner.complete? = some tokens) (separates : Separates character) :
    scanner.next? character = begin? tokens character := by
  obtain ⟨mode, before⟩ := scanner
  cases mode with
  | between => simp_all [complete?, next?]
  | word letters => simp [next?, separates.1, complete]
  | number characters => simp [next?, separates.2, complete]
  | _ => simp [complete?] at complete

theorem begin?_number {character : Char} (before : List Token)
    (opens : (character = '-' || character.isDigit) = true) :
    begin? before character = some ⟨.number [character], before⟩ := by
  have numeric : isNumeric character = true := by
    rcases (Bool.or_eq_true _ _).mp opens with minus | digit
    · simp [isNumeric, minus]
    · simp [isNumeric, digit]
  have noMark : mark? character = none := by
    cases mark : mark? character with
    | none => rfl
    | some token => simp [(separates_of_mark mark).2] at numeric
  have noBlank : isBlank character = false := by
    cases blank : isBlank character with
    | false => rfl
    | true => simp [(separates_of_blank blank).1.2] at numeric
  have noQuote : character ≠ '"' := by
    rintro rfl
    exact absurd numeric (by decide)
  simp [begin?, noMark, noBlank, noQuote, opens]

theorem isNumeric_text (number : Number) :
    ∀ character ∈ number.text, isNumeric character = true := by
  have digits : ∀ value, ∀ digit ∈ Nat.toDigits 10 value, isNumeric digit = true :=
    fun value digit member => by simp [isNumeric, Number.isDigit_toDigits digit member]
  have sign : ∀ negative : Prop, [Decidable negative] →
      ∀ character ∈ (if negative then ['-'] else []), isNumeric character = true := by
    intro negative _ character member
    split at member <;> simp at member
    subst member
    decide
  intro character member
  simp only [Number.text, List.mem_append] at member
  rcases member with (minus | whole) | power
  · exact sign _ character minus
  · exact digits _ character whole
  · split at power
    · simp at power
    · simp only [List.cons_append, List.mem_cons, List.mem_append] at power
      rcases power with rfl | minus | value
      · decide
      · exact sign _ character minus
      · exact digits _ character value

theorem scan_numeric (characters rest : List Char) (before : List Token)
    (numeric : ∀ character ∈ characters, isNumeric character = true) :
    characters.foldlM next? ⟨.number rest, before⟩ =
      some ⟨.number (characters.reverse ++ rest), before⟩ := by
  induction characters generalizing rest with
  | nil => rfl
  | cons character others ih =>
      have first : next? ⟨.number rest, before⟩ character =
          some ⟨.number (character :: rest), before⟩ := by
        simp [next?, numeric character (by simp)]
      rw [List.foldlM_cons, first]
      simpa using ih (character :: rest) fun other member => numeric other (by simp [member])

end Scanner

def Spells (characters : List Char) (tokens : List Token) : Prop :=
  ∀ before, (characters.foldlM Scanner.next? ⟨.between, before⟩).bind Scanner.complete? =
    some (tokens.reverse ++ before)

namespace Spells

variable {left right : List Char} {first second : List Token}

theorem scan_eq (spells : Spells left first) : scan left = some first := by
  have read := spells []
  simp only [scan, Scanner.start]
  cases reached : left.foldlM Scanner.next? ⟨.between, []⟩ with
  | none => simp [reached] at read
  | some scanner =>
      rw [reached, Option.bind_some, List.append_nil] at read
      simp [read]

theorem nil : Spells [] [] := fun _ => rfl

/-- Spelled texts may follow each other where the character between them goes on no word and no number. -/
theorem join {character : Char} (spells : Spells left first) (between : List Token)
    (separates : Scanner.Separates character)
    (begins : ∀ before, Scanner.begin? before character = some ⟨.between, between ++ before⟩)
    (behind : Spells right second) :
    Spells (left ++ character :: right) (first ++ (between.reverse ++ second)) := by
  intro before
  have read := spells before
  cases reached : left.foldlM Scanner.next? ⟨.between, before⟩ with
  | none => simp [reached] at read
  | some scanner =>
      rw [reached, Option.bind_some] at read
      have goesOn := (Scanner.next?_of_complete read separates).trans (begins _)
      simp only [List.foldlM_append, reached, List.foldlM_cons, Option.bind_eq_bind,
        Option.bind_some, goesOn]
      rw [behind]
      simp

theorem mark {token : Token} (spells : Spells left first) (character : Char)
    (mark : Scanner.mark? character = some token) (behind : Spells right second) :
    Spells (left ++ character :: right) (first ++ token :: second) :=
  spells.join [token] (Scanner.separates_of_mark mark)
    (fun _ => by simp [Scanner.begin?, mark]) behind

theorem blank (spells : Spells left first) (character : Char)
    (blank : Scanner.isBlank character = true) (behind : Spells right second) :
    Spells (left ++ character :: right) (first ++ second) :=
  spells.join [] (Scanner.separates_of_blank blank).1
    (fun _ => by simp [Scanner.begin?, (Scanner.separates_of_blank blank).2, blank]) behind

theorem null : Spells Token.null.text [.null] := fun _ => rfl

theorem bool (value : Bool) : Spells (Token.bool value).text [.bool value] := by
  intro before
  cases value <;> rfl

theorem string (text : String) : Spells (Token.string (some text)).text [.string (some text)] := by
  intro before
  obtain ⟨read, scanned, decoded⟩ := Piece.scan_escapes text.toList [] before
  have opened : Scanner.next? ⟨.between, before⟩ '"' = some ⟨.string [], before⟩ := rfl
  rw [List.append_nil] at scanned
  simp only [Token.text, Option.getD_some, List.foldlM_cons, opened, Option.bind_eq_bind,
    Option.bind_some, List.foldlM_append, scanned]
  simp [Scanner.next?, Scanner.complete?, decoded]

theorem number {value : Number} (fits : value.Fits) :
    Spells (Token.number value).text [.number value] := by
  intro before
  obtain ⟨digit, rest, written, isDigit, _⟩ := Number.text_eq fits
  obtain ⟨first, others, split, opens⟩ : ∃ first others, value.text = first :: others ∧
      (first = '-' || first.isDigit) = true := by
    cases negative : value.negative <;> simp [written, negative, isDigit]
  have opened : Scanner.next? ⟨.between, before⟩ first = some ⟨.number [first], before⟩ :=
    Scanner.begin?_number before opens
  have numeric := Scanner.isNumeric_text value
  rw [split] at numeric
  have read := Scanner.scan_numeric others [first] before fun character member =>
    numeric character (List.mem_cons_of_mem _ member)
  simp only [Token.text, split, List.foldlM_cons, opened, Option.bind_eq_bind, Option.bind_some,
    read, Scanner.complete?]
  simp [← split, Number.ofCharacters?_text fits]

end Spells

end BranchSteer.Json
