import Pmgd.Lib.Decimal
import Pmgd.Lib.LongestMatch

/-!
# The scanner of the text format

The rules of `scanner.l`.  Numbers, times and names consist of the same characters, so that what
follows decides how far a token goes; a text in quotes goes up to the next quote without a
backslash in front.
-/

namespace Pmgd

open LongestMatch Pattern Decimal

/-- The tokens of a text in the text format, and the exception of `std::string` that the scanner
ends with if a text in quotes starts with a NUL. -/
inductive Token
  | error
  | lengthError
  | true
  | false
  | integer (value : Int)
  | string (text : List Char)
  | quotedString (text : List Char)
  | symbol (c : Char)
  deriving DecidableEq

namespace Scanner

def quote : Char :=
  Char.ofNat 34

def backslash : Char :=
  Char.ofNat 92

def newline : Char :=
  Char.ofNat 10

/-! ## Patterns -/

def isHexDigit (c : Char) : Bool :=
  c.isDigit || ('a' ≤ c && c ≤ 'f') || ('A' ≤ c && c ≤ 'F')

def isOctDigit (c : Char) : Bool :=
  '0' ≤ c && c ≤ '7'

/-- `HEX_NUMBER`. -/
def hexNumber : Pattern Char :=
  both (literal ['0', 'x']) (plus (one isHexDigit))

/-- `OCT_NUMBER`. -/
def octNumber : Pattern Char :=
  both (literal ['0']) (star (one isOctDigit))

/-- `DEC_NUMBER`. -/
def decNumber : Pattern Char :=
  both (one fun c => '1' ≤ c && c ≤ '9') (star (one Char.isDigit))

/-- `NUMBER`. -/
def number : Pattern Char :=
  both (optional (literal ['-'])) (either hexNumber (either octNumber decNumber))

/-- A character in quotes that has no backslash in front. -/
def isPlain (c : Char) : Bool :=
  c ≠ quote && c ≠ newline && c ≠ backslash

def isEscapable (c : Char) : Bool :=
  c = quote || c = backslash

/-- What may stand between quotes. -/
def quotedText : Pattern Char :=
  star (either (one isPlain) (both (literal [backslash]) (one isEscapable)))

def quotedString : Pattern Char :=
  both (literal [quote]) (both quotedText (literal [quote]))

def isSymbol (c : Char) : Bool :=
  c ∈ ['{', '}', '=', ',', ':', ';', '#']

def isNameChar (c : Char) : Bool :=
  c.isAlphanum || c ∈ ['-', '.', '~', '!', '@', '$', '%', '_', '?', ':', '+']

/-! ## Actions -/

/-- The characters up to the first NUL. -/
def cStr (text : List Char) : List Char :=
  text.takeWhile fun c => c.toNat ≠ 0

def digitValue (c : Char) : Nat :=
  if c.isDigit then c.toNat - '0'.toNat
  else if 'a' ≤ c then c.toNat - 'a'.toNat + 10
  else c.toNat - 'A'.toNat + 10

def valueIn (base : Nat) (digits : List Char) : Nat :=
  digits.foldl (fun value c => base * value + digitValue c) 0

/-- The base and the digits of a number without its sign. -/
def magnitude : List Char → Nat
  | '0' :: 'x' :: digits => valueIn 16 digits
  | '0' :: digits => valueIn 8 digits
  | digits => valueIn 10 digits

/-- `strtoll` with the base 0, for what `NUMBER` matches; it stops at the bounds of its type. -/
def strtoll : List Char → Int
  | '-' :: digits => max (-magnitude digits) (-2 ^ 63)
  | digits => min (magnitude digits) (2 ^ 63 - 1)

/-- `cvt_int`. -/
def cvtInt (yytext : List Char) : Option Token :=
  some (.integer (strtoll yytext))

/-- `cvt_string`, with the length that `strlen` gives. -/
def cvtString (quoted : Bool) (yytext : List Char) : Option Token :=
  if quoted then
    if (cStr yytext).length < 2 then some .lengthError
    else some (.quotedString (cStr yytext).tail.dropLast)
  else some (.string (cStr yytext))

def rules : List (Rule Char Token) :=
  [⟨one fun c => c ∈ [' ', Char.ofNat 9, newline], fun _ => none⟩,
    ⟨literal "true".toList, fun _ => some .true⟩,
    ⟨literal "false".toList, fun _ => some .false⟩,
    ⟨number, cvtInt⟩,
    ⟨quotedString, cvtString Bool.true⟩,
    ⟨one isSymbol, fun yytext => yytext.head?.map .symbol⟩,
    ⟨plus (one isNameChar), cvtString Bool.false⟩,
    ⟨one (· ≠ newline), fun _ => some .error⟩]

/-- `yylex`, for all of a text. -/
def yylex (text : List Char) : List Token :=
  scan rules text

example : yylex "age = -0x1F;".toList =
    [.string "age".toList, .symbol '=', .integer (-31), .symbol ';'] := by
  decide +kernel

/-! ## Tokens in front of others -/

variable {word text name rest more : List Char} {c : Char}

def isNumberChar (c : Char) : Bool :=
  c = '-' || c = 'x' || isHexDigit c

theorem cStr_eq (noNul : ∀ c ∈ text, c.toNat ≠ 0) : cStr text = text :=
  List.takeWhile_eq_self_iff.mpr fun c member => decide_eq_true (noNul c member)

theorem toNat_ne_zero_of_isNameChar (ofName : isNameChar c = true) : c.toNat ≠ 0 := by
  intro isZero
  have isNul : c = Char.ofNat 0 := by rw [← isZero, Char.ofNat_toNat]
  rw [isNul] at ofName
  cases ofName

theorem isNameChar_of_isNumberChar (ofNumber : isNumberChar c = true) : isNameChar c = true := by
  have ofAlphanum (alphanum : c.isAlphanum = true) : isNameChar c = true :=
    (Bool.or_eq_true _ _).mpr (.inl alphanum)
  have ofAlpha (alpha : c.isAlpha = true) : isNameChar c = true :=
    ofAlphanum ((Bool.or_eq_true _ _).mpr (.inl alpha))
  simp only [isNumberChar, isHexDigit, Bool.or_eq_true, Bool.and_eq_true, decide_eq_true_eq]
    at ofNumber
  rcases ofNumber with (rfl | rfl) | (digit | lower) | upper
  · rfl
  · rfl
  · exact ofAlphanum ((Bool.or_eq_true _ _).mpr (.inr digit))
  · have isLower : c.isLower = true := (Bool.and_eq_true _ _).mpr
      ⟨decide_eq_true lower.1, decide_eq_true (Char.le_trans lower.2 (by decide))⟩
    exact ofAlpha ((Bool.or_eq_true _ _).mpr (.inr isLower))
  · have isUpper : c.isUpper = true :=
      decide_eq_true ⟨upper.1, Char.le_trans upper.2 (by decide)⟩
    exact ofAlpha ((Bool.or_eq_true _ _).mpr (.inl isUpper))

theorem onlyOf_number : number.OnlyOf isNumberChar := by
  have isDigit {c : Char} (digit : c.isDigit = true) : isNumberChar c = true := by
    rw [isNumberChar, isHexDigit, digit, Bool.true_or, Bool.true_or, Bool.or_true]
  have between {first last c : Char} (notBefore : '0' ≤ first) (notAfter : last ≤ '9')
      (inside : first ≤ c ∧ c ≤ last) : isNumberChar c = true := by
    exact isDigit ((Bool.and_eq_true _ _).mpr ⟨decide_eq_true (Char.le_trans notBefore inside.1),
      decide_eq_true (Char.le_trans inside.2 notAfter)⟩)
  have isChar {first c : Char} (ofNumber : isNumberChar first = true)
      (equal : decide (c = first) = true) : isNumberChar c = true := by
    rwa [of_decide_eq_true equal]
  have isHex {c : Char} (hex : isHexDigit c = true) : isNumberChar c = true := by
    rw [isNumberChar, hex, Bool.or_true]
  refine ⟨⟨⟨fun c => isChar rfl, trivial⟩, trivial⟩,
    ⟨⟨fun c => isChar rfl, fun c => isChar rfl, trivial⟩, fun c => isHex, fun c => isHex⟩,
    ⟨⟨fun c => isChar rfl, trivial⟩, ?_⟩, ?_, fun c => isDigit⟩
  · intro c octal
    rw [isOctDigit, Bool.and_eq_true, decide_eq_true_eq, decide_eq_true_eq] at octal
    exact between (by decide) (by decide) octal
  · intro c decimal
    rw [Bool.and_eq_true, decide_eq_true_eq, decide_eq_true_eq] at decimal
    exact between (by decide) (by decide) decimal

theorem isNameChar_of_mem_number (member : word ∈ number.language) :
    ∀ c ∈ word, isNameChar c = true :=
  fun c inWord => isNameChar_of_isNumberChar (onlyOf_number.forall_mem member c inWord)

theorem mem_quotedString : word ∈ quotedString.language ↔
    ∃ text ∈ quotedText.language, word = quote :: (text ++ [quote]) := by
  rw [quotedString, mem_both]
  constructor
  · rintro ⟨u, ofQuote, v, behind, rfl⟩
    obtain ⟨text, ofText, last, ofLast, rfl⟩ := mem_both.mp behind
    rw [mem_literal.mp ofQuote, mem_literal.mp ofLast]
    exact ⟨text, ofText, rfl⟩
  · rintro ⟨text, ofText, rfl⟩
    exact ⟨[quote], mem_literal.mpr rfl, text ++ [quote],
      mem_both.mpr ⟨text, ofText, [quote], mem_literal.mpr rfl, rfl⟩, rfl⟩

/-- What the words of a rule are. -/
theorem mem_rules {rule : Rule Char Token} (isRule : rule ∈ rules)
    (member : word ∈ rule.pattern.language) :
    word.length = 1 ∨ (∀ c ∈ word, isNameChar c = true) ∨ word ∈ quotedString.language := by
  have single {kind : Char → Bool} (ofOne : word ∈ (one kind).language) : word.length = 1 := by
    obtain ⟨_, _, rfl⟩ := ofOne
    rfl
  have isLiteral {text : List Char} (ofLiteral : word ∈ (literal text).language)
      (nameText : ∀ c ∈ text, isNameChar c = true) : ∀ c ∈ word, isNameChar c = true := by
    rwa [mem_literal.mp ofLiteral]
  simp only [rules, List.mem_cons, List.not_mem_nil, or_false] at isRule
  rcases isRule with rfl | rfl | rfl | rfl | rfl | rfl | rfl | rfl
  · exact .inl (single member)
  · exact .inr (.inl (isLiteral member (List.all_eq_true.mp rfl)))
  · exact .inr (.inl (isLiteral member (List.all_eq_true.mp rfl)))
  · exact .inr (.inl (isNameChar_of_mem_number member))
  · exact .inr (.inr member)
  · exact .inl (single member)
  · exact .inr (.inl (mem_plus_one.mp member).2)
  · exact .inl (single member)

/-- A text in quotes is followed by the first quote that has no backslash in front. -/
theorem quotedText_unique {other behind : List Char} (ofText : text ∈ quotedText.language)
    (ofOther : other ∈ quotedText.language)
    (equal : text ++ quote :: rest = other ++ quote :: behind) : text = other := by
  obtain ⟨parts, rfl, ofParts⟩ := ofText
  obtain ⟨others, rfl, ofOthers⟩ := ofOther
  have plain {c : Char} (isPlainChar : isPlain c = true) : c ≠ quote ∧ c ≠ backslash := by
    simp only [isPlain, Bool.and_eq_true, decide_eq_true_eq] at isPlainChar
    exact ⟨isPlainChar.1.1, isPlainChar.2⟩
  have shape {part : List Char}
      (ofPart : part ∈
        (either (one isPlain) (both (literal [backslash]) (one isEscapable))).language) :
      (∃ c, isPlain c = true ∧ part = [c]) ∨ ∃ c, part = [backslash, c] := by
    rcases mem_either.mp ofPart with ofPlain | escaped
    · exact .inl ofPlain
    · obtain ⟨u, ofBackslash, v, ⟨c, _, rfl⟩, rfl⟩ := mem_both.mp escaped
      rw [mem_literal.mp ofBackslash]
      exact .inr ⟨c, rfl⟩
  have notQuote : backslash ≠ quote := by decide
  -- Both texts are cut into parts, and a part is known by its first character.
  induction parts generalizing others with
  | nil =>
      cases others with
      | nil => rfl
      | cons part others =>
          rcases shape (ofOthers part List.mem_cons_self) with ⟨c, isPlainChar, rfl⟩ | ⟨c, rfl⟩
          · exact absurd (List.cons.inj equal).1.symm (plain isPlainChar).1
          · exact absurd (List.cons.inj equal).1.symm notQuote
  | cons part parts induction =>
      rw [List.forall_mem_cons] at ofParts
      cases others with
      | nil =>
          rcases shape ofParts.1 with ⟨c, isPlainChar, rfl⟩ | ⟨c, rfl⟩
          · exact absurd (List.cons.inj equal).1 (plain isPlainChar).1
          · exact absurd (List.cons.inj equal).1 notQuote
      | cons other others =>
          rw [List.forall_mem_cons] at ofOthers
          rcases shape ofParts.1 with ⟨c, isPlainChar, rfl⟩ | ⟨c, rfl⟩ <;>
            rcases shape ofOthers.1 with ⟨d, isPlainOther, rfl⟩ | ⟨d, rfl⟩
          · obtain ⟨rfl, behindFirst⟩ := List.cons.inj equal
            rw [List.flatten_cons, List.flatten_cons,
              induction ofParts.2 others ofOthers.2 behindFirst]
          · exact absurd (List.cons.inj equal).1 (plain isPlainChar).2
          · exact absurd (List.cons.inj equal).1.symm (plain isPlainOther).2
          · obtain ⟨_, behindFirst⟩ := List.cons.inj equal
            obtain ⟨rfl, behindBoth⟩ := List.cons.inj behindFirst
            rw [List.flatten_cons, List.flatten_cons,
              induction ofParts.2 others ofOthers.2 behindBoth]

theorem quote_mem_of_mem_quotedString (member : word ∈ quotedString.language) : quote ∈ word := by
  obtain ⟨text, _, rfl⟩ := mem_quotedString.mp member
  exact List.mem_cons_self

/-- No rule goes on behind a word of names' characters at another character. -/
theorem noLonger_name (notEmpty : word ≠ []) (isWord : ∀ c ∈ word, isNameChar c = true)
    (stops : ∀ c ∈ rest.head?, isNameChar c = false) : NoLonger rules word rest := by
  intro rule isRule more someMore isStart member
  obtain ⟨behind, rfl⟩ := isStart
  cases more with
  | nil => exact someMore rfl
  | cons c more =>
      cases word with
      | nil => exact notEmpty rfl
      | cons first word =>
          rcases mem_rules isRule member with isSingle | isName | isQuoted
          · rw [List.length_append, List.length_cons, List.length_cons] at isSingle
            omega
          · have isNameChar_c := isName c (List.mem_append_right _ List.mem_cons_self)
            rw [stops c rfl] at isNameChar_c
            cases isNameChar_c
          · obtain ⟨text, _, isText⟩ := mem_quotedString.mp isQuoted
            have ofFirst := isWord first List.mem_cons_self
            rw [(List.cons.inj isText).1] at ofFirst
            cases ofFirst

/-- No rule goes on behind a character that neither names nor texts in quotes start with. -/
theorem noLonger_single (notName : isNameChar c = false) (notQuote : c ≠ quote) :
    NoLonger rules [c] rest := by
  intro rule isRule more someMore isStart member
  rcases mem_rules isRule member with isSingle | isName | isQuoted
  · rw [List.length_append, List.length_singleton] at isSingle
    have isNil : more.length = 0 := by omega
    exact someMore (List.length_eq_zero_iff.mp isNil)
  · have ofFirst := isName c List.mem_cons_self
    rw [notName] at ofFirst
    cases ofFirst
  · obtain ⟨text, _, isText⟩ := mem_quotedString.mp isQuoted
    exact notQuote (List.cons.inj isText).1

theorem noLonger_quoted (member : word ∈ quotedString.language) : NoLonger rules word rest := by
  intro rule isRule more someMore isStart longer
  obtain ⟨text, ofText, rfl⟩ := mem_quotedString.mp member
  rcases mem_rules isRule longer with isSingle | isName | isQuoted
  · rw [List.length_append, List.length_cons, List.length_append, List.length_singleton] at isSingle
    omega
  · have ofQuote := isName quote List.mem_cons_self
    cases ofQuote
  · obtain ⟨other, ofOther, isOther⟩ := mem_quotedString.mp isQuoted
    rw [List.cons_append] at isOther
    obtain ⟨_, behind⟩ := List.cons.inj isOther
    rw [List.append_assoc, List.singleton_append] at behind
    obtain rfl := quotedText_unique ofText ofOther behind
    have isNil := (List.cons.inj (List.append_cancel_left behind)).2
    exact someMore isNil

/-- A name that the scanner gives back as one token. -/
structure IsName (name : List Char) : Prop where
  notEmpty : name ≠ []
  chars : ∀ c ∈ name, isNameChar c = true
  notTrue : name ≠ "true".toList
  notFalse : name ≠ "false".toList
  notColon : name ≠ [':']
  notNumber : name ∉ number.language

theorem cStr_of_isName (isName : IsName name) : cStr name = name :=
  cStr_eq fun c member => toNat_ne_zero_of_isNameChar (isName.chars c member)

theorem yylex_name (isName : IsName name) (stops : ∀ c ∈ rest.head?, isNameChar c = false) :
    yylex (name ++ rest) = .string name :: yylex rest := by
  have split : rules =
      rules.take 6 ++ ⟨plus (one isNameChar), cvtString Bool.false⟩ :: rules.drop 7 := rfl
  have noLonger := noLonger_name isName.notEmpty isName.chars stops
  rw [split] at noLonger
  have first : ∀ other ∈ rules.take 6, name ∉ other.pattern.language := by
    simp only [rules, List.take_succ_cons, List.take_zero, List.forall_mem_cons]
    refine ⟨?_, fun isTrue => isName.notTrue (mem_literal.mp isTrue),
      fun isFalse => isName.notFalse (mem_literal.mp isFalse), isName.notNumber, ?_, ?_,
      List.forall_mem_nil _⟩
    · rintro ⟨c, isBlank, rfl⟩
      have ofName := isName.chars c List.mem_cons_self
      simp only [List.mem_cons, List.not_mem_nil, or_false, decide_eq_true_eq] at isBlank
      rcases isBlank with rfl | rfl | rfl <;> cases ofName
    · intro isQuoted
      have ofQuote := isName.chars quote (quote_mem_of_mem_quotedString isQuoted)
      cases ofQuote
    · rintro ⟨c, ofSymbol, rfl⟩
      have ofName := isName.chars c List.mem_cons_self
      simp only [isSymbol, List.mem_cons, List.not_mem_nil, or_false, decide_eq_true_eq] at ofSymbol
      rcases ofSymbol with rfl | rfl | rfl | rfl | rfl | rfl | rfl
      all_goals first | exact isName.notColon rfl | cases ofName
  have found := scan_append isName.notEmpty (mem_plus_one.mpr ⟨isName.notEmpty, isName.chars⟩) first
    noLonger
  have isText : cvtString Bool.false name = some (.string name) :=
    congrArg (fun text => some (Token.string text)) (cStr_of_isName isName)
  dsimp only at found
  rw [isText] at found
  rw [yylex, yylex, split]
  exact found

theorem valueIn_ten (digits : ∀ c ∈ word, c.isDigit = true) :
    valueIn 10 word = Decimal.number word := by
  have atDigits (start : Nat) : word.foldl (fun value c => 10 * value + digitValue c) start =
      Nat.ofDigitChars 10 word start := by
    induction word generalizing start with
    | nil => rfl
    | cons c word induction =>
        rw [List.forall_mem_cons] at digits
        have isValue : digitValue c = c.toNat - '0'.toNat := if_pos digits.1
        rw [List.foldl_cons, isValue, induction digits.2]
        rfl
  exact atDigits 0

theorem magnitude_decimal (value : Nat) : magnitude (decimal value) = value := by
  by_cases isZero : value = 0
  · rw [isZero]
    rfl
  · obtain ⟨first, rest, isDecimal, notZero⟩ := exists_decimal_eq_cons (Nat.pos_of_ne_zero isZero)
    have isTen : magnitude (first :: rest) = valueIn 10 (first :: rest) := by
      rw [magnitude]
      · rintro digits equal
        exact notZero (List.cons.inj equal).1
      · rintro digits equal
        exact notZero (List.cons.inj equal).1
    rw [isDecimal, isTen, ← isDecimal, valueIn_ten isDigit_decimal, number_decimal]

theorem strtoll_signedDecimal {value : Int} (notBefore : -2 ^ 63 ≤ value)
    (notAfter : value < 2 ^ 63) :
    strtoll (signedDecimal value) = value := by
  rw [signedDecimal]
  split_ifs with isNegative
  · rw [strtoll, magnitude_decimal]
    omega
  · have noSign : strtoll (decimal value.natAbs) =
        min (magnitude (decimal value.natAbs) : Int) (2 ^ 63 - 1) := by
      rw [strtoll]
      intro digits isSigned
      have ofSign := @isDigit_decimal value.natAbs '-' (by rw [isSigned]; exact List.mem_cons_self)
      cases ofSign
    rw [noSign, magnitude_decimal]
    omega

theorem decimal_mem_number (value : Nat) :
    decimal value ∈ (either hexNumber (either octNumber decNumber)).language := by
  refine mem_either.mpr (.inr (mem_either.mpr ?_))
  by_cases isZero : value = 0
  · rw [isZero]
    exact .inl (mem_both.mpr
      ⟨['0'], mem_literal.mpr rfl, [], mem_star_one.mpr (List.forall_mem_nil _), rfl⟩)
  · obtain ⟨first, rest, isDecimal, notZero⟩ := exists_decimal_eq_cons (Nat.pos_of_ne_zero isZero)
    have digits := @isDigit_decimal value
    rw [isDecimal, List.forall_mem_cons] at digits
    rw [isDecimal]
    refine .inr (mem_both.mpr ⟨[first], ⟨first, ?_, rfl⟩, rest, mem_star_one.mpr digits.2, rfl⟩)
    have bounds := Char.isDigit_iff_toNat.mp digits.1
    have notChar : first.toNat ≠ '0'.toNat := fun equal => notZero (Char.toNat_inj.mp equal)
    have atLeast : '1' ≤ first := by
      rw [Char.le_def, UInt32.le_iff_toNat_le]
      show '1'.toNat ≤ first.toNat
      have isOne : '1'.toNat = '0'.toNat + 1 := rfl
      omega
    have atMost : first ≤ '9' := by
      rw [Char.le_def, UInt32.le_iff_toNat_le]
      exact bounds.2
    exact (Bool.and_eq_true _ _).mpr ⟨decide_eq_true atLeast, decide_eq_true atMost⟩

theorem signedDecimal_mem_number (value : Int) : signedDecimal value ∈ number.language := by
  rw [signedDecimal, number, mem_both]
  split_ifs
  · exact ⟨['-'], mem_either.mpr (.inl (mem_literal.mpr rfl)), _, decimal_mem_number _, rfl⟩
  · exact ⟨[], mem_either.mpr (.inr Language.nil_mem_one), _, decimal_mem_number _, rfl⟩

theorem signedDecimal_ne_nil (value : Int) : signedDecimal value ≠ [] := by
  rw [signedDecimal]
  split_ifs
  · exact List.cons_ne_nil _ _
  · exact decimal_ne_nil

theorem yylex_integer {value : Int} (notBefore : -2 ^ 63 ≤ value) (notAfter : value < 2 ^ 63)
    (stops : ∀ c ∈ rest.head?, isNameChar c = false) :
    yylex (signedDecimal value ++ rest) = .integer value :: yylex rest := by
  have member := signedDecimal_mem_number value
  have ofNumber := onlyOf_number.forall_mem member
  have first : ∀ other ∈ rules.take 3, signedDecimal value ∉ other.pattern.language := by
    simp only [rules, List.take_succ_cons, List.take_zero, List.forall_mem_cons]
    refine ⟨?_, ?_, ?_, List.forall_mem_nil _⟩
    · rintro ⟨c, isBlank, equal⟩
      have isNumber := ofNumber c (by rw [equal]; exact List.mem_cons_self)
      simp only [List.mem_cons, List.not_mem_nil, or_false, decide_eq_true_eq] at isBlank
      rcases isBlank with rfl | rfl | rfl <;> cases isNumber
    · intro isTrue
      have isNumber := ofNumber 't' (by rw [mem_literal.mp isTrue]; decide)
      cases isNumber
    · intro isFalse
      have isNumber := ofNumber 'l' (by rw [mem_literal.mp isFalse]; decide)
      cases isNumber
  have found := @scan_append _ _ (rules.take 3) (rules.drop 4) ⟨number, cvtInt⟩ _ rest
    (signedDecimal_ne_nil value) member first
    (noLonger_name (signedDecimal_ne_nil value) (isNameChar_of_mem_number member) stops)
  refine found.trans ?_
  have isValue : cvtInt (signedDecimal value) = some (.integer value) :=
    congrArg (fun value => some (Token.integer value)) (strtoll_signedDecimal notBefore notAfter)
  show (cvtInt (signedDecimal value)).toList ++ yylex rest = _
  rw [isValue]
  rfl

/-- The words `true` and `false`. -/
theorem yylex_boolean (value : Bool) (stops : ∀ c ∈ rest.head?, isNameChar c = false) :
    yylex ((if value then "true".toList else "false".toList) ++ rest) =
      (if value then .true else .false) :: yylex rest := by
  have notBlank {word : List Char} (isLong : 1 < word.length) :
      word ∉ (one fun c => c ∈ [' ', Char.ofNat 9, newline]).language := by
    rintro ⟨c, _, rfl⟩
    exact absurd isLong (Nat.lt_irrefl 1)
  cases value with
  | true =>
      exact @scan_append _ _ (rules.take 1) (rules.drop 2)
        ⟨literal "true".toList, fun _ => some .true⟩ "true".toList rest (by decide)
        (mem_literal.mpr rfl)
        (List.forall_mem_cons.mpr ⟨notBlank (by decide), List.forall_mem_nil _⟩)
        (noLonger_name (by decide) (List.all_eq_true.mp rfl) stops)
  | false =>
      refine @scan_append _ _ (rules.take 2) (rules.drop 3)
        ⟨literal "false".toList, fun _ => some .false⟩ "false".toList rest (by decide)
        (mem_literal.mpr rfl) ?_ (noLonger_name (by decide) (List.all_eq_true.mp rfl) stops)
      refine List.forall_mem_cons.mpr ⟨notBlank (by decide), List.forall_mem_cons.mpr
        ⟨?_, List.forall_mem_nil _⟩⟩
      intro isTrue
      cases mem_literal.mp isTrue

theorem yylex_blank (isBlank : c ∈ [' ', newline]) : yylex (c :: rest) = yylex rest := by
  have noLonger : NoLonger rules [c] rest := by
    simp only [List.mem_cons, List.not_mem_nil, or_false] at isBlank
    rcases isBlank with rfl | rfl <;> exact noLonger_single rfl (by decide)
  have member : [c] ∈ (one fun c => c ∈ [' ', Char.ofNat 9, newline]).language := by
    refine ⟨c, decide_eq_true ?_, rfl⟩
    simp only [List.mem_cons, List.not_mem_nil, or_false] at isBlank ⊢
    grind
  have found := @scan_append _ _ [] (rules.drop 1)
    ⟨one fun c => c ∈ [' ', Char.ofNat 9, newline], fun _ => none⟩ [c] rest
    (List.cons_ne_nil c []) member (List.forall_mem_nil _) noLonger
  exact found

theorem yylex_symbol (ofSymbol : isSymbol c = true)
    (stops : c = ':' → ∀ c ∈ rest.head?, isNameChar c = false) :
    yylex (c :: rest) = .symbol c :: yylex rest := by
  have noLonger : NoLonger rules [c] rest := by
    by_cases isColon : c = ':'
    · apply noLonger_name (List.cons_ne_nil c []) ?_ (stops isColon)
      rw [isColon]
      exact List.all_eq_true.mp rfl
    · simp only [isSymbol, List.mem_cons, List.not_mem_nil, or_false, decide_eq_true_eq] at ofSymbol
      rcases ofSymbol with rfl | rfl | rfl | rfl | rfl | rfl | rfl
      all_goals first | exact absurd rfl isColon | exact noLonger_single rfl (by decide)
  have first : ∀ other ∈ rules.take 5, [c] ∉ other.pattern.language := by
    simp only [rules, List.take_succ_cons, List.take_zero, List.forall_mem_cons]
    refine ⟨?_, ?_, ?_, ?_, ?_, List.forall_mem_nil _⟩
    · rintro ⟨d, isBlank, equal⟩
      obtain ⟨rfl, _⟩ := List.cons.inj equal
      simp only [List.mem_cons, List.not_mem_nil, or_false, decide_eq_true_eq] at isBlank
      rcases isBlank with rfl | rfl | rfl <;> cases ofSymbol
    · intro isTrue
      cases mem_literal.mp isTrue
    · intro isFalse
      cases mem_literal.mp isFalse
    · intro isNumber
      have ofNumber := onlyOf_number.forall_mem isNumber c List.mem_cons_self
      simp only [isSymbol, List.mem_cons, List.not_mem_nil, or_false, decide_eq_true_eq] at ofSymbol
      rcases ofSymbol with rfl | rfl | rfl | rfl | rfl | rfl | rfl <;> cases ofNumber
    · intro isQuoted
      rw [← List.mem_singleton.mp (quote_mem_of_mem_quotedString isQuoted)] at ofSymbol
      cases ofSymbol
  exact @scan_append _ _ (rules.take 5) (rules.drop 6)
    ⟨one isSymbol, fun yytext => yytext.head?.map .symbol⟩ [c] rest (List.cons_ne_nil c [])
    ⟨c, ofSymbol, rfl⟩ first noLonger

theorem cvtString_quoted (noNul : ∀ c ∈ text, c.toNat ≠ 0) :
    cvtString Bool.true (quote :: (text ++ [quote])) = some (.quotedString text) := by
  have whole : cStr (quote :: (text ++ [quote])) = quote :: (text ++ [quote]) := by
    apply cStr_eq
    rw [List.forall_mem_cons, List.forall_mem_append, List.forall_mem_singleton]
    exact ⟨by decide, noNul, by decide⟩
  have long : ¬ (quote :: (text ++ [quote])).length < 2 := by
    rw [List.length_cons, List.length_append, List.length_singleton]
    omega
  rw [cvtString, if_pos rfl, whole, if_neg long, List.tail_cons, List.dropLast_concat]

theorem yylex_quoted (ofText : text ∈ quotedText.language) (noNul : ∀ c ∈ text, c.toNat ≠ 0) :
    yylex (quote :: (text ++ quote :: rest)) = .quotedString text :: yylex rest := by
  have member : quote :: (text ++ [quote]) ∈ quotedString.language :=
    mem_quotedString.mpr ⟨text, ofText, rfl⟩
  have first : ∀ other ∈ rules.take 4, quote :: (text ++ [quote]) ∉ other.pattern.language := by
    simp only [rules, List.take_succ_cons, List.take_zero, List.forall_mem_cons]
    refine ⟨?_, ?_, ?_, ?_, List.forall_mem_nil _⟩
    · rintro ⟨d, isBlank, equal⟩
      obtain ⟨rfl, _⟩ := List.cons.inj equal
      cases isBlank
    · intro isTrue
      cases (List.cons.inj (mem_literal.mp isTrue)).1
    · intro isFalse
      cases (List.cons.inj (mem_literal.mp isFalse)).1
    · intro isNumber
      have ofNumber := onlyOf_number.forall_mem isNumber quote List.mem_cons_self
      cases ofNumber
  have found := @scan_append _ _ (rules.take 4) (rules.drop 5)
    ⟨quotedString, cvtString Bool.true⟩ _ rest (List.cons_ne_nil _ _) member first
    (noLonger_quoted member)
  rw [List.cons_append, List.append_assoc, List.singleton_append] at found
  dsimp only at found
  rw [cvtString_quoted noNul] at found
  exact found

end Scanner

end Pmgd
