import Formula.Proofs.Decimal.Longest
import Formula.Proofs.Token.Literals
import Mathlib.Data.List.TakeWhile

/-!
# The lexical grammar

Which token stands at the front of a text, said without the reader: a number or a name is as long as
it can be, a quoted text ends at the next quote, an operator has two characters if they spell one.

* `Lexeme.Munches cs x`: by these rules the text `cs`, which begins with no blank and no comment,
  begins with the lexeme `x`.
* `Lexeme.munches_scan`, `Lexeme.Munches.eq_scan`: the reader finds this lexeme, and there is no
  other one.
* `Lexer.Reads`: what a lexer reads by the rules behind trivia.
* `readToken_munches`: every token is fixed by the rules.
-/

namespace Formula

namespace Lexeme

/-! ## The rules -/

/-- A number begins with a digit, or with a point and a digit. -/
def BeginsNumber (cs : List Char) : Prop :=
  (∃ d rest, cs = d :: rest ∧ d.isDigit = true) ∨
    ∃ d rest, cs = '.' :: d :: rest ∧ d.isDigit = true

/-- A number is as long as it can be. -/
structure IsNumber (cs front : List Char) : Prop where
  begins : BeginsNumber cs
  longest : Longest (· ∈ numeralPattern.matches') cs front

/-- The characters that a name may begin with. -/
def IsLetter (c : Char) : Prop := ('A' ≤ c ∧ c ≤ 'Z') ∨ ('a' ≤ c ∧ c ≤ 'z') ∨ c = '_'

/-- A letter, and then letters and digits. -/
def IsName (w : List Char) : Prop :=
  ∃ c rest, w = c :: rest ∧ IsLetter c ∧ ∀ d ∈ rest, IsLetter d ∨ d.isDigit = true

/-- The quotation marks, each of which is closed by itself. -/
def IsQuote (c : Char) : Prop := c = '"' ∨ c = '\''

/-- A quoted text runs to the next quote of the kind that opens it. -/
def IsQuoted (cs front : List Char) : Prop :=
  ∃ quote body, IsQuote quote ∧ quote ∉ body ∧ front = quote :: (body ++ [quote]) ∧ front <+: cs

/-- The operators of two characters. -/
def longOperators : List String := ["**", "&&", "||", "<<", ">>", "<>", "<=", ">=", "==", "!="]

/-- The operators of one character. -/
def shortOperators : String := "+-*/%&|^<>=!~"

/-- The lexeme at the front of a text that begins with no blank and no comment. Numbers, names and
quoted texts of more than 1000 bytes are illegal, and so is all that none of the other rules is
about. -/
inductive Munches : List Char → Lexeme → Prop
  | integer {cs front : List Char} : IsNumber cs front → Text.utf8Length front ≤ 1000 →
      (∀ c ∈ front, c.isDigit = true) → (readDigits front : Int) ≤ Int64.maxValue.toInt →
      Munches cs (plain .integer front)
  | integerOutOfRange {cs front : List Char} : IsNumber cs front → Text.utf8Length front ≤ 1000 →
      (∀ c ∈ front, c.isDigit = true) → Int64.maxValue.toInt < readDigits front →
      Munches cs (illegal (.integerOutOfRange (String.ofList front)) front)
  | float {cs front : List Char} : IsNumber cs front → Text.utf8Length front ≤ 1000 →
      '.' ∈ front ∨ HasMark front → (HasMark front → HasExponentDigit front) →
      Munches cs (plain .float front)
  | emptyExponent {cs front : List Char} : IsNumber cs front → Text.utf8Length front ≤ 1000 →
      HasMark front → ¬ HasExponentDigit front →
      Munches cs (illegal (.emptyExponent (String.ofList front)) front)
  | name {cs front : List Char} : Longest IsName cs front → Text.utf8Length front ≤ 1000 →
      Munches cs (plain .identifier front)
  | quoted {cs front : List Char} : IsQuoted cs front → Text.utf8Length front ≤ 1000 →
      Munches cs (plain .string front)
  | tooLong {cs front : List Char} :
      IsNumber cs front ∨ Longest IsName cs front ∨ IsQuoted cs front →
      1000 < Text.utf8Length front →
      Munches cs (illegal (.tooLong (Text.utf8Length front)) front)
  | openQuote {quote : Char} {body : List Char} : IsQuote quote → quote ∉ body →
      Munches (quote :: body) (illegal .openString (quote :: body))
  | longOperator {c d : Char} {rest : List Char} : String.ofList [c, d] ∈ longOperators →
      Munches (c :: d :: rest) (plain .operator [c, d])
  | shortOperator {c : Char} {rest : List Char} : c ∈ shortOperators.toList →
      (∀ d ∈ rest.head?, String.ofList [c, d] ∉ longOperators) →
      Munches (c :: rest) (plain .operator [c])
  | bracket {c : Char} {kind : TokenKind} {rest : List Char} :
      (c, kind) ∈ [('(', .openParen), (')', .closeParen), (',', .separator)] →
      Munches (c :: rest) (plain kind [c])
  | unexpected {c : Char} {rest : List Char} : ¬ BeginsNumber (c :: rest) → ¬ IsLetter c →
      ¬ IsQuote c → c ∉ shortOperators.toList → c ∉ ['(', ')', ','] →
      Munches (c :: rest) (illegal (.unexpectedCharacter c) [c])

/-! ## Classes of characters -/

theorem startsNumber_iff {c : Char} {cs : List Char} :
    startsNumber c cs = true ↔ BeginsNumber (c :: cs) := by
  simp only [startsNumber, Bool.or_eq_true, Bool.and_eq_true, beq_iff_eq, BeginsNumber,
    List.cons.injEq]
  constructor
  · rintro (h | ⟨rfl, h⟩)
    · exact .inl ⟨c, cs, ⟨rfl, rfl⟩, h⟩
    · cases cs with
      | nil => simp at h
      | cons d cs => exact .inr ⟨d, cs, ⟨rfl, rfl⟩, by simpa using h⟩
  · rintro (⟨d, rest, ⟨rfl, rfl⟩, h⟩ | ⟨d, rest, ⟨rfl, rfl⟩, h⟩)
    · exact .inl h
    · exact .inr ⟨rfl, by simpa using h⟩

theorem isNameStart_iff {c : Char} : isNameStart c = true ↔ IsLetter c := by
  have h : isNameStart c = (decide ('A' ≤ c ∧ c ≤ 'Z') ||
      (decide ('a' ≤ c) && decide (c ≤ 'z')) || c == '_') := rfl
  rw [h]
  simp only [Bool.or_eq_true, Bool.and_eq_true, decide_eq_true_eq, beq_iff_eq, IsLetter, or_assoc]

theorem isNamePart_iff {c : Char} : isNamePart c = true ↔ IsLetter c ∨ c.isDigit = true := by
  rw [← isNameStart_iff]
  simp only [isNamePart, isNameStart, Char.isAlphanum, Bool.or_eq_true]
  tauto

theorem mem_operatorPairs_iff {c d : Char} :
    (c, d) ∈ operatorPairs ↔ String.ofList [c, d] ∈ longOperators := by
  simp only [operatorPairs, longOperators, List.mem_cons, List.not_mem_nil, or_false,
    Prod.mk.injEq, ← String.toList_inj, String.toList_ofList]
  simp

theorem isDigit_eq_false_of_isLetter {c : Char} (h : IsLetter c) : c.isDigit = false := by
  rw [Bool.eq_false_iff, ne_eq, Char.isDigit_iff_toNat]
  rintro ⟨-, h9⟩
  have h9 : c.toNat ≤ 57 := h9
  rcases h with ⟨hA, -⟩ | ⟨ha, -⟩ | rfl
  · have hA : 65 ≤ c.toNat := hA
    omega
  · have ha : 97 ≤ c.toNat := ha
    omega
  · revert h9
    decide

theorem start_of_mem_operatorPairs :
    ∀ p ∈ operatorPairs, p.1 ∈ operatorStarts ∧ p.1 ≠ '/' := by
  decide

/-- Characters of operators, quotes and brackets begin no number and no name. -/
theorem of_mem_punctuation {c : Char} (h : c ∈ '"' :: '\'' :: '(' :: ')' :: ',' :: operatorStarts) :
    c.isDigit = false ∧ c ≠ '.' ∧ isNameStart c = false := by
  have hall : ('"' :: '\'' :: '(' :: ')' :: ',' :: operatorStarts).all
      (fun c => !c.isDigit && c != '.' && !isNameStart c) = true := by decide
  simpa [and_assoc] using List.all_eq_true.1 hall c h

/-! ## The branches of the reader -/

section Branches

variable {c : Char} {cs : List Char}

theorem startsNumber_eq_false (hd : c.isDigit = false) (hp : c ≠ '.') :
    startsNumber c cs = false := by
  simp [startsNumber, hd, hp]

theorem ne_slash_of_startsNumber (h : startsNumber c cs = true) : c ≠ '/' := by
  rintro rfl
  have hd := of_mem_punctuation (c := '/') (by decide)
  rw [startsNumber_eq_false hd.1 hd.2.1] at h
  cases h

theorem scan_of_startsNumber (h : startsNumber c cs = true) :
    scan c cs = scanNumber (c :: cs) := by
  rw [scan, if_neg (fun hc => ne_slash_of_startsNumber h hc.1), if_pos h]

theorem scan_of_isQuote (h : c = '"' ∨ c = '\'') : scan c cs = scanString c cs := by
  have hmem : c ∈ '"' :: '\'' :: '(' :: ')' :: ',' :: operatorStarts := by
    rcases h with rfl | rfl <;> decide
  have hslash : c ≠ '/' := by rcases h with rfl | rfl <;> decide
  obtain ⟨hd, hp, -⟩ := of_mem_punctuation hmem
  rw [scan, if_neg (fun hc => hslash hc.1), startsNumber_eq_false hd hp,
    if_neg Bool.false_ne_true, if_pos h]

theorem ne_quote_of_mem_operatorStarts {c : Char} (h : c ∈ operatorStarts) :
    ¬ (c = '"' ∨ c = '\'') := by
  have hall : operatorStarts.all (fun c => c != '"' && c != '\'') = true := by decide
  simpa using List.all_eq_true.1 hall c h

theorem scan_of_operatorStart (h : c ∈ operatorStarts)
    (hopen : ¬ (c = '/' ∧ cs.head? = some '*')) : scan c cs = scanOperator c cs := by
  have hquote := ne_quote_of_mem_operatorStarts h
  obtain ⟨hd, hp, -⟩ := of_mem_punctuation (c := c) (by simp [h])
  rw [scan, if_neg hopen, startsNumber_eq_false hd hp, if_neg Bool.false_ne_true, if_neg hquote,
    if_pos h]

theorem scan_of_isNameStart (h : isNameStart c = true) : scan c cs = scanName (c :: cs) := by
  have hmem : c ∉ '"' :: '\'' :: '(' :: ')' :: ',' :: operatorStarts := fun hc => by
    rw [(of_mem_punctuation hc).2.2] at h
    cases h
  have hslash : c ≠ '/' := by
    rintro rfl
    exact hmem (by decide)
  have hpoint : c ≠ '.' := by
    rintro rfl
    revert h
    decide
  simp only [List.mem_cons, not_or] at hmem
  have hquote : ¬ (c = '"' ∨ c = '\'') := not_or.2 ⟨hmem.1, hmem.2.1⟩
  rw [scan, if_neg (fun hc => hslash hc.1),
    startsNumber_eq_false (isDigit_eq_false_of_isLetter (isNameStart_iff.1 h)) hpoint,
    if_neg Bool.false_ne_true, if_neg hquote, if_neg hmem.2.2.2.2.2, if_pos h]

/-- A bracket or a comma. -/
theorem scan_of_bracket {kind : TokenKind}
    (h : (c, kind) ∈ [('(', .openParen), (')', .closeParen), (',', .separator)]) :
    scan c cs = (plain kind [c], cs) := by
  simp only [List.mem_cons, Prod.mk.injEq, List.not_mem_nil, or_false] at h
  rcases h with ⟨rfl, rfl⟩ | ⟨rfl, rfl⟩ | ⟨rfl, rfl⟩ <;> rfl

/-- A character that begins nothing else. -/
theorem scan_of_unexpected (hnum : ¬ BeginsNumber (c :: cs)) (hletter : ¬ IsLetter c)
    (hquote : ¬ IsQuote c) (hstart : c ∉ shortOperators.toList) (hbracket : c ∉ ['(', ')', ',']) :
    scan c cs = (illegal (.unexpectedCharacter c) [c], cs) := by
  rw [← startsNumber_iff] at hnum
  rw [← isNameStart_iff] at hletter
  have hslash : ¬ (c = '/' ∧ cs.head? = some '*') := by
    rintro ⟨rfl, -⟩
    exact hstart (by decide)
  have hquote : ¬ (c = '"' ∨ c = '\'') := hquote
  have hstart : c ∉ operatorStarts := hstart
  simp only [List.mem_cons, List.not_mem_nil, or_false, not_or] at hbracket
  simp only [scan, if_neg hslash, if_neg hnum, if_neg hquote, if_neg hstart, if_neg hletter,
    if_neg hbracket.1, if_neg hbracket.2.1, if_neg hbracket.2.2]

end Branches

/-! ## Limited lexemes -/

theorem limited_of_le {x : Lexeme} (h : Text.utf8Length x.spelling ≤ 1000) : x.limited = x :=
  if_neg (Nat.not_lt.2 h)

theorem limited_of_lt {x : Lexeme} (h : 1000 < Text.utf8Length x.spelling) :
    x.limited = illegal (.tooLong (Text.utf8Length x.spelling)) x.spelling :=
  if_pos h

section Numbers

variable {n : Numeral}

/-- Digits are read as an integer exactly if 64 bits hold what they denote. -/
theorem isSome_readInt64?_digits {ds : List Char} (hds : ∀ c ∈ ds, c.isDigit = true)
    (hne : ds ≠ []) :
    (readInt64? ds).isSome ↔ (readDigits ds : Int) ≤ Int64.maxValue.toInt := by
  rw [Option.isSome_iff_exists]
  constructor
  · rintro ⟨n, hn⟩
    rw [← ((readInt64?_digits hds).1 hn).2]
    exact n.toInt_le
  · intro hle
    have hlt : (readDigits ds : Int) < 2 ^ 63 := Int.lt_of_le_sub_one hle
    exact ⟨Int64.ofInt (readDigits ds), (readInt64?_digits hds).2
      ⟨hne, Int64.toInt_ofInt_of_le (by omega) hlt⟩⟩

theorem ofNumeral_of_lt (h : 1000 < Text.utf8Length n.spelling) :
    ofNumeral n = illegal (.tooLong (Text.utf8Length n.spelling)) n.spelling := by
  have hspelling := spelling_ofNumeral n
  unfold ofNumeral at hspelling ⊢
  rw [spelling_limited] at hspelling
  rw [limited_of_lt (by rwa [hspelling]), hspelling]

theorem not_hasMark_of_digits (hds : ∀ c ∈ n.spelling, c.isDigit = true) :
    ¬ HasMark n.spelling := by
  rintro (h | h) <;> have hd := hds _ h <;> revert hd <;> decide

theorem ofNumeral_of_digits (hn : n.IsSpelled) (hne : n.spelling ≠ [])
    (hlen : Text.utf8Length n.spelling ≤ 1000) (hds : ∀ c ∈ n.spelling, c.isDigit = true) :
    ofNumeral n = if (readDigits n.spelling : Int) ≤ Int64.maxValue.toInt
      then plain .integer n.spelling
      else illegal (.integerOutOfRange (String.ofList n.spelling)) n.spelling := by
  have hempty := (Numeral.exponentIsEmpty_eq_false_iff hn).2
    (fun h => absurd h (not_hasMark_of_digits hds))
  have hwhole := (Numeral.isWhole_iff hn).2 hds
  simp only [ofNumeral, hempty, hwhole, Bool.not_true, Bool.false_eq_true, if_false,
    isSome_readInt64?_digits hds hne]
  split <;> exact limited_of_le hlen

/-- What is no row of digits is read as a double, unless its exponent lacks digits. -/
theorem ofNumeral_of_float (hn : n.IsSpelled) (hd : n.hasDigits = true)
    (hlen : Text.utf8Length n.spelling ≤ 1000) (hfloat : '.' ∈ n.spelling ∨ HasMark n.spelling)
    (hexp : HasMark n.spelling → HasExponentDigit n.spelling) :
    ofNumeral n = plain .float n.spelling := by
  have hempty := (Numeral.exponentIsEmpty_eq_false_iff hn).2 hexp
  have hwhole : n.isWhole = false := by
    rw [Bool.eq_false_iff, ne_eq, Numeral.isWhole_iff hn]
    intro hds
    rcases hfloat with h | h
    · have hc := hds _ h
      revert hc
      decide
    · exact not_hasMark_of_digits hds h
  simp only [ofNumeral, hempty, hwhole, Bool.not_false, Bool.false_eq_true, if_false, if_true,
    readFloat?_spelling hn hd hempty]
  exact limited_of_le hlen

theorem ofNumeral_of_emptyExponent (hn : n.IsSpelled) (hlen : Text.utf8Length n.spelling ≤ 1000)
    (hmark : HasMark n.spelling) (hexp : ¬ HasExponentDigit n.spelling) :
    ofNumeral n = illegal (.emptyExponent (String.ofList n.spelling)) n.spelling := by
  have hempty : n.exponentIsEmpty = true := by
    by_contra hempty
    exact hexp ((Numeral.exponentIsEmpty_eq_false_iff hn).1 (Bool.eq_false_iff.2 hempty) hmark)
  simp only [ofNumeral, hempty, if_true]
  exact limited_of_le hlen

/-- A numeral that consists of digits, or has a point, or has the mark of an exponent. -/
theorem digits_or_of_isSpelled (hn : n.IsSpelled) :
    (∀ c ∈ n.spelling, c.isDigit = true) ∨ '.' ∈ n.spelling ∨ HasMark n.spelling := by
  rw [Numeral.hasMark_spelling_iff hn, ← Numeral.isWhole_iff hn, Numeral.isWhole]
  cases hf : n.fraction with
  | some ds => exact .inr (.inl (by simp [Numeral.spelling, hf]))
  | none => cases n.exponent <;> simp

end Numbers

section Names

variable {c : Char} {cs : List Char}

theorem longest_name (h : IsLetter c) :
    Longest IsName (c :: cs) ((c :: cs).takeWhile isNamePart) where
  starts := List.takeWhile_prefix _
  holds := by
    rw [List.takeWhile_cons_of_pos (isNamePart_iff.2 (.inl h))]
    exact ⟨c, _, rfl, h, fun d hd => isNamePart_iff.1 (List.all_eq_true.1 List.all_takeWhile d hd)⟩
  length_le := by
    rintro other ⟨tail, htail⟩ ⟨d, rest, rfl, hd, hrest⟩
    have hall : ∀ e ∈ d :: rest, isNamePart e = true :=
      List.forall_mem_cons.2 ⟨isNamePart_iff.2 (.inl hd), fun e he => isNamePart_iff.2 (hrest e he)⟩
    rw [← htail, List.takeWhile_append_of_pos hall, List.length_append]
    exact Nat.le_add_right _ _

/-- Where a name stands, it begins with the first character. -/
theorem isLetter_of_longest {front : List Char} (h : Longest IsName (c :: cs) front) :
    IsLetter c := by
  obtain ⟨d, rest, rfl, hd, -⟩ := h.holds
  rw [← (List.cons_prefix_cons.1 h.starts).1]
  exact hd

end Names

section Quotes

variable {quote : Char} {body rest cs : List Char}

theorem bne_of_notMem (h : quote ∉ body) : ∀ c ∈ body, (c != quote) = true := by
  intro c hc
  rw [bne_iff_ne]
  rintro rfl
  exact h hc

theorem scanString_of_mem (h : quote ∉ body) :
    scanString quote (body ++ quote :: rest)
      = (limited (plain .string (quote :: (body ++ [quote]))), rest) := by
  have hbody := bne_of_notMem h
  rw [scanString, List.dropWhile_append_of_pos hbody,
    List.dropWhile_cons_of_neg (by simp), List.takeWhile_append_of_pos hbody,
    List.takeWhile_cons_of_neg (by simp), List.append_nil]
  rfl

theorem scanString_of_notMem (h : quote ∉ cs) :
    scanString quote cs = (illegal .openString (quote :: cs), []) := by
  have hnil : cs.dropWhile (· != quote) = [] := List.dropWhile_eq_nil_iff.2 (bne_of_notMem h)
  rw [scanString, hnil]

end Quotes

/-! ## The rules and the reader -/

section Agreement

variable {c : Char} {cs : List Char} {x : Lexeme}

/-- Numbers are read by the rules. -/
theorem munches_ofNumeral (h : startsNumber c cs = true) :
    Munches (c :: cs) (ofNumeral (Numeral.split (c :: cs)).1) := by
  have hfront : IsNumber (c :: cs) (Numeral.split (c :: cs)).1.spelling :=
    ⟨startsNumber_iff.1 h, longest_split _⟩
  have hn := Numeral.isSpelled_split (c :: cs)
  have hd := hasDigits_split h
  have hne := spelling_split_ne_nil h
  generalize (Numeral.split (c :: cs)).1 = n at hfront hn hd hne
  by_cases hlen : Text.utf8Length n.spelling ≤ 1000
  · rcases digits_or_of_isSpelled hn with hds | hfloat
    · rw [ofNumeral_of_digits hn hne hlen hds]
      split
      · next hle => exact .integer hfront hlen hds hle
      · next hlt => exact .integerOutOfRange hfront hlen hds (Int.not_le.1 hlt)
    · by_cases hexp : HasMark n.spelling → HasExponentDigit n.spelling
      · rw [ofNumeral_of_float hn hd hlen hfloat hexp]
        exact .float hfront hlen hfloat hexp
      · obtain ⟨hmark, hexp⟩ := Classical.not_imp.1 hexp
        rw [ofNumeral_of_emptyExponent hn hlen hmark hexp]
        exact .emptyExponent hfront hlen hmark hexp
  · have hlt := Nat.not_le.1 hlen
    rw [ofNumeral_of_lt hlt]
    exact .tooLong (.inl hfront) hlt

/-- What is read is fixed by the rules. -/
theorem munches_scan (hopen : ¬ (c = '/' ∧ cs.head? = some '*')) :
    Munches (c :: cs) (scan c cs).1 := by
  -- By the first character, in the order in which the lexer asks; so each kind of lexeme comes with
  -- what rules out those before it.
  by_cases hnum : startsNumber c cs = true
  · rw [scan_of_startsNumber hnum]
    exact munches_ofNumeral hnum
  by_cases hquote : c = '"' ∨ c = '\''
  · rw [scan_of_isQuote hquote]
    by_cases hmem : c ∈ cs
    · obtain ⟨body, rest, rfl, hbody⟩ := List.eq_append_cons_of_mem hmem
      have hfront : IsQuoted (c :: (body ++ c :: rest)) (c :: (body ++ [c])) :=
        ⟨c, body, hquote, hbody, rfl, rest, by simp⟩
      rw [scanString_of_mem hbody]
      by_cases hlen : Text.utf8Length (c :: (body ++ [c])) ≤ 1000
      · rw [limited_of_le hlen]
        exact .quoted hfront hlen
      · have hlt := Nat.not_le.1 hlen
        rw [limited_of_lt hlt]
        exact .tooLong (.inr (.inr hfront)) hlt
    · rw [scanString_of_notMem hmem]
      exact .openQuote hquote hmem
  by_cases hstart : c ∈ operatorStarts
  · rw [scan_of_operatorStart hstart hopen]
    cases cs with
    | nil => exact .shortOperator hstart (by simp)
    | cons d cs =>
      by_cases hpair : (c, d) ∈ operatorPairs
      · rw [scanOperator, if_pos hpair]
        exact .longOperator (mem_operatorPairs_iff.1 hpair)
      · rw [scanOperator, if_neg hpair]
        refine .shortOperator hstart ?_
        rintro _ ⟨⟩
        rwa [← mem_operatorPairs_iff]
  by_cases hname : isNameStart c = true
  · have hfront : Longest IsName (c :: cs) _ := longest_name (isNameStart_iff.1 hname)
    rw [scan_of_isNameStart hname, scanName]
    by_cases hlen : Text.utf8Length ((c :: cs).takeWhile isNamePart) ≤ 1000
    · rw [limited_of_le hlen]
      exact .name hfront hlen
    · have hlt := Nat.not_le.1 hlen
      rw [limited_of_lt hlt]
      exact .tooLong (.inr (.inl hfront)) hlt
  by_cases hbracket : c ∈ ['(', ')', ',']
  · simp only [List.mem_cons, List.not_mem_nil, or_false] at hbracket
    rcases hbracket with rfl | rfl | rfl <;> exact .bracket (by simp)
  · have hnum := fun hb => hnum (startsNumber_iff.2 hb)
    have hletter := fun hl => hname (isNameStart_iff.2 hl)
    rw [scan_of_unexpected hnum hletter hquote hstart hbracket]
    exact .unexpected hnum hletter hquote hstart hbracket

theorem scan_of_isNumber {front : List Char} (h : IsNumber (c :: cs) front) :
    ∃ n : Numeral, n.IsSpelled ∧ n.hasDigits = true ∧ n.spelling ≠ [] ∧ front = n.spelling ∧
      (scan c cs).1 = ofNumeral n := by
  have hnum := startsNumber_iff.2 h.begins
  refine ⟨(Numeral.split (c :: cs)).1, Numeral.isSpelled_split _, hasDigits_split hnum,
    spelling_split_ne_nil hnum, h.longest.unique (longest_split _), ?_⟩
  rw [scan_of_startsNumber hnum]
  rfl

theorem scan_of_isName {front : List Char} (h : Longest IsName (c :: cs) front) :
    (scan c cs).1 = limited (plain .identifier front) := by
  have hletter := isLetter_of_longest h
  rw [scan_of_isNameStart (isNameStart_iff.2 hletter), h.unique (longest_name hletter)]
  rfl

theorem scan_of_isQuoted {front : List Char} (h : IsQuoted (c :: cs) front) :
    (scan c cs).1 = limited (plain .string front) := by
  obtain ⟨quote, body, hquote, hbody, rfl, rest, hrest⟩ := h
  rw [List.cons_append, List.append_assoc, List.singleton_append] at hrest
  obtain ⟨rfl, rfl⟩ := List.cons.inj hrest
  rw [scan_of_isQuote hquote, scanString_of_mem hbody]

/-- A lexeme has a first character. -/
theorem Munches.ne_nil {cs : List Char} (h : Munches cs x) : cs ≠ [] := by
  rintro rfl
  have hnum : ¬ BeginsNumber [] := by simp [BeginsNumber]
  have hname : ∀ front, ¬ Longest IsName [] front := by
    rintro front ⟨hstarts, ⟨c, rest, rfl, -⟩, -⟩
    simp at hstarts
  have hquoted : ∀ front, ¬ IsQuoted [] front := by
    rintro front ⟨quote, body, -, -, rfl, hstarts⟩
    simp at hstarts
  cases h with
  | integer hfront | integerOutOfRange hfront | float hfront | emptyExponent hfront =>
    exact hnum hfront.begins
  | name hfront => exact hname _ hfront
  | quoted hfront => exact hquoted _ hfront
  | tooLong hfront =>
    rcases hfront with hfront | hfront | hfront
    · exact hnum hfront.begins
    · exact hname _ hfront
    · exact hquoted _ hfront

/-- The rules fix what is read. -/
theorem Munches.eq_scan (h : Munches (c :: cs) x) (hopen : ¬ (c = '/' ∧ cs.head? = some '*')) :
    (scan c cs).1 = x := by
  -- Each rule fixes its lexeme: those of numbers, names and quoted texts as the longest ones, the
  -- others by their first characters.
  generalize htext : c :: cs = text at h
  cases h with
  | integer hfront hlen hds hle =>
    subst htext
    obtain ⟨n, hn, -, hne, rfl, hscan⟩ := scan_of_isNumber hfront
    rw [hscan, ofNumeral_of_digits hn hne hlen hds, if_pos hle]
  | integerOutOfRange hfront hlen hds hlt =>
    subst htext
    obtain ⟨n, hn, -, hne, rfl, hscan⟩ := scan_of_isNumber hfront
    rw [hscan, ofNumeral_of_digits hn hne hlen hds, if_neg (Int.not_le.2 hlt)]
  | float hfront hlen hfloat hexp =>
    subst htext
    obtain ⟨n, hn, hd, -, rfl, hscan⟩ := scan_of_isNumber hfront
    rw [hscan, ofNumeral_of_float hn hd hlen hfloat hexp]
  | emptyExponent hfront hlen hmark hexp =>
    subst htext
    obtain ⟨n, hn, -, -, rfl, hscan⟩ := scan_of_isNumber hfront
    rw [hscan, ofNumeral_of_emptyExponent hn hlen hmark hexp]
  | name hfront hlen =>
    subst htext
    rw [scan_of_isName hfront, limited_of_le hlen]
  | quoted hfront hlen =>
    subst htext
    rw [scan_of_isQuoted hfront, limited_of_le hlen]
  | tooLong hfront hlt =>
    subst htext
    rcases hfront with hfront | hfront | hfront
    · obtain ⟨n, -, -, -, rfl, hscan⟩ := scan_of_isNumber hfront
      rw [hscan, ofNumeral_of_lt hlt]
    · rw [scan_of_isName hfront, limited_of_lt hlt]
      rfl
    · rw [scan_of_isQuoted hfront, limited_of_lt hlt]
      rfl
  | openQuote hquote hbody =>
    obtain ⟨rfl, rfl⟩ := List.cons.inj htext
    rw [scan_of_isQuote hquote, scanString_of_notMem hbody]
  | longOperator hpair =>
    obtain ⟨rfl, rfl⟩ := List.cons.inj htext
    have hmem := mem_operatorPairs_iff.2 hpair
    obtain ⟨hstart, hslash⟩ := start_of_mem_operatorPairs _ hmem
    rw [scan_of_operatorStart hstart (fun h => hslash h.1), scanOperator, if_pos hmem]
  | shortOperator hstart hpair =>
    obtain ⟨rfl, rfl⟩ := List.cons.inj htext
    rw [scan_of_operatorStart hstart hopen]
    cases cs with
    | nil => rfl
    | cons d cs =>
      rw [scanOperator, if_neg]
      rw [mem_operatorPairs_iff]
      exact hpair d rfl
  | bracket hbracket =>
    obtain ⟨rfl, rfl⟩ := List.cons.inj htext
    rw [scan_of_bracket hbracket]
  | unexpected hnum hletter hquote hstart hbracket =>
    obtain ⟨rfl, rfl⟩ := List.cons.inj htext
    rw [scan_of_unexpected hnum hletter hquote hstart hbracket]

end Agreement

/-! ## Diagnoses -/

theorem prefix_toList_append {cs : List Char} {a b : String} (h : cs <+: a.toList) :
    cs <+: (a ++ b).toList := by
  rw [String.toList_append]
  exact h.trans (List.prefix_append _ _)

/-- How a diagnosis begins. -/
def heading : Defect → List Char
  | .unexpectedCharacter _ => ['u', 'n', 'e']
  | .openComment => ['c', 'o', 'm']
  | .openString => ['s', 't', 'r']
  | .tooLong _ => ['t', 'o', 'k']
  | .emptyExponent _ => ['e', 'x', 'p']
  | .invalidFloat _ => ['i', 'n', 'v']
  | .integerOutOfRange _ => ['i', 'n', 't']

theorem heading_prefix_message (d : Defect) : heading d <+: d.message.toList := by
  cases d with
  | unexpectedCharacter c =>
    have h : ['u', 'n', 'e'] <+: ("unexpected character '").toList := by decide
    exact prefix_toList_append (prefix_toList_append h)
  | openComment =>
    show _ <+: ("comment not terminated").toList
    decide
  | openString =>
    show _ <+: ("string literal not terminated").toList
    decide
  | tooLong bytes =>
    have h : ['t', 'o', 'k'] <+: ("token too long: ").toList := by decide
    exact prefix_toList_append (prefix_toList_append (prefix_toList_append
      (prefix_toList_append h)))
  | emptyExponent numeral =>
    have h : ['e', 'x', 'p'] <+: ("exponent has no digits: ").toList := by decide
    exact prefix_toList_append h
  | invalidFloat numeral =>
    have h : ['i', 'n', 'v'] <+: ("invalid float literal: ").toList := by decide
    exact prefix_toList_append h
  | integerOutOfRange numeral =>
    have h : ['i', 'n', 't'] <+: ("integer literal out of range: ").toList := by decide
    exact prefix_toList_append h

/-- The diagnoses of different defects begin differently. -/
theorem heading_eq_of_message_eq {d e : Defect} (h : d.message = e.message) :
    heading d = heading e := by
  have hlen : ∀ f, (heading f).length = 3 := by
    intro f
    cases f <;> rfl
  have hd := List.prefix_iff_eq_take.1 (heading_prefix_message d)
  have he := List.prefix_iff_eq_take.1 (heading_prefix_message e)
  rw [hd, he, h, hlen, hlen]

theorem text_illegal (d : Defect) (spelling : List Char) :
    (illegal d spelling).text = d.message := rfl

theorem message_ne {d : Defect} (h : ∀ numeral, d ≠ .invalidFloat numeral) (numeral : String) :
    d.message ≠ (Defect.invalidFloat numeral).message := by
  intro hmessage
  have hheading := heading_eq_of_message_eq hmessage
  cases d with
  | invalidFloat n => exact h n rfl
  | _ => simp [heading] at hheading

/-- What is illegal carries the diagnosis of a defect, which is never that a number cannot be read
as a double. -/
theorem Munches.exists_defect {cs : List Char} {x : Lexeme} (h : Munches cs x)
    (hx : x.kind = .illegal) :
    ∃ d : Defect, x.text = d.message ∧ ∀ numeral, d ≠ .invalidFloat numeral := by
  cases h with
  | integer | float | name | quoted | longOperator | shortOperator => cases hx
  | bracket hbracket =>
    obtain rfl : _ = TokenKind.illegal := hx
    simp at hbracket
  | integerOutOfRange | emptyExponent | tooLong | openQuote | unexpected =>
    exact ⟨_, text_illegal _ _, nofun⟩

end Lexeme

namespace Lexer

/-! ## Comments that are never closed -/

/-- A comment is never closed exactly if no end mark follows. -/
theorem splitBlock?_eq_none_iff {cs : List Char} :
    Trivia.splitBlock? cs = none ↔ ¬ ['*', '/'] <:+: cs := by
  fun_induction Trivia.splitBlock? cs with
  | case1 cs => simpa using List.prefix_append ['*', '/'] cs |>.isInfix
  | case2 c cs hopen ih =>
    rw [Option.map_eq_none_iff, ih, List.infix_cons_iff, not_or]
    refine ⟨fun h => ⟨fun hmark => ?_, h⟩, And.right⟩
    obtain ⟨hc, t, ht⟩ := List.cons_prefix_cons.1 hmark
    exact hopen t hc.symm ht.symm
  | case3 => simp

/-- What stands behind trivia and yet begins like a comment is never closed. -/
theorem notMem_of_split_eq {cs rest : List Char} (h : (Trivia.split cs).2 = '/' :: '*' :: rest) :
    ¬ ['*', '/'] <:+: rest := by
  have hpiece := Trivia.piece?_split cs
  rw [h] at hpiece
  exact splitBlock?_eq_none_iff.1 (Option.map_eq_none_iff.1 hpiece)

/-! ## The tokens that are read -/

/-- What a lexer reads by the rules: nothing at the end of its text, the rest of it where a comment
is never closed, and otherwise a lexeme. -/
inductive Reads (l : Lexer) : Option Token × Lexer → Prop
  | nothing : l.passTrivia.rest = [] → Reads l (none, l.passTrivia)
  | openComment {body : List Char} : l.passTrivia.rest = '/' :: '*' :: body →
      ¬ ['*', '/'] <:+: body →
      Reads l (some ⟨.illegal, Defect.openComment.message, l.passTrivia.offset⟩,
        l.passTrivia.pass l.passTrivia.rest [])
  | lexeme {x : Lexeme} {rest : List Char} : Lexeme.Munches l.passTrivia.rest x →
      (∀ body, l.passTrivia.rest ≠ '/' :: '*' :: body) → l.passTrivia.rest = x.spelling ++ rest →
      Reads l (some ⟨x.kind, x.text, l.passTrivia.offset⟩, l.passTrivia.pass x.spelling rest)

section Read

variable {l : Lexer} {r : Option Token × Lexer}

theorem readToken_of_rest_cons {c : Char} {cs : List Char} (h : l.passTrivia.rest = c :: cs) :
    l.readToken = (some ⟨(Lexeme.scan c cs).1.kind, (Lexeme.scan c cs).1.text, l.passTrivia.offset⟩,
      l.passTrivia.pass (Lexeme.scan c cs).1.spelling (Lexeme.scan c cs).2) := by
  rw [readToken, readLexeme, h]

theorem readToken_of_openComment {body : List Char} (h : l.passTrivia.rest = '/' :: '*' :: body) :
    l.readToken = (some ⟨.illegal, Defect.openComment.message, l.passTrivia.offset⟩,
      l.passTrivia.pass l.passTrivia.rest []) := by
  rw [readToken_of_rest_cons h, h]
  rfl

theorem reads_readToken (l : Lexer) : l.Reads l.readToken := by
  cases hrest : l.passTrivia.rest with
  | nil =>
    rw [readToken, readLexeme, hrest]
    exact .nothing hrest
  | cons c cs =>
    by_cases hopen : c = '/' ∧ cs.head? = some '*'
    · obtain ⟨rfl, hhead⟩ := hopen
      obtain ⟨body, rfl⟩ := List.head?_eq_some_iff.1 hhead
      rw [readToken_of_openComment hrest]
      exact .openComment hrest (notMem_of_split_eq hrest)
    · rw [readToken_of_rest_cons hrest]
      refine .lexeme (hrest ▸ Lexeme.munches_scan hopen) (fun body hbody => hopen ?_)
        (hrest.trans (Lexeme.scan_append c cs).symm)
      obtain ⟨rfl, rfl⟩ := List.cons.inj (hrest.symm.trans hbody)
      exact ⟨rfl, rfl⟩

theorem Reads.eq_readToken (h : l.Reads r) : l.readToken = r := by
  cases h with
  | nothing hrest => rw [readToken, readLexeme, hrest]
  | openComment hrest => exact readToken_of_openComment hrest
  | @lexeme x rest hmunches hopen happend =>
    cases hrest : l.passTrivia.rest with
    | nil => exact absurd hrest hmunches.ne_nil
    | cons c cs =>
      rw [hrest] at hmunches happend
      have hscan : (Lexeme.scan c cs).1 = x := by
        refine hmunches.eq_scan ?_
        rintro ⟨rfl, hhead⟩
        obtain ⟨body, rfl⟩ := List.head?_eq_some_iff.1 hhead
        exact hopen body hrest
      have hbehind : (Lexeme.scan c cs).2 = rest := by
        rw [← List.append_right_inj x.spelling, ← happend, ← hscan, Lexeme.scan_append]
      rw [readToken_of_rest_cons hrest, hscan, hbehind]

theorem Reads.exists_defect {t : Token} (h : l.Reads r) (ht : r.1 = some t)
    (hk : t.kind = .illegal) :
    ∃ d : Defect, t.text = d.message ∧ ∀ numeral, d ≠ .invalidFloat numeral := by
  cases h with
  | nothing => cases ht
  | openComment =>
    cases ht
    exact ⟨.openComment, rfl, nofun⟩
  | lexeme hmunches =>
    cases ht
    exact hmunches.exists_defect hk

/-- No token carries the message that a number cannot be read as a double. -/
theorem Reads.text_ne {t : Token} (h : l.Reads r) (ht : r.1 = some t) (hk : t.kind = .illegal)
    (numeral : String) : t.text ≠ (Defect.invalidFloat numeral).message := by
  obtain ⟨d, htext, hd⟩ := h.exists_defect ht hk
  rw [htext]
  exact Lexeme.message_ne hd numeral

theorem exists_defect_of_next {l' : Lexer} {t : Token} (h : l.next = (some t, l'))
    (hk : t.kind = .illegal) : ∃ d : Defect, t.text = d.message := by
  unfold next at h
  split at h
  · cases h
  · split at h
    · next u l'' hread =>
      cases h
      obtain ⟨d, htext, -⟩ := (reads_readToken l).exists_defect (by rw [hread]) hk
      exact ⟨d, htext⟩
    · cases h
      cases hk

end Read

/-- **Every token is fixed by the rules**, and no number is illegal for the reason that it cannot be
read as a double. -/
theorem readToken_munches (l : Lexer) :
    (∀ r, l.Reads r ↔ l.readToken = r) ∧
      ∀ t, l.readToken.1 = some t → t.kind = .illegal →
        ∀ numeral, t.text ≠ (Defect.invalidFloat numeral).message := by
  refine ⟨fun r => ⟨Reads.eq_readToken, ?_⟩, fun t ht hk => (reads_readToken l).text_ne ht hk⟩
  rintro rfl
  exact reads_readToken l

example : (Lexer.ofString "/* */ 1.5e+ ** 2").readToken.1
    = some ⟨.illegal, "exponent has no digits: 1.5e+", 6⟩ := by
  decide +kernel

end Lexer

end Formula
