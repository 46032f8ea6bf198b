import Formula.Proofs.Token.Boundary

/-!
# A line break divides a text

Nothing that is read in front of a line break depends on what stands behind it, and the other way
round, unless a comment or a quoted text without an end stands in front. So two texts with a line
break between them have the tokens of the first and those of the second.

* `Token.shift`, `Lexer.tokens_shift`: a text further on has its tokens further on.
* `Trivia.split_append_break`: what is skipped at the end of a text is skipped in front of a line
  break, with the break and with what follows it.
* `Lexer.tokens_of_split_append`: trivia may be skipped in part.
* `Token.IsClosed`: a token that the end of the text does not cut off.
* `tokenize_append_break`: the tokens of two texts with a line break between them.
-/

namespace Formula

/-- The same token `n` bytes further on. -/
def Token.shift (n : Nat) (t : Token) : Token := { t with position := t.position + n }

/-- A token that is not cut off by the end of the text, as comments and quoted texts without an end
are. -/
def Token.IsClosed (t : Token) : Prop :=
  t.kind = .illegal → t.text ≠ Defect.openComment.message ∧ t.text ≠ Defect.openString.message

instance : DecidablePred Token.IsClosed := fun t =>
  inferInstanceAs (Decidable (t.kind = .illegal → _))

/-! ## Trivia in front of a line break -/

namespace Trivia

variable {cs ds rest : List Char}

/-- A comment at the end of a text ends at the line break. -/
theorem Skipped.append_break (h : Skipped [] cs) (hds : Skipped rest ds) :
    Skipped rest (cs ++ '\n' :: ds) := by
  induction h with
  | nil => exact .blank (by decide) hds
  | blank hc _ ih => exact .blank hc ih
  | @line body cs hbody _ ih =>
    rw [List.cons_append, List.cons_append, List.append_assoc]
    exact .line hbody ih
  | lastLine hbody _ => exact .line hbody hds
  | @block body cs hbody _ ih =>
    rw [List.cons_append, List.cons_append, List.append_assoc]
    exact .block hbody ih

theorem split_append_break (h : Skipped [] cs) (ds : List Char) :
    split (cs ++ '\n' :: ds) = (cs ++ '\n' :: (split ds).1, (split ds).2) := by
  rw [split_eq_iff]
  refine ⟨?_, h.append_break (skipped_split ds), piece?_split ds⟩
  rw [List.append_assoc, List.cons_append, split_append]

end Trivia

/-! ## Tokens further on -/

namespace Lexer

variable {l l' : Lexer} {n : Nat}

/-- The same text is ahead of two lexers, `n` bytes further on for the second one. -/
theorem tokens_shift (hf : l.finished = false) (hf' : l'.finished = false)
    (hrest : l'.rest = l.rest) (hoffset : l'.offset = l.offset + n) :
    l'.tokens = l.tokens.map (Token.shift n) := by
  induction l, hf using induction_on_tokens generalizing l' with
  | last l trivia hf hsplit =>
    have hplace : l'.offset + Text.utf8Length trivia = l.offset + Text.utf8Length trivia + n := by
      omega
    rw [tokens_of_split_nil hf hsplit, tokens_of_split_nil hf' (hrest ▸ hsplit), hplace]
    rfl
  | lexeme l trivia c cs x rest hf hsplit hscan ih =>
    have hplace : l'.offset + Text.utf8Length trivia = l.offset + Text.utf8Length trivia + n := by
      omega
    have hmore : ((l'.pass trivia (c :: cs)).pass x.spelling rest).tokens
        = ((l.pass trivia (c :: cs)).pass x.spelling rest).tokens.map (Token.shift n) := by
      refine ih hf' rfl ?_
      simp only [pass]
      omega
    rw [tokens_of_split_cons hf hsplit hscan, tokens_of_split_cons hf' (hrest ▸ hsplit) hscan,
      hmore, hplace]
    rfl

/-- A lexer that has skipped a first part of the trivia ahead reports the same tokens. -/
theorem tokens_of_split_append {front more rest rest' : List Char} (hf : l.finished = false)
    (hsplit : Trivia.split l.rest = (front ++ more, rest'))
    (hmore : Trivia.split rest = (more, rest')) : l.tokens = (l.pass front rest).tokens := by
  have hplace : l.offset + Text.utf8Length (front ++ more)
      = (l.pass front rest).offset + Text.utf8Length more := by
    rw [Text.utf8Length_append, ← Nat.add_assoc]
    rfl
  have hf' : (l.pass front rest).finished = false := hf
  cases rest' with
  | nil => rw [tokens_of_split_nil hf hsplit, tokens_of_split_nil hf' hmore, hplace]
  | cons c cs =>
    rcases hscan : Lexeme.scan c cs with ⟨x, after⟩
    have hbehind : ((l.pass front rest).pass more (c :: cs)).pass x.spelling after
        = (l.pass (front ++ more) (c :: cs)).pass x.spelling after := by
      simp only [pass, Text.utf8Length_append, Nat.add_assoc]
    rw [tokens_of_split_cons hf hsplit hscan, tokens_of_split_cons hf' hmore hscan, hplace, hbehind]

/-! ## Tokens in front of a line break -/

/-- What stands behind a lexeme is cut off, or begins with a line break. -/
theorem endsAlike_append_break (tail b : List Char) : EndsAlike tail (tail ++ '\n' :: b) := by
  cases tail with
  | nil => exact endsAlike_blank (by decide) [] b
  | cons c tail =>
    rintro _ ⟨⟩
    exact .inr ⟨c, rfl, rfl⟩

/-- One step in front of a line break. -/
theorem step_append_break {cs ds trivia rest : List Char} {c : Char} {x : Lexeme}
    (hsplit : Trivia.split cs = (trivia, c :: ds)) (hscan : Lexeme.scan c ds = (x, rest))
    (hclosed : x.IsClosed) (b : List Char) :
    Trivia.split (cs ++ '\n' :: b) = (trivia, c :: (ds ++ '\n' :: b)) ∧
      Lexeme.scan c (ds ++ '\n' :: b) = (x, rest ++ '\n' :: b) := by
  obtain ⟨rfl, hskipped, hpiece⟩ := Trivia.split_eq_iff.1 hsplit
  obtain ⟨w, rfl, -⟩ := Lexeme.exists_word_of_scan hscan
  have halike := endsAlike_append_break rest b
  rw [List.append_assoc, List.cons_append, List.append_assoc]
  exact ⟨Trivia.split_of_skipped (hskipped.of_rest nofun)
      (Trivia.piece?_of_endsAlike hpiece hscan (.inl hclosed) halike),
    Lexeme.scan_of_endsAlike hscan (.inl hclosed) halike⟩

/-- A lexer in front of a text, a line break and another text. -/
theorem tokens_append_break {b : String} (hf : l.finished = false) (hf' : l'.finished = false)
    (hrest : l'.rest = l.rest ++ '\n' :: b.toList) (hoffset : l'.offset = l.offset)
    (hclosed : ∀ t ∈ l.tokens, t.IsClosed) :
    ∃ body, l.tokens = body ++ [⟨.endOfInput, "", l.offset + Text.utf8Length l.rest⟩] ∧
      l'.tokens = body
        ++ (tokenize b).map (Token.shift (l.offset + Text.utf8Length l.rest + 1)) := by
  induction l, hf using induction_on_tokens generalizing l' with
  | last l trivia hf hsplit =>
    obtain ⟨htrivia, hskipped, -⟩ := Trivia.split_eq_iff.1 hsplit
    rw [List.append_nil] at htrivia
    refine ⟨[], by rw [tokens_of_split_nil hf hsplit, htrivia]; rfl, ?_⟩
    -- The line break joins what is skipped at the end of the first text to what is skipped at the
    -- start of the second.
    have hsplit' : Trivia.split l'.rest
        = ((trivia ++ ['\n']) ++ (Trivia.split b.toList).1, (Trivia.split b.toList).2) := by
      rw [hrest, htrivia, Trivia.split_append_break hskipped, List.append_assoc]
      rfl
    rw [tokens_of_split_append hf' hsplit' rfl]
    refine tokens_shift rfl hf' rfl ?_
    have hbreak : Char.utf8Size '\n' = 1 := by decide
    simp only [pass, ofString, Text.utf8Length_append, Text.utf8Length_cons, Text.utf8Length_nil,
      hoffset, htrivia, hbreak]
    omega
  | lexeme l trivia c cs x rest hf hsplit hscan ih =>
    have htokens := tokens_of_split_cons hf hsplit hscan
    rw [htokens, List.forall_mem_cons] at hclosed
    obtain ⟨hx, hmore⟩ := hclosed
    obtain ⟨hsplit', hscan'⟩ := step_append_break hsplit hscan hx b.toList
    rw [← hrest] at hsplit'
    obtain ⟨body, hbody, hbody'⟩ := @ih
      ((l'.pass trivia (c :: (cs ++ '\n' :: b.toList))).pass x.spelling (rest ++ '\n' :: b.toList))
      hf' rfl (by simp only [pass, hoffset]) hmore
    have hlength : l.offset + Text.utf8Length l.rest
        = ((l.pass trivia (c :: cs)).pass x.spelling rest).offset
          + Text.utf8Length ((l.pass trivia (c :: cs)).pass x.spelling rest).rest := by
      have htext := Trivia.split_append l.rest
      have hlexeme := Lexeme.scan_append c cs
      rw [hsplit] at htext
      rw [hscan] at hlexeme
      rw [← htext, ← hlexeme]
      simp only [pass, Text.utf8Length_append]
      omega
    rw [htokens, tokens_of_split_cons hf' hsplit' hscan', hbody, hbody', hlength, hoffset]
    exact ⟨_ :: body, rfl, rfl⟩

end Lexer

/-- **The tokens of two texts with a line break between them** are those of the first one without
its end, and those of the second one further on, if no comment and no quoted text of the first one
lacks its end. -/
theorem tokenize_append_break {a b : String} (h : ∀ t ∈ tokenize a, t.IsClosed) :
    ∃ body, tokenize a = body ++ [⟨.endOfInput, "", Text.utf8Length a.toList⟩] ∧
      tokenize (a ++ "\n" ++ b)
        = body ++ (tokenize b).map (Token.shift (Text.utf8Length a.toList + 1)) := by
  have hrest : (Lexer.ofString (a ++ "\n" ++ b)).rest = a.toList ++ '\n' :: b.toList := by
    simp [Lexer.ofString]
  obtain ⟨body, hbody, hbody'⟩ :=
    Lexer.tokens_append_break (l := .ofString a) rfl rfl hrest rfl h
  have hlength : (Lexer.ofString a).offset + Text.utf8Length (Lexer.ofString a).rest
      = Text.utf8Length a.toList := Nat.zero_add _
  rw [hlength] at hbody hbody'
  exact ⟨body, hbody, hbody'⟩

/-- A number without the digits of its exponent and a comment that the line ends, in front of a
quoted text without an end. -/
theorem tokenize_append_break_comment :
    let a := "é 1e-// '/*"
    let b := "+2 'x"
    (∀ t ∈ tokenize a, t.IsClosed) ∧
      tokenize a = [⟨.illegal, "unexpected character 'é'", 0⟩,
        ⟨.illegal, "exponent has no digits: 1e-", 3⟩, ⟨.endOfInput, "", 12⟩] ∧
      tokenize (a ++ "\n" ++ b) = [⟨.illegal, "unexpected character 'é'", 0⟩,
        ⟨.illegal, "exponent has no digits: 1e-", 3⟩, ⟨.operator, "+", 13⟩, ⟨.integer, "2", 14⟩,
        ⟨.illegal, "string literal not terminated", 16⟩, ⟨.endOfInput, "", 18⟩] := by
  intro a b
  have hclosed : ∀ t ∈ tokenize a, t.IsClosed := by decide +kernel
  have ha : tokenize a = [⟨.illegal, "unexpected character 'é'", 0⟩,
      ⟨.illegal, "exponent has no digits: 1e-", 3⟩, ⟨.endOfInput, "", 12⟩] := by decide +kernel
  have hb : (tokenize b).map (Token.shift (Text.utf8Length a.toList + 1)) = [⟨.operator, "+", 13⟩,
      ⟨.integer, "2", 14⟩, ⟨.illegal, "string literal not terminated", 16⟩,
      ⟨.endOfInput, "", 18⟩] := by decide +kernel
  obtain ⟨body, hbody, htokens⟩ := tokenize_append_break (b := b) hclosed
  have hfront : body = (tokenize a).dropLast := by rw [hbody, List.dropLast_concat]
  rw [hb, hfront, ha] at htokens
  exact ⟨hclosed, ha, htokens⟩

end Formula
