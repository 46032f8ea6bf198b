import Formula.Proofs.Token.LineBreak

/-!
# Lexers that are put at another place

What a lexer reports depends on the text ahead of it alone; the place only counts the bytes behind.
So a lexer can be put at any place of its text, and go on from there.

* `Lexer.seek?_utf8Length`, `OnBoundary.seek?_offset`: where a lexer gets to.
* `Lexer.exists_lexer_at_token`: behind the trivia in front of a token lie this token and all later
  ones.
* `Lexer.Reachable`: the lexers of a text between two calls; `Reachable.onBoundary`: none of them is
  inside a character.
* `Lexer.tokens_of_finished`: a lexer that has reported the end reports nothing, wherever it is put.
* `Lexer.seek?_resumes`: the tokens behind a place, behind a token, and behind a saved lexer.
-/

namespace Formula.Lexer

variable {l l' saved later : Lexer} {s front back : String}

/-! ## Places -/

/-- A lexer gets to every place between two parts of its text. -/
theorem seek?_utf8Length (hsource : l.source = (front ++ back).toList) :
    l.seek? (Text.utf8Length front.toList)
      = some { l with rest := back.toList, offset := Text.utf8Length front.toList } := by
  rw [seek?, hsource, String.toList_append, Text.dropBytes_append]
  rfl

/-- A lexer that is put at the place of another one of the same text is that lexer, if both have
reported the end or none has. -/
theorem OnBoundary.seek?_offset (h : saved.OnBoundary) (hsource : l.source = saved.source)
    (hf : l.finished = saved.finished) : l.seek? saved.offset = some saved := by
  obtain ⟨front, hfront, hlength⟩ := h
  rw [seek?, ← hlength, hsource, hfront, Text.dropBytes_append, ← hfront, hlength, Option.map_some,
    hf]

theorem OnBoundary.readToken (h : l.OnBoundary) :
    l.readToken.2.source = l.source ∧ l.readToken.2.OnBoundary := by
  rcases hread : l.readToken with ⟨_ | t, l'⟩
  · obtain ⟨hboundary, hsource, -⟩ := of_readToken_none h hread
    exact ⟨hsource, hboundary⟩
  · obtain ⟨hboundary, hsource, -⟩ := of_readToken_some h hread
    exact ⟨hsource, hboundary⟩

/-- To report the end moves no lexer. -/
theorem OnBoundary.next (h : l.OnBoundary) :
    l.next.2.source = l.source ∧ l.next.2.OnBoundary := by
  have hread := h.readToken
  unfold Lexer.next
  split
  · exact ⟨rfl, h⟩
  · split
    · next heq =>
      rw [heq] at hread
      exact hread
    · next heq =>
      rw [heq] at hread
      exact hread

theorem of_seek? {n : Nat} (h : l.seek? n = some l') :
    l'.source = l.source ∧ l'.OnBoundary ∧ l'.finished = l.finished := by
  obtain ⟨rest, hrest, rfl⟩ := Option.map_eq_some_iff.1 h
  obtain ⟨front, hsource, hlength⟩ := Text.eq_append_of_dropBytes hrest
  exact ⟨rfl, ⟨front, hsource, hlength⟩, rfl⟩

/-- The lexers of a text that come about by reading tokens, with the end or without, and by going to
other places of the text. -/
inductive Reachable (s : String) : Lexer → Prop
  | start : Reachable s (ofString s)
  | readToken {l : Lexer} : Reachable s l → Reachable s l.readToken.2
  | next {l : Lexer} : Reachable s l → Reachable s l.next.2
  | seek {l l' : Lexer} {n : Nat} : Reachable s l → l.seek? n = some l' → Reachable s l'

theorem Reachable.onBoundary (h : Reachable s l) : l.source = s.toList ∧ l.OnBoundary := by
  induction h with
  | start => exact ⟨rfl, onBoundary_ofString s⟩
  | readToken _ ih => exact ⟨ih.2.readToken.1.trans ih.1, ih.2.readToken.2⟩
  | next _ ih => exact ⟨ih.2.next.1.trans ih.1, ih.2.next.2⟩
  | seek _ hseek ih => exact ⟨(of_seek? hseek).1.trans ih.1, (of_seek? hseek).2.1⟩

/-! ## Tokens -/

theorem tokens_of_finished (h : l.finished = true) : l.tokens = [] :=
  tokens_of_next_none (next_of_finished h)

/-- The tokens ahead of a lexer are those of the text ahead of it, as far on as the lexer is. -/
theorem tokens_eq_map_shift (hf : l.finished = false) (hrest : l.rest = back.toList) :
    l.tokens = (tokenize back).map (Token.shift l.offset) :=
  tokens_shift rfl hf hrest (Nat.zero_add _).symm

/-- The trivia ahead may be passed first. -/
theorem tokens_passTrivia (hf : l.finished = false) : l.passTrivia.tokens = l.tokens := by
  have hnone : Trivia.split (Trivia.split l.rest).2 = ([], (Trivia.split l.rest).2) :=
    Trivia.split_of_piece?_eq_none (Trivia.piece?_split l.rest)
  refine (tokens_of_split_append hf ?_ hnone).symm
  rw [List.append_nil]

/-- At the place of a token, this token and all later ones lie ahead. -/
theorem exists_lexer_at_token {before after : List Token} {t : Token} (hl : l.OnBoundary)
    (hf : l.finished = false) (htokens : l.tokens = before ++ t :: after) :
    ∃ l' : Lexer, l'.source = l.source ∧ l'.OnBoundary ∧ l'.finished = false ∧
      l'.offset = t.position ∧ l'.tokens = t :: after := by
  induction l, hf using induction_on_tokens generalizing before with
  | last l trivia hf hsplit =>
    have hend := tokens_of_split_nil hf hsplit
    rw [htokens] at hend
    rcases List.append_eq_singleton_iff.1 hend with ⟨rfl, hcons⟩ | ⟨-, hnil⟩
    · refine ⟨l.passTrivia, rfl, hl.passTrivia.1, hf, ?_, (tokens_passTrivia hf).trans htokens⟩
      rw [(List.cons.inj hcons).1, passTrivia, hsplit]
      rfl
    · cases hnil
  | lexeme l trivia c cs x rest hf hsplit hscan ih =>
    have hcons := tokens_of_split_cons hf hsplit hscan
    rw [htokens] at hcons
    cases before with
    | nil =>
      refine ⟨l.passTrivia, rfl, hl.passTrivia.1, hf, ?_, (tokens_passTrivia hf).trans htokens⟩
      rw [(List.cons.inj hcons).1, passTrivia, hsplit]
      rfl
    | cons u before =>
      have happend := Trivia.split_append l.rest
      have hlexeme := Lexeme.scan_append c cs
      rw [hsplit] at happend
      rw [hscan] at hlexeme
      exact ih ((hl.pass happend).pass hlexeme) (List.cons.inj hcons).2.symm

/-- **A lexer goes on from any place of its text**, as long as it has not reported the end. Between
two characters it reports the tokens of the text behind this place, that much further on, with the
end. At the position of a token it reports this token and all later ones. So a saved lexer, which
reports the tokens of the text ahead of it, comes back in every part when another one of the same
text is put at its place. One that has reported the end reports nothing, wherever it is put. -/
theorem seek?_resumes (s : String) :
    (∀ l : Lexer, l.source = s.toList → l.finished = false → ∀ front back, s = front ++ back →
      ∃ l', l.seek? (Text.utf8Length front.toList) = some l' ∧
        l'.tokens = (tokenize back).map (Token.shift (Text.utf8Length front.toList))) ∧
    (∀ l : Lexer, l.source = s.toList → l.finished = false →
      ∀ before t after, tokenize s = before ++ t :: after →
        ∃ l', l.seek? t.position = some l' ∧ l'.tokens = t :: after) ∧
    (∀ saved, Reachable s saved → saved.finished = false →
      (∃ front back, s = front ++ back ∧ saved.offset = Text.utf8Length front.toList ∧
        saved.tokens = (tokenize back).map (Token.shift saved.offset)) ∧
      ∀ later, Reachable s later → later.finished = false →
        later.seek? saved.offset = some saved) ∧
    ∀ l : Lexer, l.finished = true → l.tokens = [] ∧
      ∀ n l', l.seek? n = some l' → l'.tokens = [] := by
  refine ⟨fun l hsource hf front back hs => ?_, fun l hsource hf before t after htokens => ?_,
    fun saved hsaved hf => ⟨?_, fun later hlater hf' => ?_⟩, fun l hf => ⟨?_, fun n l' hseek => ?_⟩⟩
  · rw [hs] at hsource
    exact ⟨_, seek?_utf8Length hsource, tokens_eq_map_shift hf rfl⟩
  · obtain ⟨l', hsource', hboundary, hf', hplace, htokens'⟩ :=
      exists_lexer_at_token (onBoundary_ofString s) rfl htokens
    refine ⟨l', ?_, htokens'⟩
    rw [← hplace]
    exact hboundary.seek?_offset (hsource.trans hsource'.symm) (hf.trans hf'.symm)
  · obtain ⟨hsource, front, hfront, hplace⟩ := hsaved.onBoundary
    refine ⟨String.ofList front, String.ofList saved.rest, ?_, ?_, ?_⟩
    · rw [← String.ofList_append, ← hfront, hsource, String.ofList_toList]
    · rw [String.toList_ofList, hplace]
    · exact tokens_eq_map_shift hf String.toList_ofList.symm
  · obtain ⟨hsource, hboundary⟩ := hsaved.onBoundary
    exact hboundary.seek?_offset (hlater.onBoundary.1.trans hsource.symm) (hf'.trans hf.symm)
  · exact tokens_of_finished hf
  · exact tokens_of_finished ((of_seek? hseek).2.2.trans hf)

/-- A lexer behind all tokens but the end, which is put into a comment, to a token, to the place of
another lexer, and back from the end. -/
theorem seek?_resumes_comment :
    let s := "é /* 12 */ + 'x"
    let saved := (ofString s).next.2
    let l := saved.next.2.next.2
    let final := l.next.2
    let plus : Token := ⟨.operator, "+", 12⟩
    let text : Token := ⟨.illegal, "string literal not terminated", 14⟩
    let last : Token := ⟨.endOfInput, "", 16⟩
    (l.source = s.toList ∧ l.finished = false ∧ l.rest = []) ∧
      (∃ l', l.seek? 5 = some l' ∧ l'.tokens = [⟨.integer, "12", 6⟩, ⟨.operator, "*", 9⟩,
        ⟨.operator, "/", 10⟩, plus, text, last]) ∧
      (∃ l', l.seek? plus.position = some l' ∧ l'.tokens = [plus, text, last]) ∧
      (saved.finished = false ∧ saved.offset = 2 ∧ l.seek? saved.offset = some saved) ∧
      final.finished = true ∧ ∀ n l', final.seek? n = some l' → l'.tokens = [] := by
  intro s saved l final plus text last
  obtain ⟨hplace, htoken, hsaved, hfinal⟩ := seek?_resumes s
  have hl : l.source = s.toList ∧ l.finished = false ∧ l.rest = [] := by decide +kernel
  have hreached : Reachable s saved := .next .start
  have hback : (tokenize " 12 */ + 'x").map (Token.shift 5) = [⟨.integer, "12", 6⟩,
      ⟨.operator, "*", 9⟩, ⟨.operator, "/", 10⟩, plus, text, last] := by decide +kernel
  have htokens : tokenize s
      = [⟨.illegal, "unexpected character 'é'", 0⟩] ++ plus :: [text, last] := by decide +kernel
  have hsavedf : saved.finished = false ∧ saved.offset = 2 := by decide +kernel
  have hfinalf : final.finished = true := by decide +kernel
  refine ⟨hl, ?_, htoken l hl.1 hl.2.1 _ plus _ htokens, ⟨hsavedf.1, hsavedf.2, ?_⟩, hfinalf,
    (hfinal final hfinalf).2⟩
  · rw [← hback]
    exact hplace l hl.1 hl.2.1 "é /*" " 12 */ + 'x" rfl
  · exact (hsaved saved hreached hsavedf.1).2 l (.next (.next hreached)) hl.2.1

end Formula.Lexer
