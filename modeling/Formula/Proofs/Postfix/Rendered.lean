import Formula.Proofs.Postfix.Permutation
import Formula.Proofs.Token.Boundary
import Formula.Proofs.Token.Partition

/-!
# Printed tokens are read back

A blank behind a token of a source text is enough to read the token again, whatever stands behind
the blank.

* `Token.StandsAlone`: a token that is read from its text behind trivia, in front of any blank and
  at the end of a text. Every legal token of a source text is one (`standsAlone_of_mem_tokenize`).
* `Token.laidOut`: tokens in a row, divided by single blanks.
* `tokenize_render`: printed tokens are read as the same tokens, laid out.
-/

namespace Formula

/-! ## Tokens that stand alone -/

/-- A token is read from its text if nothing follows, or a blank. -/
def Token.StandsAlone (t : Token) : Prop :=
  ∃ c w, t.text.toList = c :: w ∧ ∀ rest, EndsAlike [] rest →
    Trivia.piece? (c :: (w ++ rest)) = none ∧
      Lexeme.scan c (w ++ rest) = (⟨t.kind, t.text, c :: w⟩, rest)

theorem EndsAlike.of_nil {rest : List Char} (h : EndsAlike [] rest) (tail : List Char) :
    EndsAlike tail rest := by
  intro d hd
  rcases h d hd with hblank | ⟨_, hmem, -⟩
  · exact .inl hblank
  · cases hmem

/-- What is read at some place of a text, where nothing is skipped, stands alone. -/
theorem standsAlone_of_scan {c : Char} {cs : List Char} {t : Token}
    (hpiece : Trivia.piece? (c :: cs) = none) (hkind : t.kind = (Lexeme.scan c cs).1.kind)
    (htext : t.text = (Lexeme.scan c cs).1.text) (hlegal : t.kind ≠ .illegal) :
    t.StandsAlone := by
  have hfaithful := (Lexeme.faithful_scan c cs).2
  rcases hscan : Lexeme.scan c cs with ⟨⟨kind, text, spelling⟩, tail⟩
  rw [hscan] at hfaithful hkind htext
  obtain ⟨w, rfl, rfl⟩ := Lexeme.exists_word_of_scan hscan
  have hspelling : t.text = String.ofList (c :: w) :=
    htext.trans (hfaithful fun hk => hlegal (hkind.trans hk))
  refine ⟨c, w, by rw [hspelling, String.toList_ofList], fun rest hrest => ?_⟩
  have hclosed := Lexeme.isClosed_of_kind (x := ⟨kind, text, c :: w⟩) fun hk =>
    hlegal (hkind.trans hk)
  refine ⟨Trivia.piece?_of_endsAlike hpiece hscan (.inl hclosed) (hrest.of_nil tail), ?_⟩
  rw [Lexeme.scan_of_endsAlike hscan (.inl hclosed) (hrest.of_nil tail), hkind, htext]

theorem Lexer.standsAlone_of_next {l l' : Lexer} {t : Token} (h : l.next = (some t, l'))
    (hlegal : t.kind ≠ .illegal) (hend : t.kind ≠ .endOfInput) : t.StandsAlone := by
  unfold next at h
  split at h
  · cases h
  · split at h
    · next u l'' hread =>
      cases h
      have hpiece := Trivia.piece?_split l.rest
      unfold readToken readLexeme at hread
      split at hread
      · cases hread
      · next c cs hrest =>
        rw [show (Trivia.split l.rest).2 = c :: cs from hrest] at hpiece
        cases hread
        exact standsAlone_of_scan hpiece rfl rfl hlegal
    · cases h
      exact absurd rfl hend

/-- Every legal token of a source text but that of its end stands alone. -/
theorem standsAlone_of_mem_tokenize {s : String} {t : Token} (h : t ∈ tokenize s)
    (hlegal : t.kind ≠ .illegal) (hend : t.kind ≠ .endOfInput) : t.StandsAlone :=
  Lexer.of_mem_tokens (P := fun t => t.kind ≠ .illegal → t.kind ≠ .endOfInput → t.StandsAlone)
    Lexer.standsAlone_of_next h hlegal hend

/-! ## Tokens in a row -/

/-- Tokens in a row from the beginning of a text, divided by single blanks, and the end of the
text. -/
def Token.laidOut (ts : List Token) : List Token :=
  ts.mapIdx (fun i t => { t with position := ((ts.take i).map width).sum + i })
    ++ [⟨.endOfInput, "", Text.utf8Length (render ts).toList⟩]

/-- The texts of tokens, each behind a blank. -/
def Token.spaced (ts : List Token) : List Char := ts.flatMap fun t => ' ' :: t.text.toList

theorem spaced_cons (t : Token) (ts : List Token) :
    Token.spaced (t :: ts) = ' ' :: (t.text.toList ++ Token.spaced ts) := rfl

theorem toList_render_cons (t : Token) (ts : List Token) :
    (Token.render (t :: ts)).toList = t.text.toList ++ Token.spaced ts := by
  induction ts generalizing t with
  | nil => simp [Token.render, Token.spaced]
  | cons u ts ih =>
    have hu := ih u
    simp only [Token.render, Token.spaced, List.map_cons, List.flatMap_cons] at hu ⊢
    rw [String.intercalate_cons_cons, String.toList_append, String.toList_append, hu,
      List.append_assoc]
    rfl

theorem endsAlike_spaced (ts : List Token) : EndsAlike [] (Token.spaced ts) := by
  cases ts with
  | nil => exact endsAlike_nil []
  | cons t ts => exact endsAlike_blank (by decide) [] _

/-- A token that stands alone is read, with at most one blank in front of it. -/
theorem Lexer.tokens_of_word {l : Lexer} {gap : List Char} {t : Token} {ts : List Token}
    (hf : l.finished = false) (hgap : gap = [] ∨ gap = [' ']) (ht : t.StandsAlone)
    (hrest : l.rest = gap ++ (t.text.toList ++ Token.spaced ts)) :
    ∃ l' : Lexer, l.tokens = { t with position := l.offset + gap.length } :: l'.tokens ∧
      l'.finished = false ∧ l'.rest = Token.spaced ts ∧
      l'.offset = l.offset + gap.length + t.width := by
  obtain ⟨c, w, htext, halone⟩ := ht
  obtain ⟨hpiece, hscan⟩ := halone _ (endsAlike_spaced ts)
  rw [htext, List.cons_append] at hrest
  have hword := Trivia.split_of_piece?_eq_none hpiece
  have hsplit : Trivia.split l.rest = (gap, c :: (w ++ Token.spaced ts)) := by
    rcases hgap with rfl | rfl
    · rw [hrest, List.nil_append, hword]
    · rw [hrest, List.singleton_append, Trivia.split_blank (by decide), hword]
  have hlength : Text.utf8Length gap = gap.length := by rcases hgap with rfl | rfl <;> rfl
  have htokens := tokens_of_split_cons hf hsplit hscan
  rw [hlength] at htokens
  refine ⟨_, htokens, hf, rfl, ?_⟩
  rw [Token.width, htext, ← hlength]
  rfl

/-- Tokens behind blanks are read one by one. -/
theorem Lexer.tokens_of_spaced {l : Lexer} {ts : List Token} (hf : l.finished = false)
    (hts : ∀ t ∈ ts, t.StandsAlone) (hrest : l.rest = Token.spaced ts) :
    l.tokens = ts.mapIdx (fun i t =>
        { t with position := l.offset + 1 + (((ts.take i).map Token.width).sum + i) })
      ++ [⟨.endOfInput, "", l.offset + Text.utf8Length (Token.spaced ts)⟩] := by
  induction ts generalizing l with
  | nil =>
    have hsplit : Trivia.split l.rest = ([], []) := by
      rw [hrest]
      exact Trivia.split_of_piece?_eq_none rfl
    exact tokens_of_split_nil hf hsplit
  | cons t ts ih =>
    obtain ⟨ht, hts⟩ := List.forall_mem_cons.1 hts
    obtain ⟨l', htokens, hf', hrest', hoffset⟩ := tokens_of_word hf (.inr rfl) ht hrest
    have hposition : ∀ i, l'.offset + 1 + (((ts.take i).map Token.width).sum + i)
        = l.offset + 1 + ((((t :: ts).take (i + 1)).map Token.width).sum + (i + 1)) := by
      intro i
      rw [List.take_succ_cons, List.map_cons, List.sum_cons, hoffset, List.length_singleton]
      omega
    have hlength : l'.offset + Text.utf8Length (Token.spaced ts)
        = l.offset + Text.utf8Length (Token.spaced (t :: ts)) := by
      have hblank : Char.utf8Size ' ' = 1 := by decide
      rw [spaced_cons, Text.utf8Length_cons, Text.utf8Length_append, hblank, hoffset,
        List.length_singleton, Token.width]
      omega
    rw [htokens, ih hf' hts hrest', List.mapIdx_cons, List.cons_append, hlength]
    simp only [hposition]
    rfl

/-- Printed tokens that stand alone are read as they are laid out. -/
theorem tokenize_render_of_standsAlone {ts : List Token} (hts : ∀ t ∈ ts, t.StandsAlone) :
    tokenize (Token.render ts) = Token.laidOut ts := by
  cases ts with
  | nil => exact Lexer.tokens_of_spaced rfl hts rfl
  | cons t ts =>
    obtain ⟨ht, hts⟩ := List.forall_mem_cons.1 hts
    have hrender := toList_render_cons t ts
    obtain ⟨l, htokens, hf, hrest, hoffset⟩ :=
      Lexer.tokens_of_word (l := .ofString (Token.render (t :: ts))) rfl (.inl rfl) ht hrender
    have hoffset : l.offset = t.width := hoffset.trans (Nat.zero_add _)
    rw [tokenize, htokens, Lexer.tokens_of_spaced hf hts hrest, Token.laidOut, hrender,
      Text.utf8Length_append, List.mapIdx_cons, List.cons_append, hoffset]
    simp only [List.take_succ_cons, List.map_cons, List.sum_cons, Nat.add_assoc, Nat.add_comm 1]
    rfl

/-- The tokens of a conversion come from the expression and are legal. -/
theorem of_mem_convertExpression {ctx : Context} {s : String} {ts : List Token} {t : Token}
    (h : convertExpression ctx s = .ok ts) (ht : t ∈ ts) :
    t.kind ≠ .illegal ∧ t.kind ≠ .endOfInput ∧ t ∈ tokenize s := by
  obtain ⟨hinput, hreleased⟩ := mem_convertTokens h ht
  exact ⟨legal_of_collect h t ht, hreleased.ne_endOfInput, hinput⟩

/-- **Printed tokens are read back.** Legal tokens of any source texts, in any order, divided by
blanks, are read as the same tokens in this order, each behind the texts and blanks in front of it.
So is every postfix form that a conversion gives. -/
theorem tokenize_render :
    (∀ ts : List Token,
      (∀ t ∈ ts, t.kind ≠ .illegal ∧ t.kind ≠ .endOfInput ∧ ∃ s, t ∈ tokenize s) →
      tokenize (Token.render ts) = Token.laidOut ts) ∧
    ∀ (ctx : Context) (s : String) (ts : List Token), convertExpression ctx s = .ok ts →
      tokenize (Token.render ts) = Token.laidOut ts := by
  refine ⟨fun ts hts => tokenize_render_of_standsAlone fun t ht => ?_,
    fun ctx s ts h => tokenize_render_of_standsAlone fun t ht => ?_⟩
  · obtain ⟨hlegal, hend, s, hs⟩ := hts t ht
    exact standsAlone_of_mem_tokenize hs hlegal hend
  · obtain ⟨hlegal, hend, hs⟩ := of_mem_convertExpression h ht
    exact standsAlone_of_mem_tokenize hs hlegal hend

/-- Slashes, stars and points that would make other tokens without the blanks, and the postfix form
of a call. -/
theorem tokenize_render_slashes :
    let ts := (tokenize "= < 1..5 '*/' * / /").dropLast.reverse
    let out : List Token := [⟨.integer, "1", 0⟩, ⟨.integer, "2", 8⟩, ⟨.identifier, "max", 4⟩,
      ⟨.operator, "+", 2⟩]
    (∀ t ∈ ts, t.kind ≠ .illegal ∧ t.kind ≠ .endOfInput ∧ ∃ s, t ∈ tokenize s) ∧
      Token.render ts = "/ / * '*/' .5 1. < =" ∧
      tokenize (Token.render ts) = Token.laidOut ts ∧
      convertExpression .default "1 + max(2)" = .ok out ∧
      tokenize (Token.render out) = [⟨.integer, "1", 0⟩, ⟨.integer, "2", 2⟩,
        ⟨.identifier, "max", 4⟩, ⟨.operator, "+", 8⟩, ⟨.endOfInput, "", 9⟩] := by
  intro ts out
  have hkind : ∀ t ∈ ts, t.kind ≠ .illegal ∧ t.kind ≠ .endOfInput := by decide +kernel
  have hts : ∀ t ∈ ts, t.kind ≠ .illegal ∧ t.kind ≠ .endOfInput ∧ ∃ s, t ∈ tokenize s :=
    fun t ht => ⟨(hkind t ht).1, (hkind t ht).2, _,
      List.dropLast_subset _ (List.mem_reverse.1 ht)⟩
  have hconvert : convertExpression .default "1 + max(2)" = .ok out := by decide +kernel
  have hlaid : Token.laidOut out = [⟨.integer, "1", 0⟩, ⟨.integer, "2", 2⟩,
      ⟨.identifier, "max", 4⟩, ⟨.operator, "+", 8⟩, ⟨.endOfInput, "", 9⟩] := by decide +kernel
  exact ⟨hts, by decide +kernel, tokenize_render.1 ts hts, hconvert,
    (tokenize_render.2 .default _ out hconvert).trans hlaid⟩

end Formula
