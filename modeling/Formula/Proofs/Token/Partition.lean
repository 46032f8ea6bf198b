import Formula.Token.Lexer
import Mathlib.Logic.Function.Iterate

/-!
# Tokens and trivia divide a source text

Nothing of a source text is lost and nothing is read twice: it consists of the spellings of its
tokens and of the trivia in front of, between and behind them.

* `Text.IsSlice`: what stands between two places of a text, and what stands behind it.
* `Trivia.Skipped rest cs`: `cs` consists of blanks and whole comments; only if `rest` is empty may
  the last line of it be a comment.
* `Lexer.steps`: the tokens that a lexer reports, each with the lexer behind it; `next_iterate` says
  that these are what repeated calls of `Lexer.next` give, and that no more follows.
* `Lexer.Partition`: how tokens divide what lies ahead of a lexer.
* `partition_ofString`: the tokens of a text divide it.
-/

namespace Formula

namespace Text

/-- `cs` stands in a text between two places, which are given in bytes, and `rest` stands behind
it. -/
def IsSlice (source : List Char) (start stop : Nat) (cs rest : List Char) : Prop :=
  ∃ front, source = front ++ (cs ++ rest) ∧ utf8Length front = start ∧
    start + utf8Length cs = stop

variable {source cs rest : List Char} {start stop : Nat}

theorem utf8Length_pos (h : cs ≠ []) : 0 < utf8Length cs := by
  obtain ⟨c, cs, rfl⟩ := List.exists_cons_of_ne_nil h
  have hc := Char.utf8Size_pos c
  rw [utf8Length_cons]
  omega

theorem IsSlice.le (h : IsSlice source start stop cs rest) : start ≤ stop := by
  obtain ⟨_, -, -, hstop⟩ := h
  omega

theorem IsSlice.lt (h : IsSlice source start stop cs rest) (hne : cs ≠ []) : start < stop := by
  obtain ⟨_, -, -, hstop⟩ := h
  have hpos := utf8Length_pos hne
  omega

end Text

/-! ## Trivia -/

namespace Trivia

/-- Blanks and whole comments in front of `rest`. A comment of the first form ends with its line or
with the text; one of the second form ends at the first end mark. -/
inductive Skipped (rest : List Char) : List Char → Prop
  | nil : Skipped rest []
  | blank {c : Char} {cs : List Char} :
      Text.isBlank c = true → Skipped rest cs → Skipped rest (c :: cs)
  | line {body cs : List Char} :
      '\n' ∉ body → Skipped rest cs → Skipped rest ('/' :: '/' :: (body ++ '\n' :: cs))
  | lastLine {body : List Char} :
      '\n' ∉ body → rest = [] → Skipped rest ('/' :: '/' :: body)
  | block {body cs : List Char} :
      ¬ ['*', '/'] <:+: body → Skipped rest cs →
      Skipped rest ('/' :: '*' :: (body ++ '*' :: '/' :: cs))

variable {cs rest : List Char}

/-- A line ends with a line break or with the text. -/
theorem splitLine_cases (cs : List Char) :
    (∃ body, '\n' ∉ body ∧ (splitLine cs).1 = body ++ ['\n']) ∨
      ('\n' ∉ (splitLine cs).1 ∧ (splitLine cs).2 = []) := by
  induction cs with
  | nil => exact .inr ⟨by simp [splitLine], rfl⟩
  | cons c cs ih =>
    by_cases hc : c = '\n'
    · refine .inl ⟨[], by simp, ?_⟩
      simp [splitLine, hc]
    · have hne : ¬ '\n' = c := fun h => hc h.symm
      rcases ih with ⟨body, hbody, hline⟩ | ⟨hline, hrest⟩
      · refine .inl ⟨c :: body, by simp [hne, hbody], ?_⟩
        simp [splitLine, hc, hline]
      · refine .inr ⟨?_, ?_⟩
        · simp [splitLine, hc, hne, hline]
        · simp [splitLine, hc, hrest]

/-- A comment is closed by the first end mark. -/
theorem splitBlock?_eq_some {body : List Char} (h : splitBlock? cs = some (body, rest)) :
    ∃ inner, ¬ ['*', '/'] <:+: inner ∧ body = inner ++ ['*', '/'] := by
  fun_induction splitBlock? cs generalizing body rest with
  | case1 cs =>
    cases h
    exact ⟨[], by simp, rfl⟩
  | case2 c cs hopen ih =>
    obtain ⟨⟨b, r⟩, hb, he⟩ := Option.map_eq_some_iff.1 h
    cases he
    obtain ⟨inner, hinner, rfl⟩ := ih hb
    refine ⟨c :: inner, fun hmark => ?_, rfl⟩
    rcases List.infix_cons_iff.1 hmark with hmark | hmark
    · -- the mark would stand at the front, where it would have closed the comment
      obtain ⟨hc, t, ht⟩ := List.cons_prefix_cons.1 hmark
      have hcs := splitBlock?_append hb
      rw [← ht] at hcs
      exact hopen _ hc.symm hcs.symm
    · exact hinner hmark
  | case3 => cases h

/-- One blank or comment in front of what is skipped. -/
theorem skipped_of_piece? {piece more : List Char} (h : piece? cs = some (piece, more ++ rest))
    (hmore : Skipped rest more) : Skipped rest (piece ++ more) := by
  unfold piece? at h
  split at h
  · next cs =>
    obtain ⟨hpiece, hrest⟩ := Prod.mk.inj (Option.some.inj h)
    rcases splitLine_cases cs with ⟨body, hbody, hline⟩ | ⟨hline, hend⟩
    · rw [← hpiece, hline]
      simpa using Skipped.line hbody hmore
    · rw [hend] at hrest
      obtain ⟨rfl, rfl⟩ := List.append_eq_nil_iff.1 hrest.symm
      rw [← hpiece, List.append_nil]
      exact .lastLine hline rfl
  · obtain ⟨⟨body, r⟩, hbody, he⟩ := Option.map_eq_some_iff.1 h
    cases he
    obtain ⟨inner, hinner, rfl⟩ := splitBlock?_eq_some hbody
    simpa using Skipped.block hinner hmore
  · split at h
    · next hblank =>
      cases h
      exact .blank hblank hmore
    · cases h
  · cases h

/-- Only blanks and whole comments are skipped. -/
theorem skipped_split (cs : List Char) : Skipped (split cs).2 (split cs).1 := by
  fun_induction split cs with
  | case1 => exact .nil
  | case2 cs piece after h more rest hs ih =>
    have happend := split_append after
    rw [hs] at ih happend
    exact skipped_of_piece? (happend ▸ h) ih

end Trivia

/-! ## Lexemes -/

namespace Lexeme

/-- A lexeme that is no end of the input, and has its spelling as its text unless it is illegal. -/
def Faithful (x : Lexeme) : Prop :=
  x.kind ≠ .endOfInput ∧ (x.kind ≠ .illegal → x.text = String.ofList x.spelling)

theorem faithful_plain {kind : TokenKind} (h : kind ≠ .endOfInput) (spelling : List Char) :
    (plain kind spelling).Faithful :=
  ⟨h, fun _ => rfl⟩

theorem faithful_illegal (defect : Defect) (spelling : List Char) :
    (illegal defect spelling).Faithful :=
  ⟨by simp [illegal], fun h => absurd rfl h⟩

theorem Faithful.limited {x : Lexeme} (h : x.Faithful) : x.limited.Faithful := by
  unfold Lexeme.limited
  dsimp only
  split
  · exact faithful_illegal _ _
  · exact h

theorem faithful_ofNumeral (n : Numeral) : (ofNumeral n).Faithful := by
  refine Faithful.limited ?_
  split
  · exact faithful_illegal _ _
  split
  · split
    · exact faithful_plain (by simp) _
    · exact faithful_illegal _ _
  · split
    · exact faithful_plain (by simp) _
    · exact faithful_illegal _ _

theorem faithful_scan (c : Char) (cs : List Char) : (scan c cs).1.Faithful := by
  unfold scan
  split
  · exact faithful_illegal _ _
  split
  · exact faithful_ofNumeral _
  split
  · unfold scanString
    split
    · exact faithful_illegal _ _
    · exact (faithful_plain (by simp) _).limited
  split
  · unfold scanOperator
    split
    · split <;> exact faithful_plain (by simp) _
    · exact faithful_plain (by simp) _
  split
  · exact (faithful_plain (by simp) _).limited
  repeat (split; · exact faithful_plain (by simp) _)
  exact faithful_illegal _ _

end Lexeme

/-! ## Steps of a lexer -/

namespace Lexer

/-- The place of a lexer lies between two characters of its text. -/
def OnBoundary (l : Lexer) : Prop :=
  ∃ front, l.source = front ++ l.rest ∧ Text.utf8Length front = l.offset

theorem onBoundary_ofString (s : String) : (ofString s).OnBoundary := ⟨[], rfl, rfl⟩

section Pass

variable {l : Lexer} {taken rest : List Char}

/-- What a lexer passes is a slice of its text. -/
theorem OnBoundary.isSlice_pass (h : l.OnBoundary) (ht : taken ++ rest = l.rest) :
    Text.IsSlice l.source l.offset (l.pass taken rest).offset taken rest := by
  obtain ⟨front, hsource, hlen⟩ := h
  exact ⟨front, by rw [hsource, ht], hlen, rfl⟩

theorem OnBoundary.pass (h : l.OnBoundary) (ht : taken ++ rest = l.rest) :
    (l.pass taken rest).OnBoundary := by
  obtain ⟨front, hsource, hlen⟩ := h
  refine ⟨front ++ taken, ?_, ?_⟩
  · rw [Lexer.pass, hsource, ← ht, List.append_assoc]
  · rw [Lexer.pass, Text.utf8Length_append, hlen]

end Pass

/-- The tokens that a lexer still reports, each with the lexer behind it. -/
def steps (l : Lexer) : List (Token × Lexer) :=
  match _h : l.next with
  | (none, _) => []
  | (some t, l') => (t, l') :: steps l'
termination_by l.remaining
decreasing_by exact remaining_of_next _h

theorem steps_of_next {l l' : Lexer} {t : Token} (h : l.next = (some t, l')) :
    l.steps = (t, l') :: l'.steps := by
  rw [steps, h]

theorem steps_of_next_none {l l' : Lexer} (h : l.next = (none, l')) : l.steps = [] := by
  rw [steps, h]

theorem next_of_finished {l : Lexer} (h : l.finished = true) : l.next = (none, l) := by
  rw [next, if_pos h]

/-- The steps of a lexer are what repeated calls of `next` give. When they are used up, all further
calls give nothing and leave the lexer as it is. -/
theorem next_iterate (l : Lexer) (n : Nat) :
    ((fun l => l.next.2)^[n] l).next
      = (l.steps[n]?).elim (none, (fun l => l.next.2)^[n] l) fun x => (some x.1, x.2) := by
  induction n generalizing l with
  | zero =>
    rw [Function.iterate_zero, id_eq]
    rcases h : l.next with ⟨_ | t, l'⟩
    · rw [steps_of_next_none h]
      unfold next at h
      split at h
      · rw [← h, List.getElem?_nil, Option.elim_none]
      · split at h <;> cases h
    · rw [steps_of_next h, List.getElem?_cons_zero, Option.elim_some]
  | succ n ih =>
    rw [Function.iterate_succ_apply, ih]
    rcases h : l.next with ⟨_ | t, l'⟩
    · have hl : l' = l := by
        unfold next at h
        split at h
        · exact (congrArg Prod.snd h).symm
        · split at h <;> cases h
      rw [hl, steps_of_next_none h, List.getElem?_nil, List.getElem?_nil]
    · rw [steps_of_next h, List.getElem?_cons_succ]

theorem map_fst_steps (l : Lexer) : l.steps.map Prod.fst = l.tokens := by
  fun_induction steps l with
  | case1 l l' h => rw [tokens_of_next_none h, List.map_nil]
  | case2 l t l' h ih => rw [tokens_of_next h, List.map_cons, ih]

/-! ## One token -/

/-- Between two places of a text there are trivia only. -/
def IsGap (source : List Char) (start stop : Nat) : Prop :=
  ∃ trivia rest, Text.IsSlice source start stop trivia rest ∧ Trivia.Skipped rest trivia

/-- A token takes the text from its position to `stop`, which is not empty, and is what its text
says unless it is illegal. -/
def IsSpan (source : List Char) (t : Token) (stop : Nat) : Prop :=
  ∃ spelling rest, spelling ≠ [] ∧ Text.IsSlice source t.position stop spelling rest ∧
    (t.kind ≠ .illegal → t.text = String.ofList spelling)

section Read

variable {l l' : Lexer} {t : Token}

theorem OnBoundary.offset_of_rest_nil (h : l.OnBoundary) (hr : l.rest = []) :
    l.offset = Text.utf8Length l.source := by
  obtain ⟨front, hsource, hlen⟩ := h
  rw [hsource, hr, List.append_nil, hlen]

theorem OnBoundary.passTrivia (h : l.OnBoundary) :
    l.passTrivia.OnBoundary ∧ IsGap l.source l.offset l.passTrivia.offset := by
  have happend := Trivia.split_append l.rest
  exact ⟨h.pass happend, _, _, h.isSlice_pass happend, Trivia.skipped_split l.rest⟩

/-- A token is read behind trivia, and takes some of the text. -/
theorem of_readToken_some (hl : l.OnBoundary) (h : l.readToken = (some t, l')) :
    l'.OnBoundary ∧ l'.source = l.source ∧ t.kind ≠ .endOfInput ∧
      IsGap l.source l.offset t.position ∧ IsSpan l.source t l'.offset := by
  obtain ⟨hbehind, hgap⟩ := hl.passTrivia
  unfold readToken readLexeme at h
  split at h
  · cases h
  · next c cs hr =>
    cases h
    have happend := (Lexeme.scan_append c cs).trans hr.symm
    obtain ⟨hkind, htext⟩ := Lexeme.faithful_scan c cs
    exact ⟨hbehind.pass happend, rfl, hkind, hgap, _, _, Lexeme.spelling_scan_ne_nil c cs,
      hbehind.isSlice_pass happend, htext⟩

/-- No token is read where only trivia are left. -/
theorem of_readToken_none (hl : l.OnBoundary) (h : l.readToken = (none, l')) :
    l'.OnBoundary ∧ l'.source = l.source ∧ l'.offset = Text.utf8Length l.source ∧
      IsGap l.source l.offset l'.offset := by
  obtain ⟨hbehind, hgap⟩ := hl.passTrivia
  unfold readToken readLexeme at h
  split at h
  · next hr =>
    cases h
    exact ⟨hbehind, rfl, hbehind.offset_of_rest_nil hr, hgap⟩
  · cases h

end Read

/-! ## All tokens -/

/-- The tokens that a lexer reports divide what lies ahead of it: `body` are those in front of the
end of the text, each with the lexer behind it. -/
structure Partition (l : Lexer) (body : List (Token × Lexer)) (final : Lexer) : Prop where
  /-- The last token is that of the end of the text. -/
  steps_eq : l.steps = body ++ [(⟨.endOfInput, "", Text.utf8Length l.source⟩, final)]
  kind_ne : ∀ x ∈ body, x.1.kind ≠ .endOfInput
  /-- Nothing is reported behind it. -/
  finished : final.finished = true
  /-- No token cuts a character in two or leaves the text. -/
  boundary : ∀ x ∈ l.steps, x.2.source = l.source ∧ x.2.OnBoundary
  span : ∀ x ∈ body, IsSpan l.source x.1 x.2.offset
  /-- The tokens do not overlap and come in the order of the text. -/
  increasing : body.Pairwise fun x y => x.2.offset ≤ y.1.position
  /-- In front of each token, and in front of the end of the text, only trivia are skipped. -/
  gap : ∀ x ∈ (l.offset :: body.map (·.2.offset)).zip (l.steps.map (·.1.position)),
    IsGap l.source x.1 x.2

/-- The tokens of a lexer lie ahead of it. -/
theorem Partition.offset_le {l final : Lexer} {body : List (Token × Lexer)}
    (h : l.Partition body final) : ∀ x ∈ body, l.offset ≤ x.1.position := by
  cases body with
  | nil => exact List.forall_mem_nil _
  | cons y body =>
    have hfirst : l.offset ≤ y.1.position := by
      obtain ⟨_, _, hslice, -⟩ := h.gap (l.offset, y.1.position) (by simp [h.steps_eq])
      exact hslice.le
    obtain ⟨_, _, hne, hslice, -⟩ := h.span y (by simp)
    have hlt := hslice.lt hne
    intro x hx
    rcases List.mem_cons.1 hx with rfl | hx
    · exact hfirst
    · have hle := List.rel_of_pairwise_cons h.increasing hx
      omega

theorem partition_of_end {l l' : Lexer}
    (hsteps : l.steps = [(⟨.endOfInput, "", l'.offset⟩, { l' with finished := true })])
    (hl : l'.OnBoundary) (hsource : l'.source = l.source)
    (hoffset : l'.offset = Text.utf8Length l.source) (hgap : IsGap l.source l.offset l'.offset) :
    l.Partition [] { l' with finished := true } where
  steps_eq := by rw [hsteps, ← hoffset, List.nil_append]
  kind_ne := List.forall_mem_nil _
  finished := rfl
  boundary := by
    rw [hsteps]
    exact List.forall_mem_singleton.2 ⟨hsource, hl⟩
  span := List.forall_mem_nil _
  increasing := .nil
  gap := by
    rw [hsteps]
    exact List.forall_mem_singleton.2 hgap

/-- One more token in front of those that divide the rest. -/
theorem Partition.cons {l l' final : Lexer} {t : Token} {body : List (Token × Lexer)}
    (h : l'.Partition body final) (hsteps : l.steps = (t, l') :: l'.steps)
    (hl : l'.OnBoundary) (hsource : l'.source = l.source) (hkind : t.kind ≠ .endOfInput)
    (hgap : IsGap l.source l.offset t.position) (hspan : IsSpan l.source t l'.offset) :
    l.Partition ((t, l') :: body) final where
  steps_eq := by rw [hsteps, h.steps_eq, hsource, List.cons_append]
  kind_ne := List.forall_mem_cons.2 ⟨hkind, h.kind_ne⟩
  finished := h.finished
  boundary := by
    rw [hsteps, ← hsource]
    exact List.forall_mem_cons.2 ⟨⟨rfl, hl⟩, h.boundary⟩
  span := List.forall_mem_cons.2 ⟨hspan, hsource ▸ h.span⟩
  increasing := List.pairwise_cons.2 ⟨h.offset_le, h.increasing⟩
  gap := by
    rw [hsteps, List.map_cons, List.map_cons, List.zip_cons_cons]
    exact List.forall_mem_cons.2 ⟨hgap, hsource ▸ h.gap⟩

/-- What lies ahead of a lexer is divided by the tokens that it reports. -/
theorem exists_partition (l : Lexer) (hl : l.OnBoundary) (hf : l.finished = false) :
    ∃ body final, l.Partition body final := by
  fun_induction steps l with
  | case1 l l' h =>
    unfold next at h
    rw [if_neg (by simp [hf])] at h
    split at h <;> cases h
  | case2 l t l' h ih =>
    have hsteps := steps_of_next h
    unfold next at h
    rw [if_neg (by simp [hf])] at h
    split at h
    · next t' l'' hread =>
      cases h
      obtain ⟨hboundary, hsource, hkind, hgap, hspan⟩ := of_readToken_some hl hread
      have hfin : l'.finished = false := by
        have hfin := l.readToken_finished
        rwa [hread, hf] at hfin
      obtain ⟨body, final, hp⟩ := ih hboundary hfin
      exact ⟨_, final, hp.cons hsteps hboundary hsource hkind hgap hspan⟩
    · next l' hread =>
      cases h
      obtain ⟨hboundary, hsource, hoffset, hgap⟩ := of_readToken_none hl hread
      have hnone : ({ l' with finished := true } : Lexer).steps = [] :=
        steps_of_next_none (next_of_finished rfl)
      rw [hnone] at hsteps
      exact ⟨[], _, partition_of_end hsteps hboundary hsource hoffset hgap⟩

/-- **The tokens of a source text divide it.** Repeated calls of `next` give these tokens and then
nothing any more. Each takes a part of the text that is not empty, and what they leave out is
trivia. -/
theorem partition_ofString (s : String) :
    (∃ body final, (ofString s).Partition body final) ∧
      (ofString s).steps.map Prod.fst = tokenize s ∧
      ∀ n, ((fun l => l.next.2)^[n] (ofString s)).next
        = ((ofString s).steps[n]?).elim (none, (fun l => l.next.2)^[n] (ofString s))
          fun x => (some x.1, x.2) :=
  ⟨exists_partition _ (onBoundary_ofString s) rfl, map_fst_steps _, next_iterate _⟩

end Lexer

end Formula
