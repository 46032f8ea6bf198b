import Formula.Proofs.Token.Partition

/-!
# What is skipped in front of a token

Blanks and whole comments are skipped in front of any text that begins with none, whatever this text
is.

* `Trivia.splitLine_append_break`, `Trivia.splitBlock?_append_mark`: one comment in front of a text.
* `Trivia.split_of_skipped`: trivia in front of a text that begins with none; `Trivia.split_eq_iff`
  says that nothing else is skipped.
-/

namespace Formula.Trivia

variable {c : Char} {body piece cs rest : List Char}

theorem piece?_of_ne_slash (h : c ≠ '/') :
    piece? (c :: cs) = if Text.isBlank c then some ([c], cs) else none := by
  unfold piece?
  split
  · next heq => exact absurd (List.cons.inj heq).1 h
  · next heq => exact absurd (List.cons.inj heq).1 h
  · next heq =>
    cases heq
    rfl
  · next heq => cases heq

theorem piece?_blank (h : Text.isBlank c = true) : piece? (c :: cs) = some ([c], cs) := by
  have hslash : c ≠ '/' := by
    rintro rfl
    revert h
    decide
  rw [piece?_of_ne_slash hslash, if_pos h]

theorem split_of_piece?_eq_none (h : piece? cs = none) : split cs = ([], cs) := by
  unfold split
  split
  · rfl
  · next hpiece =>
    rw [h] at hpiece
    cases hpiece

theorem split_of_piece?_eq_some (h : piece? cs = some (piece, rest)) :
    split cs = (piece ++ (split rest).1, (split rest).2) := by
  rw [split]
  split
  · next hnone =>
    rw [h] at hnone
    cases hnone
  · next hsome =>
    rw [h] at hsome
    cases hsome
    rfl

theorem split_blank (h : Text.isBlank c = true) :
    split (c :: cs) = (c :: (split cs).1, (split cs).2) :=
  split_of_piece?_eq_some (piece?_blank h)

/-! ## One comment -/

/-- A line ends with its first line break. -/
theorem splitLine_append_break (h : '\n' ∉ body) :
    splitLine (body ++ '\n' :: cs) = (body ++ ['\n'], cs) := by
  induction body with
  | nil => rfl
  | cons c body ih =>
    obtain ⟨hc, hbody⟩ := not_or.1 (List.mem_cons.not.1 h)
    rw [List.cons_append, splitLine, if_neg (Ne.symm hc), ih hbody]
    rfl

/-- A line without a line break ends with the text. -/
theorem splitLine_of_notMem (h : '\n' ∉ body) : splitLine body = (body, []) := by
  induction body with
  | nil => rfl
  | cons c body ih =>
    obtain ⟨hc, hbody⟩ := not_or.1 (List.mem_cons.not.1 h)
    rw [splitLine, if_neg (Ne.symm hc), ih hbody]

/-- A comment ends with the first end mark. -/
theorem splitBlock?_append_mark (h : ¬ ['*', '/'] <:+: body) :
    splitBlock? (body ++ '*' :: '/' :: cs) = some (body ++ ['*', '/'], cs) := by
  induction body with
  | nil => rfl
  | cons c body ih =>
    obtain ⟨hfront, hbody⟩ := not_or.1 (List.infix_cons_iff.not.1 h)
    rw [List.cons_append]
    unfold splitBlock?
    split
    · next after heq =>
      -- the mark would begin with `c`, and `body` with its slash
      obtain ⟨rfl, hslash⟩ := List.cons.inj heq
      cases body with
      | nil => cases hslash
      | cons d body =>
        obtain ⟨rfl, -⟩ := List.cons.inj hslash
        exact absurd ⟨body, rfl⟩ hfront
    · next heq =>
      cases heq
      rw [ih hbody]
      rfl
    · next heq => cases heq

/-! ## All trivia -/

/-- Only the last comment depends on what follows: it may lack a line break at the end of the
text. -/
theorem Skipped.of_rest {rest rest' : List Char} (h : Skipped rest cs)
    (hrest : rest = [] → rest' = []) : Skipped rest' cs := by
  induction h with
  | nil => exact .nil
  | blank hc _ ih => exact .blank hc ih
  | line hbody _ ih => exact .line hbody ih
  | lastLine hbody hnil => exact .lastLine hbody (hrest hnil)
  | block hbody _ ih => exact .block hbody ih

/-- Trivia are skipped in front of a text that begins with none. -/
theorem split_of_skipped (h : Skipped rest cs) (hrest : piece? rest = none) :
    split (cs ++ rest) = (cs, rest) := by
  induction h with
  | nil => exact split_of_piece?_eq_none hrest
  | @blank c cs hc _ ih =>
    rw [List.cons_append, split_blank hc, ih]
  | @line body cs hbody _ ih =>
    have hpiece : piece? ('/' :: '/' :: (body ++ '\n' :: cs) ++ rest)
        = some ('/' :: '/' :: (body ++ ['\n']), cs ++ rest) := by
      rw [List.cons_append, List.cons_append, List.append_assoc, List.cons_append, piece?,
        splitLine_append_break hbody]
    rw [split_of_piece?_eq_some hpiece, ih]
    simp
  | @lastLine body hbody hnil =>
    have hpiece : piece? ('/' :: '/' :: body) = some ('/' :: '/' :: body, []) := by
      rw [piece?, splitLine_of_notMem hbody]
    rw [hnil, List.append_nil, split_of_piece?_eq_some hpiece, split_of_piece?_eq_none rfl,
      List.append_nil]
  | @block body cs hbody _ ih =>
    have hpiece : piece? ('/' :: '*' :: (body ++ '*' :: '/' :: cs) ++ rest)
        = some ('/' :: '*' :: (body ++ ['*', '/']), cs ++ rest) := by
      rw [List.cons_append, List.cons_append, List.append_assoc, List.cons_append,
        List.cons_append, piece?, splitBlock?_append_mark hbody]
      rfl
    rw [split_of_piece?_eq_some hpiece, ih]
    simp

/-- What is skipped is fixed by what trivia are: they reach up to a text that begins with none. -/
theorem split_eq_iff {trivia : List Char} :
    split cs = (trivia, rest) ↔
      cs = trivia ++ rest ∧ Skipped rest trivia ∧ piece? rest = none := by
  constructor
  · intro h
    have happend := split_append cs
    have hskipped := skipped_split cs
    have hpiece := piece?_split cs
    rw [h] at happend hskipped hpiece
    exact ⟨happend.symm, hskipped, hpiece⟩
  · rintro ⟨rfl, hskipped, hpiece⟩
    exact split_of_skipped hskipped hpiece

end Formula.Trivia
