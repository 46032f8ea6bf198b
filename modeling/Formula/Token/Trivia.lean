import Formula.Text.Blank

/-!
# Blanks and comments

What may stand between tokens: white space, comments from `//` to the end of the line, and comments
from `/*` to the next `*/`. A comment of the second form that is never closed is no trivia.

* `Trivia.piece? cs`: one blank or one comment at the front of a text, and the rest.
* `Trivia.split cs`: all of them, and the rest, which begins with none.
-/

namespace Formula.Trivia

/-- The rest of a line, with the line break that ends it. -/
def splitLine : List Char → List Char × List Char
  | [] => ([], [])
  | c :: cs =>
    if c = '\n' then ([c], cs)
    else
      let (line, rest) := splitLine cs
      (c :: line, rest)

/-- The text up to and with the next end mark of a comment. -/
def splitBlock? : List Char → Option (List Char × List Char)
  | '*' :: '/' :: cs => some (['*', '/'], cs)
  | c :: cs => (splitBlock? cs).map fun (body, rest) => (c :: body, rest)
  | [] => none

/-- One blank or one whole comment at the front of a text, and the rest. -/
def piece? : List Char → Option (List Char × List Char)
  | '/' :: '/' :: cs =>
    let (line, rest) := splitLine cs
    some ('/' :: '/' :: line, rest)
  | '/' :: '*' :: cs => (splitBlock? cs).map fun (body, rest) => ('/' :: '*' :: body, rest)
  | c :: cs => if Text.isBlank c then some ([c], cs) else none
  | [] => none

theorem splitLine_append (cs : List Char) : (splitLine cs).1 ++ (splitLine cs).2 = cs := by
  induction cs with
  | nil => rfl
  | cons c cs ih => by_cases h : c = '\n' <;> simp [splitLine, h, ih]

theorem splitBlock?_append {cs body rest : List Char} (h : splitBlock? cs = some (body, rest)) :
    body ++ rest = cs := by
  fun_induction splitBlock? cs generalizing body rest with
  | case1 cs => simp only [Option.some.injEq, Prod.mk.injEq] at h; simp [← h.1, ← h.2]
  | case2 c cs _ ih =>
    obtain ⟨⟨b, r⟩, hb, he⟩ := Option.map_eq_some_iff.1 h
    simp only [Prod.mk.injEq] at he
    simp [← he.1, ← he.2, ih hb]
  | case3 => simp at h

/-- A piece and the rest make up the text. -/
theorem piece?_append {cs piece rest : List Char} (h : piece? cs = some (piece, rest)) :
    piece ++ rest = cs := by
  unfold piece? at h
  split at h
  · simp only [Option.some.injEq, Prod.mk.injEq] at h
    simp [← h.1, ← h.2, splitLine_append]
  · obtain ⟨⟨b, r⟩, hb, he⟩ := Option.map_eq_some_iff.1 h
    simp only [Prod.mk.injEq] at he
    simp [← he.1, ← he.2, splitBlock?_append hb]
  · split at h <;> simp at h
    simp [← h.1, ← h.2]
  · simp at h

theorem piece?_ne_nil {cs piece rest : List Char} (h : piece? cs = some (piece, rest)) :
    piece ≠ [] := by
  unfold piece? at h
  split at h
  · simp only [Option.some.injEq, Prod.mk.injEq] at h
    simp [← h.1]
  · obtain ⟨⟨b, r⟩, hb, he⟩ := Option.map_eq_some_iff.1 h
    simp only [Prod.mk.injEq] at he
    simp [← he.1]
  · split at h <;> simp at h
    simp [← h.1]
  · simp at h

theorem length_rest_of_piece? {cs piece rest : List Char} (h : piece? cs = some (piece, rest)) :
    rest.length < cs.length := by
  have hl := congrArg List.length (piece?_append h)
  have hp := List.length_pos_iff.2 (piece?_ne_nil h)
  simp only [List.length_append] at hl
  omega

/-- All blanks and comments at the front of a text, and the rest. -/
def split (cs : List Char) : List Char × List Char :=
  match _h : piece? cs with
  | none => ([], cs)
  | some (piece, rest) =>
    let (more, rest) := split rest
    (piece ++ more, rest)
termination_by cs.length
decreasing_by exact length_rest_of_piece? _h

/-- The trivia and the rest make up the text. -/
theorem split_append (cs : List Char) : (split cs).1 ++ (split cs).2 = cs := by
  fun_induction split cs with
  | case1 => rfl
  | case2 cs piece rest h more rest' hs ih =>
    rw [hs] at ih
    simp only [List.append_assoc, ih, piece?_append h]

/-- Nothing is left to skip behind the trivia. -/
theorem piece?_split (cs : List Char) : piece? (split cs).2 = none := by
  fun_induction split cs with
  | case1 cs h => exact h
  | case2 cs piece rest h more rest' hs ih => rw [hs] at ih; exact ih

end Formula.Trivia
