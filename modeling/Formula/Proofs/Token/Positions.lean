import Formula.Proofs.Token.Partition
import Mathlib.Data.List.Nodup

/-!
# Positions of tokens

* `Text.IsAt`: a text stands in a source from a position on.
* `tokenize_eq`: the tokens of a source text, taken from its partition.
* `pairwise_position_tokenize`: positions increase, so no two tokens have one
  (`eq_of_position_eq`).
* `isAt_of_mem_tokenize`: the text of a token stands where its position says.
-/

namespace Formula

/-- A text stands in a source from a position on. -/
def Text.IsAt (source : String) (position : Nat) (text : String) : Prop :=
  ∃ stop rest, Text.IsSlice source.toList position stop text.toList rest

variable {s : String} {t u : Token}

theorem tokenize_eq (s : String) :
    ∃ body final, (Lexer.ofString s).Partition body final ∧
      tokenize s = body.map Prod.fst ++ [⟨.endOfInput, "", Text.utf8Length s.toList⟩] := by
  obtain ⟨body, final, h⟩ := Lexer.exists_partition _ (Lexer.onBoundary_ofString s) rfl
  refine ⟨body, final, h, ?_⟩
  rw [tokenize, ← Lexer.map_fst_steps, h.steps_eq, List.map_append]
  rfl

theorem Lexer.IsSpan.lt {source : List Char} {stop : Nat} (h : IsSpan source t stop) :
    t.position < stop := by
  obtain ⟨_, _, hne, hslice, -⟩ := h
  exact hslice.lt hne

theorem Lexer.IsSpan.le {source : List Char} {stop : Nat} (h : IsSpan source t stop) :
    stop ≤ Text.utf8Length source := by
  obtain ⟨_, _, -, ⟨front, rfl, hfront, hstop⟩, -⟩ := h
  rw [Text.utf8Length_append, Text.utf8Length_append]
  omega

/-- The positions of the tokens of a source text increase. -/
theorem pairwise_position_tokenize (s : String) :
    (tokenize s).Pairwise fun t u => t.position < u.position := by
  obtain ⟨body, final, h, htokens⟩ := tokenize_eq s
  rw [htokens, List.pairwise_append, List.pairwise_map]
  refine ⟨h.increasing.imp_of_mem fun hx _ hle => ?_, List.pairwise_singleton _ _, ?_⟩
  · exact Nat.lt_of_lt_of_le (h.span _ hx).lt hle
  · simp only [List.forall_mem_map, List.forall_mem_singleton]
    exact fun x hx => Nat.lt_of_lt_of_le (h.span x hx).lt (h.span x hx).le

theorem nodup_position_tokenize (s : String) : ((tokenize s).map Token.position).Nodup :=
  List.pairwise_map.2 ((pairwise_position_tokenize s).imp Nat.ne_of_lt)

/-- No two tokens of a source text have one position. -/
theorem eq_of_position_eq (ht : t ∈ tokenize s) (hu : u ∈ tokenize s)
    (h : t.position = u.position) : t = u :=
  List.inj_on_of_nodup_map (nodup_position_tokenize s) ht hu h

/-- The text of a token stands in the source where the position of the token says, unless it is a
diagnosis. -/
theorem isAt_of_mem_tokenize (ht : t ∈ tokenize s) (hlegal : t.kind ≠ .illegal) :
    Text.IsAt s t.position t.text := by
  obtain ⟨body, final, h, htokens⟩ := tokenize_eq s
  rw [htokens, List.mem_append, List.mem_map, List.mem_singleton] at ht
  rcases ht with ⟨x, hx, rfl⟩ | rfl
  · obtain ⟨spelling, rest, -, hslice, htext⟩ := h.span x hx
    refine ⟨x.2.offset, rest, ?_⟩
    rw [htext hlegal, String.toList_ofList]
    exact hslice
  · exact ⟨_, [], s.toList, by simp, rfl, rfl⟩

end Formula
