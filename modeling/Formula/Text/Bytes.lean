/-!
# Lengths and cuts in UTF-8 bytes

Positions in a source text count the bytes of its UTF-8 form, while the text itself is handled as
a list of characters.

* `utf8Length cs`: the number of bytes of `cs`; it is additive over `++`.
* `dropBytes n cs`: what is left of `cs` after its first `n` bytes, if these end on a character.
-/

namespace Formula.Text

/-- The number of bytes that `cs` takes in UTF-8. -/
def utf8Length : List Char → Nat
  | [] => 0
  | c :: cs => c.utf8Size + utf8Length cs

@[simp] theorem utf8Length_nil : utf8Length [] = 0 := rfl

@[simp] theorem utf8Length_cons (c : Char) (cs : List Char) :
    utf8Length (c :: cs) = c.utf8Size + utf8Length cs := rfl

@[simp] theorem utf8Length_append (cs ds : List Char) :
    utf8Length (cs ++ ds) = utf8Length cs + utf8Length ds := by
  induction cs with
  | nil => simp
  | cons c cs ih => simp [ih, Nat.add_assoc]

/-- The text after the first `n` bytes; nothing if these end inside a character or past the end. -/
def dropBytes (n : Nat) : List Char → Option (List Char)
  | [] => if n = 0 then some [] else none
  | c :: cs =>
    if n = 0 then some (c :: cs)
    else if c.utf8Size ≤ n then dropBytes (n - c.utf8Size) cs else none

@[simp] theorem dropBytes_zero (cs : List Char) : dropBytes 0 cs = some cs := by
  cases cs <;> simp [dropBytes]

/-- Cutting at the end of a first part leaves the second. -/
theorem dropBytes_append (cs ds : List Char) :
    dropBytes (utf8Length cs) (cs ++ ds) = some ds := by
  induction cs with
  | nil => simp
  | cons c cs ih =>
    have hc : c.utf8Size ≠ 0 := Nat.ne_of_gt (Char.utf8Size_pos c)
    simp [dropBytes, hc, ih]

/-- A cut never changes the characters: it only splits the text in two. -/
theorem eq_append_of_dropBytes {n : Nat} {cs ds : List Char} (h : dropBytes n cs = some ds) :
    ∃ front, cs = front ++ ds ∧ utf8Length front = n := by
  induction cs generalizing n with
  | nil =>
    by_cases hn : n = 0 <;> simp [dropBytes, hn] at h
    exact ⟨[], by simp [h], by simp [hn]⟩
  | cons c cs ih =>
    by_cases hn : n = 0
    · simp [dropBytes, hn] at h
      exact ⟨[], by simp [h], by simp [hn]⟩
    · by_cases hc : c.utf8Size ≤ n <;> simp [dropBytes, hn, hc] at h
      obtain ⟨front, rfl, hlen⟩ := ih h
      exact ⟨c :: front, by simp, by simp [hlen]; omega⟩

end Formula.Text
