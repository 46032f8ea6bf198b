import Formula.Builtin
import Formula.Proofs.Postfix.Interleaving
import Formula.Proofs.Postfix.Origin
import Mathlib.Logic.Function.Iterate

/-!
# How far a conversion reads

A conversion asks its input for a token only when it has nothing to give, and no more often than it
has to. What it has not asked for makes no difference.

* `Conversion.ask`: one attempt to read a token, or to find the input exhausted.
  `Conversion.attempts`: how many of them the next call makes (`fill_eq`).
* `Conversion.reading`, `Conversion.produced`: a conversion behind some attempts from which nothing
  has been taken, and its output.
* `Conversion.afterCalls`, `Conversion.item?`, `Conversion.asked`: a conversion behind some calls,
  what the next one gives, and how many attempts were made.
* `Conversion.Settled`: it is known what a call gives. `settled_asked`, `not_settled_of_lt_asked`:
  a call asks until this is so.
* `isFinal`: items behind which nothing is put out.
* `Conversion.execute`: items that are executed as they come.
* `Conversion.calls_are_lazy`: all of this for any number of calls.
-/

namespace Formula

/-- Whether a conversion has come to its end, or has failed. -/
def Progress.isOver : Progress → Bool
  | .waiting _ => false
  | .done => true
  | .failed _ => true

namespace Conversion

/-! ## Attempts -/

/-- An attempt to read: the converter gets the next token, or the end of the input. -/
def ask (operators : Operators) (s : Conversion) : Conversion :=
  match s.input with
  | [] => ⟨[], s.converter.accept operators none⟩
  | t :: input => ⟨input, s.converter.accept operators (some t)⟩

/-- How many attempts `fill` makes: one for each token that it reads, and one more if it finds the
input exhausted. -/
def attempts (operators : Operators) : List Token → Converter → Nat
  | [], c => if c.hungry then 1 else 0
  | t :: input, c =>
    if c.hungry then attempts operators input (c.accept operators (some t)) + 1 else 0

/-- A conversion behind `n` attempts from which nothing has been taken. -/
def reading (operators : Operators) (input : List Token) (n : Nat) : Conversion :=
  (ask operators)^[n] (start input)

/-- What `n` attempts put out. -/
def produced (operators : Operators) (input : List Token) (n : Nat) : List Item :=
  (reading operators input n).converter.queue

/-- The attempts after which it is known what call `k` gives: its item has been put out, or there
will be none. The first call is call 0. -/
def Settled (operators : Operators) (input : List Token) (k n : Nat) : Prop :=
  (reading operators input n).converter.progress.isOver = true ∨
    k < (produced operators input n).length

/-! ## Calls -/

/-- A conversion behind `k` calls. -/
def afterCalls (operators : Operators) (input : List Token) (k : Nat) : Conversion :=
  (fun s => (s.next operators).2)^[k] (start input)

/-- What call `k` gives. -/
def item? (operators : Operators) (input : List Token) (k : Nat) : Option Item :=
  ((afterCalls operators input k).next operators).1

/-- How many attempts the first `k` calls make. -/
def asked (operators : Operators) (input : List Token) : Nat → Nat
  | 0 => 0
  | k + 1 =>
    let s := afterCalls operators input k
    asked operators input k + attempts operators s.input s.converter

/-- A conversion without its first `k` items. -/
def dropItems (k : Nat) (s : Conversion) : Conversion :=
  ⟨s.input, ⟨s.converter.progress, s.converter.queue.drop k⟩⟩

section Attempts

variable {operators : Operators} {input input' : List Token} {c : Converter} {s : Conversion}
  {k m n i : Nat}

theorem fill_eq (operators : Operators) (input : List Token) (c : Converter) :
    fill operators input c = (ask operators)^[attempts operators input c] ⟨input, c⟩ := by
  induction input generalizing c with
  | nil =>
    rw [fill, attempts]
    split <;> rfl
  | cons t input ih =>
    rw [fill, attempts]
    split
    · rw [ih, Function.iterate_succ_apply]
      rfl
    · rfl

/-- Each attempt is made because there is nothing to give. -/
theorem hungry_of_lt_attempts (h : i < attempts operators input c) :
    ((ask operators)^[i] ⟨input, c⟩).converter.hungry = true := by
  induction input generalizing c i with
  | nil =>
    rw [attempts] at h
    split at h
    · next hungry =>
      obtain rfl : i = 0 := by omega
      exact hungry
    · exact absurd h (Nat.not_lt_zero i)
  | cons t input ih =>
    rw [attempts] at h
    split at h
    · next hungry =>
      cases i with
      | zero => exact hungry
      | succ i =>
        rw [Function.iterate_succ_apply]
        exact ih (Nat.lt_of_succ_lt_succ h)
    · exact absurd h (Nat.not_lt_zero i)

theorem hungry_iff : c.hungry = true ↔ c.progress.isOver = false ∧ c.queue = [] := by
  obtain ⟨progress, queue⟩ := c
  cases progress <;> cases queue <;> simp [Converter.hungry, Progress.isOver]

theorem hungry_dropItems :
    (s.dropItems k).converter.hungry = true ↔
      ¬(s.converter.progress.isOver = true ∨ k < s.converter.queue.length) := by
  rw [hungry_iff, dropItems, List.drop_eq_nil_iff, not_or, Bool.not_eq_true, Nat.not_lt]

theorem attempts_of_ne_nil (operators : Operators) (input : List Token) (h : c.queue ≠ []) :
    attempts operators input c = 0 := by
  have hungry : ¬c.hungry = true := fun hungry => h (hungry_iff.1 hungry).2
  cases input <;> rw [attempts, if_neg hungry]

theorem input_take (s : Conversion) : s.take.2.input = s.input := by
  unfold take
  split <;> rfl

/-- Nothing is asked for while something is left to take. -/
theorem input_next (operators : Operators) (h : s.converter.queue ≠ []) :
    attempts operators s.input s.converter = 0 ∧ (s.next operators).2.input = s.input := by
  have hnone := attempts_of_ne_nil operators s.input h
  refine ⟨hnone, ?_⟩
  rw [next, fill_eq, hnone, input_take]
  rfl

/-! ## What attempts put out -/

theorem reading_succ (operators : Operators) (input : List Token) (n : Nat) :
    reading operators input (n + 1) = (reading operators input n).ask operators :=
  Function.iterate_succ_apply' ..

/-- An attempt adds to what has been put out. -/
theorem queue_ask (operators : Operators) (s : Conversion) :
    ∃ items, (s.ask operators).converter.queue = s.converter.queue ++ items := by
  obtain ⟨input, progress, queue⟩ := s
  cases progress <;> cases input <;>
    first | exact ⟨_, rfl⟩ | exact ⟨[], (List.append_nil queue).symm⟩

/-- A conversion that is over reads nothing into its queue. -/
theorem ask_of_isOver (h : s.converter.progress.isOver = true) :
    (s.ask operators).converter = s.converter := by
  obtain ⟨input, progress, queue⟩ := s
  cases progress with
  | waiting stack => cases h
  | done | failed e => cases input <;> rfl

theorem ask_dropItems (h : s.converter.progress.isOver = true ∨ k ≤ s.converter.queue.length) :
    (s.dropItems k).ask operators = (s.ask operators).dropItems k := by
  obtain ⟨input, progress, queue⟩ := s
  cases progress with
  | waiting stack =>
    have hle : k ≤ queue.length := h.resolve_left Bool.false_ne_true
    cases input <;> simp only [ask, dropItems, Converter.accept, List.drop_append_of_le_length hle]
  | done | failed e => cases input <;> rfl

theorem produced_mono (operators : Operators) (input : List Token) (h : m ≤ n) :
    produced operators input m <+: produced operators input n := by
  induction h with
  | refl => exact List.prefix_rfl
  | @step n _ ih =>
    obtain ⟨items, hitems⟩ := queue_ask operators (reading operators input n)
    rw [← reading_succ] at hitems
    exact ih.trans ⟨items, hitems.symm⟩

theorem reading_of_isOver (h : (reading operators input m).converter.progress.isOver = true)
    (hmn : m ≤ n) :
    (reading operators input n).converter = (reading operators input m).converter := by
  induction hmn with
  | refl => rfl
  | @step n _ ih =>
    have hover : (reading operators input n).converter.progress.isOver = true := by rwa [ih]
    rw [reading_succ, ask_of_isOver hover, ih]

theorem pending_ask (operators : Operators) (s : Conversion) :
    (s.ask operators).pending operators = s.pending operators := by
  obtain ⟨input, progress, queue⟩ := s
  cases progress with
  | waiting stack =>
    cases input with
    | nil =>
      simp only [ask, Converter.accept, pending, releases, List.flatMap_cons, List.flatMap_nil,
        List.append_nil, List.append_assoc, convertEnd]
      split <;> simp
    | cons t input =>
      simp only [ask, Converter.accept, pending, releases, List.flatMap_cons, List.append_assoc]
      split <;> simp
  | done | failed e => cases input <;> rfl

theorem pending_reading (operators : Operators) (input : List Token) (n : Nat) :
    (reading operators input n).pending operators = convertItems operators input := by
  induction n with
  | zero => exact pending_start operators input
  | succ n ih => rw [reading_succ, pending_ask, ih]

/-- What has been put out is a first part of the output. -/
theorem produced_prefix_convertItems (operators : Operators) (input : List Token) (n : Nat) :
    produced operators input n <+: convertItems operators input := by
  rw [← pending_reading operators input n]
  exact List.prefix_append ..

/-- The whole output of a conversion that is over has been put out. -/
theorem produced_of_isOver (h : (reading operators input n).converter.progress.isOver = true) :
    produced operators input n = convertItems operators input := by
  rw [← pending_reading operators input n, pending, produced]
  cases hp : (reading operators input n).converter.progress with
  | waiting stack => rw [hp] at h; cases h
  | done | failed e => exact (List.append_nil _).symm

theorem getElem?_produced (h : Settled operators input k n) :
    (produced operators input n)[k]? = (convertItems operators input)[k]? := by
  rcases h with hover | hlt
  · rw [produced_of_isOver hover]
  · obtain ⟨rest, hrest⟩ := produced_prefix_convertItems operators input n
    rw [← hrest, List.getElem?_append_left hlt]

theorem input_reading (operators : Operators) (input : List Token) (n : Nat) :
    (reading operators input n).input = input.drop n := by
  induction n with
  | zero => rfl
  | succ n ih =>
    rw [reading_succ, ← List.tail_drop, ← ih]
    unfold ask
    split
    · next hinput => rw [hinput, List.tail_nil]
    · next hinput => rw [hinput, List.tail_cons]

theorem converter_reading_succ (operators : Operators) (input : List Token) (n : Nat) :
    (reading operators input (n + 1)).converter
      = (reading operators input n).converter.accept operators input[n]? := by
  rw [reading_succ, ← List.head?_drop, ← input_reading operators input n]
  unfold ask
  split
  · next hinput => rw [hinput, List.head?_nil]
  · next hinput => rw [hinput, List.head?_cons]

/-- What has not been asked for makes no difference. -/
theorem reading_congr (h : input'.take n = input.take n) (hmn : m ≤ n) :
    (reading operators input' m).converter = (reading operators input m).converter := by
  induction m with
  | zero => rfl
  | succ m ih =>
    have hlt : m < n := hmn
    have hnext : input'[m]? = input[m]? := by
      simpa [List.getElem?_take, hlt] using congrArg (·[m]?) h
    rw [converter_reading_succ, converter_reading_succ, ih (Nat.le_of_succ_le hmn), hnext]

theorem settled_congr (h : input'.take n = input.take n) (hmn : m ≤ n) :
    Settled operators input' k m ↔ Settled operators input k m := by
  rw [Settled, Settled, produced, produced, reading_congr h hmn]

end Attempts

/-! ## What calls give -/

section Calls

variable {operators : Operators} {input input' : List Token} {k m n j : Nat}

theorem afterCalls_succ (operators : Operators) (input : List Token) (k : Nat) :
    afterCalls operators input (k + 1) = ((afterCalls operators input k).next operators).2 :=
  Function.iterate_succ_apply' ..

/-- To take items out changes nothing for the attempts that follow. -/
theorem iterate_ask_dropItems (i : Nat)
    (h : (reading operators input m).converter.progress.isOver = true ∨
      k ≤ (produced operators input m).length) :
    (ask operators)^[i] ((reading operators input m).dropItems k)
      = (reading operators input (m + i)).dropItems k := by
  induction i with
  | zero => rfl
  | succ i ih =>
    have hlater : (reading operators input (m + i)).converter.progress.isOver = true ∨
        k ≤ (reading operators input (m + i)).converter.queue.length := by
      rcases h with hover | hle
      · left
        rwa [reading_of_isOver hover (Nat.le_add_right m i)]
      · right
        exact Nat.le_trans hle (produced_mono operators input (Nat.le_add_right m i)).length_le
    rw [Function.iterate_succ_apply', ih, ask_dropItems hlater, ← reading_succ, Nat.add_assoc]

theorem take_dropItems (k : Nat) (s : Conversion) :
    (s.dropItems k).take = (s.converter.queue[k]?, s.dropItems (k + 1)) := by
  have htail : s.converter.queue.drop (k + 1) = (s.converter.queue.drop k).tail :=
    List.tail_drop.symm
  rw [← List.head?_drop]
  unfold take dropItems
  rw [htail]
  cases s.converter.queue.drop k <;> rfl

/-- One more call behind calls that left a conversion from which nothing had been taken, but for
`k` items. -/
theorem next_dropItems {s : Conversion} (hs : s = (reading operators input m).dropItems k)
    (h : (reading operators input m).converter.progress.isOver = true ∨
      k ≤ (produced operators input m).length) :
    let n := m + attempts operators s.input s.converter
    (Settled operators input k n ∧ ∀ i, m ≤ i → i < n → ¬Settled operators input k i) ∧
      s.next operators
        = ((produced operators input n)[k]?, (reading operators input n).dropItems (k + 1)) := by
  intro n
  have hfill : fill operators s.input s.converter = (reading operators input n).dropItems k := by
    rw [fill_eq, ← iterate_ask_dropItems _ h, ← hs]
  refine ⟨⟨?_, fun i hmi hin => ?_⟩, ?_⟩
  · have hungry := hungry_fill operators s.input s.converter
    rw [hfill, ← Bool.not_eq_true, hungry_dropItems, Classical.not_not] at hungry
    exact hungry
  · have hungry : ((ask operators)^[i - m] s).converter.hungry = true :=
      hungry_of_lt_attempts (by omega)
    rw [hs, iterate_ask_dropItems _ h, Nat.add_sub_cancel' hmi, hungry_dropItems] at hungry
    exact hungry
  · rw [next, hfill, take_dropItems]
    rfl

/-- A conversion behind some calls is one from which nothing has been taken, without the items that
they gave. -/
theorem afterCalls_eq (operators : Operators) (input : List Token) (k : Nat) :
    afterCalls operators input k
        = (reading operators input (asked operators input k)).dropItems k ∧
      ((reading operators input (asked operators input k)).converter.progress.isOver = true ∨
        k ≤ (produced operators input (asked operators input k)).length) := by
  induction k with
  | zero => exact ⟨rfl, .inr (Nat.zero_le _)⟩
  | succ k ih =>
    obtain ⟨⟨hsettled, -⟩, hnext⟩ := next_dropItems ih.1 ih.2
    rw [afterCalls_succ, hnext]
    exact ⟨rfl, hsettled⟩

/-- The call behind `k` others. -/
theorem next_afterCalls (operators : Operators) (input : List Token) (k : Nat) :
    (Settled operators input k (asked operators input (k + 1)) ∧
      ∀ i, asked operators input k ≤ i → i < asked operators input (k + 1) →
        ¬Settled operators input k i) ∧
      (afterCalls operators input k).next operators
        = ((produced operators input (asked operators input (k + 1)))[k]?,
          (reading operators input (asked operators input (k + 1))).dropItems (k + 1)) := by
  obtain ⟨heq, hreading⟩ := afterCalls_eq operators input k
  exact next_dropItems heq hreading

/-- Behind a call it is known what it gave. -/
theorem settled_asked (operators : Operators) (input : List Token) (k : Nat) :
    Settled operators input k (asked operators input (k + 1)) :=
  (next_afterCalls operators input k).1.1

/-- Fewer attempts would not do. -/
theorem not_settled_of_lt_asked (h : n < asked operators input (k + 1)) :
    ¬Settled operators input k n := by
  induction k with
  | zero => exact (next_afterCalls operators input 0).1.2 n (Nat.zero_le n) h
  | succ k ih =>
    by_cases hn : n < asked operators input (k + 1)
    · exact fun hsettled => ih hn (hsettled.imp_right (Nat.lt_of_succ_lt ·))
    · exact (next_afterCalls operators input (k + 1)).1.2 n (Nat.not_lt.1 hn) h

theorem item?_eq_produced (operators : Operators) (input : List Token) (k : Nat) :
    item? operators input k = (produced operators input (asked operators input (k + 1)))[k]? := by
  rw [item?, (next_afterCalls operators input k).2]

/-- An item is given after the fewest attempts that put it out. -/
theorem produced_asked {item : Item} (h : item? operators input k = some item) :
    (produced operators input (asked operators input (k + 1)))[k]? = some item ∧
      ∀ n < asked operators input (k + 1), (produced operators input n).length ≤ k :=
  ⟨by rw [← item?_eq_produced, h], fun _ hn =>
    Nat.not_lt.1 fun hlt => not_settled_of_lt_asked hn (.inr hlt)⟩

/-- The calls give the output of the conversion. -/
theorem item?_eq (operators : Operators) (input : List Token) (k : Nat) :
    item? operators input k = (convertItems operators input)[k]? := by
  rw [item?_eq_produced, getElem?_produced (settled_asked operators input k)]

/-- A call makes the fewest attempts behind which it is known what it gives. -/
theorem asked_eq_iff : asked operators input (k + 1) = n ↔
    Settled operators input k n ∧ ∀ m < n, ¬Settled operators input k m := by
  constructor
  · rintro rfl
    exact ⟨settled_asked operators input k, fun m => not_settled_of_lt_asked⟩
  · rintro ⟨hsettled, hleast⟩
    refine Nat.le_antisymm (Nat.not_lt.1 fun hlt => not_settled_of_lt_asked hlt hsettled)
      (Nat.not_lt.1 fun hlt => hleast _ hlt (settled_asked operators input k))

theorem asked_mono (operators : Operators) (input : List Token) (h : j ≤ k) :
    asked operators input j ≤ asked operators input k := by
  induction h with
  | refl => exact Nat.le_refl _
  | step _ ih => exact Nat.le_trans ih (Nat.le_add_right ..)

/-- Two inputs of which the same tokens are asked for. -/
theorem asked_congr (operators : Operators) (h : input'.take n = input.take n)
    (hk : asked operators input k ≤ n) :
    asked operators input' k = asked operators input k ∧
      ∀ i < k, item? operators input' i = item? operators input i := by
  have hasked : ∀ k, asked operators input k ≤ n →
      asked operators input' k = asked operators input k := by
    intro k hk
    cases k with
    | zero => rfl
    | succ k =>
      refine asked_eq_iff.2 ⟨(settled_congr h hk).2 (settled_asked operators input k), ?_⟩
      intro m hm hsettled
      have hmn : m ≤ n := Nat.le_trans (Nat.le_of_lt hm) hk
      exact not_settled_of_lt_asked hm ((settled_congr h hmn).1 hsettled)
  refine ⟨hasked k hk, fun i hi => ?_⟩
  have hle : asked operators input (i + 1) ≤ n := Nat.le_trans (asked_mono operators input hi) hk
  rw [item?_eq_produced, item?_eq_produced, hasked (i + 1) hle, produced, produced,
    reading_congr h hle]

/-- Nothing is asked for behind the end of a conversion. -/
theorem asked_of_isOver (hover : (reading operators input n).converter.progress.isOver = true)
    (hn : n ≤ asked operators input k) (hj : k ≤ j) : asked operators input j = n := by
  refine Nat.le_antisymm ?_ (Nat.le_trans hn (asked_mono operators input hj))
  cases j with
  | zero => exact Nat.zero_le n
  | succ j => exact Nat.not_lt.1 fun hlt => not_settled_of_lt_asked hlt (.inl hover)

end Calls

end Conversion

/-! ## Final items -/

/-- An item behind which nothing is put out: an error, or text that is no token. -/
def isFinal : Item → Bool
  | .error _ => true
  | .ok t => t.kind == .illegal

/-- Of some items only the last one may be final, and only if the conversion is over. -/
def FinalIsLast (progress : Progress) (items : List Item) : Prop :=
  ∀ i item, items[i]? = some item → isFinal item = true →
    progress.isOver = true ∧ items.length = i + 1

section Final

variable {progress : Progress} {stack : List Token} {items items' : List Item}

theorem isFinal_eq_false_of_finalIsLast (h : FinalIsLast progress items)
    (hover : progress.isOver = false) : ∀ item ∈ items, isFinal item = false := by
  intro item hitem
  obtain ⟨i, hi⟩ := List.mem_iff_getElem?.1 hitem
  rw [← Bool.not_eq_true]
  intro hfinal
  rw [(h i item hi hfinal).1] at hover
  cases hover

theorem FinalIsLast.append (hfront : ∀ item ∈ items, isFinal item = false)
    (h : FinalIsLast progress items') : FinalIsLast progress (items ++ items') := by
  intro i item hi hfinal
  rcases Nat.lt_or_ge i items.length with hlt | hge
  · rw [List.getElem?_append_left hlt] at hi
    rw [hfront item (List.mem_of_getElem? hi)] at hfinal
    cases hfinal
  · rw [List.getElem?_append_right hge] at hi
    obtain ⟨hover, hlength⟩ := h _ item hi hfinal
    rw [List.length_append]
    exact ⟨hover, by omega⟩

theorem finalIsLast_nil (progress : Progress) : FinalIsLast progress [] := by
  intro i item hi
  cases hi

theorem finalIsLast_singleton (hover : progress.isOver = true) (item : Item) :
    FinalIsLast progress [item] := by
  intro i item' hi _
  have hlt := (List.getElem?_eq_some_iff.1 hi).1
  rw [List.length_singleton] at hlt ⊢
  exact ⟨hover, by omega⟩

theorem Release.From.finalIsLast {r : Release} (h : r.From (·.kind ≠ .illegal)) :
    FinalIsLast r.progress r.items := by
  have hfront : ∀ item ∈ r.tokens.map (.ok : Token → Item), isFinal item = false := by
    refine List.forall_mem_map.2 fun t ht => ?_
    simpa [isFinal] using (h.tokens t ht).1
  obtain ⟨tokens, stack | _ | e⟩ := r
  · exact .append hfront (finalIsLast_nil _)
  · exact .append hfront (finalIsLast_nil _)
  · exact .append hfront (finalIsLast_singleton rfl _)

/-- A token that is read. What waits is legal, and stays so. -/
theorem finalIsLast_convertToken (operators : Operators)
    (hstack : ∀ u ∈ stack, u.kind ≠ .illegal ∧ u.Waits) (t : Token) :
    FinalIsLast (convertToken operators stack t).progress (convertToken operators stack t).items ∧
      ∀ stack', (convertToken operators stack t).progress = .waiting stack' →
        ∀ u ∈ stack', u.kind ≠ .illegal ∧ u.Waits := by
  by_cases hk : t.kind = .illegal
  · have hconv : convertToken operators stack t = ⟨[t], .done⟩ := by simp only [convertToken, hk]
    rw [hconv]
    exact ⟨finalIsLast_singleton rfl _, fun _ h => by cases h⟩
  · have hfrom : (convertToken operators stack t).From (·.kind ≠ .illegal) :=
      convertToken_from hstack hk
    exact ⟨hfrom.finalIsLast, hfrom.waiting⟩

end Final

namespace Conversion

/-! ## How conversions end -/

section Ends

variable {operators : Operators} {input : List Token} {item : Item} {k n j : Nat}

theorem isOver_convertEnd (stack : List Token) : (convertEnd stack).progress.isOver = true := by
  unfold convertEnd
  split <;> rfl

/-- Behind the end of its input, marked or not, a conversion is over. -/
theorem isOver_of_end (operators : Operators) (h : ∀ t ∈ input[n]?, t.kind = .endOfInput) :
    (reading operators input (n + 1)).converter.progress.isOver = true := by
  rw [converter_reading_succ]
  rcases (reading operators input n).converter with ⟨stack | _ | e, queue⟩
  · cases hnext : input[n]? with
    | none => exact isOver_convertEnd stack
    | some t =>
      have hk : t.kind = .endOfInput := h t hnext
      simp only [Converter.accept, convertToken, hk]
      exact isOver_convertEnd stack
  · rfl
  · rfl

/-- What attempts put out. -/
theorem finalIsLast_produced (operators : Operators) (input : List Token) (n : Nat) :
    FinalIsLast (reading operators input n).converter.progress (produced operators input n) ∧
      ∀ stack, (reading operators input n).converter.progress = .waiting stack →
        ∀ u ∈ stack, u.kind ≠ .illegal ∧ u.Waits := by
  induction n with
  | zero =>
    refine ⟨finalIsLast_nil _, ?_⟩
    rintro _ ⟨⟩
    exact List.forall_mem_nil _
  | succ n ih =>
    rw [produced] at ih ⊢
    rw [converter_reading_succ]
    generalize (reading operators input n).converter = c at ih ⊢
    obtain ⟨stack | _ | e, queue⟩ := c
    · obtain ⟨hlast, hlegal⟩ := ih
      -- While tokens are read, nothing final has been put out, so only what this token releases
      -- counts.
      have hqueue := isFinal_eq_false_of_finalIsLast hlast rfl
      have hstack := hlegal stack rfl
      cases input[n]? with
      | none =>
        have hfrom : (convertEnd stack).From (·.kind ≠ .illegal) := convertEnd_from hstack
        exact ⟨hfrom.finalIsLast.append hqueue, hfrom.waiting⟩
      | some t =>
        obtain ⟨hitems, hnext⟩ := finalIsLast_convertToken operators hstack t
        exact ⟨hitems.append hqueue, hnext⟩
    · exact ih
    · exact ih

/-- A call that gives a final item is the last one that gives an item or asks for a token. -/
theorem item?_of_isFinal (hitem : item? operators input k = some item)
    (hfinal : isFinal item = true) (hj : k < j) :
    item? operators input j = none ∧ asked operators input j = asked operators input (k + 1) := by
  rw [item?_eq_produced] at hitem
  obtain ⟨hover, hlength⟩ := (finalIsLast_produced operators input _).1 k item hitem hfinal
  refine ⟨?_, asked_of_isOver hover (Nat.le_refl _) hj⟩
  rw [item?_eq, ← produced_of_isOver hover, List.getElem?_eq_none_iff, hlength]
  exact hj

/-- Calls behind the end of the input give what was put out there, and ask for nothing. -/
theorem item?_of_end (h : ∀ t ∈ input[n]?, t.kind = .endOfInput) (hn : n < asked operators input k)
    (hj : k ≤ j) :
    asked operators input j = n + 1 ∧
      item? operators input j = (produced operators input (n + 1))[j]? := by
  have hover := isOver_of_end operators h
  refine ⟨asked_of_isOver hover hn hj, ?_⟩
  rw [item?_eq, produced_of_isOver hover]

end Ends

/-! ## Execution on the way -/

/-- Executes items as they come, up to the first error, and counts the attempts to read, of which
there have been `n`. -/
def execute (ctx : Context) (s : Conversion) (stack : OperandStack) (n : Nat) :
    Except EvalError Value × Nat :=
  let asked := n + attempts ctx.operators s.input s.converter
  match _hnext : s.next ctx.operators with
  | (none, _) => (stack.result, asked)
  | (some item, s') =>
    match (runItem ctx stack item).outcome with
    | .error e => (.error e, asked)
    | .ok stack => execute ctx s' stack asked
termination_by (s.pending ctx.operators).length
decreasing_by
  rw [pending_of_next _hnext]
  exact Nat.lt_succ_self _

section Execution

variable {ctx : Context} {input input' : List Token} {n : Nat}

/-- The value does not depend on taking turns. -/
theorem execute_fst (ctx : Context) (s : Conversion) (stack : OperandStack) (n : Nat) :
    (s.execute ctx stack n).1
      = (runItems ctx stack (s.pending ctx.operators)).outcome >>= OperandStack.result := by
  fun_induction execute ctx s stack n with
  | case1 s stack n asked s' hnext =>
    rw [pending_of_next_none hnext]
    rfl
  | case2 s stack n asked item s' hnext e herror =>
    rw [pending_of_next hnext, outcome_runItems_cons, herror]
    rfl
  | case3 s stack n asked item s' hnext stack' hok ih =>
    rw [pending_of_next hnext, outcome_runItems_cons, hok, ih]
    rfl

/-- The attempts of the next call are among those that are counted. -/
theorem le_execute_snd (ctx : Context) (s : Conversion) (stack : OperandStack) (n : Nat) :
    n + attempts ctx.operators s.input s.converter ≤ (s.execute ctx stack n).2 := by
  fun_induction execute ctx s stack n with
  | case1 | case2 => exact Nat.le_refl _
  | case3 s stack n asked item s' hnext stack' hok ih =>
    exact Nat.le_trans (Nat.le_add_right ..) ih

theorem execute_afterCalls (ctx : Context) (input : List Token) (k : Nat) (stack : OperandStack) :
    (afterCalls ctx.operators input k).execute ctx stack (asked ctx.operators input k)
      = match item? ctx.operators input k with
        | none => (stack.result, asked ctx.operators input (k + 1))
        | some item =>
          match (runItem ctx stack item).outcome with
          | .error e => (.error e, asked ctx.operators input (k + 1))
          | .ok stack =>
            (afterCalls ctx.operators input (k + 1)).execute ctx stack
              (asked ctx.operators input (k + 1)) := by
  rw [execute, item?, afterCalls_succ, asked]
  rcases (afterCalls ctx.operators input k).next ctx.operators with ⟨_ | item, s'⟩ <;> rfl

/-- Executions with the same tokens in front are the same, if no others are asked for. -/
theorem execute_congr (hfront : input'.take n = input.take n) (k : Nat) (stack : OperandStack)
    (h : ((afterCalls ctx.operators input k).execute ctx stack (asked ctx.operators input k)).2
      ≤ n) :
    (afterCalls ctx.operators input' k).execute ctx stack (asked ctx.operators input' k)
      = (afterCalls ctx.operators input k).execute ctx stack (asked ctx.operators input k) := by
  -- on the items that are left
  induction hleft : (convertItems ctx.operators input).length - k using Nat.strongRecOn
    generalizing k stack with
  | ind left ih =>
    have hle : asked ctx.operators input (k + 1) ≤ n := Nat.le_trans (le_execute_snd ..) h
    obtain ⟨hasked, hitems⟩ := asked_congr ctx.operators hfront hle
    rw [execute_afterCalls ctx input] at h ⊢
    rw [execute_afterCalls ctx input', hitems k (Nat.lt_succ_self k)]
    cases hitem : item? ctx.operators input k with
    | none => simp only [hasked]
    | some item =>
      simp only [hitem] at h
      cases hrun : (runItem ctx stack item).outcome with
      | error e => simp only [hrun, hasked]
      | ok stack' =>
        simp only [hrun] at h ⊢
        have hlt : k < (convertItems ctx.operators input).length := by
          rw [item?_eq] at hitem
          exact (List.getElem?_eq_some_iff.1 hitem).1
        exact ih _ (by omega) (k + 1) stack' h rfl

end Execution

/-- **A conversion is lazy, and it ends once.** While something is left to take, a call asks for
nothing. The calls give the output of the conversion, each item after the fewest attempts that put
it out, where to find the input exhausted is an attempt too. So inputs with the same tokens in front
give the same items until others are asked for. Behind an error, and behind text that is no token,
nothing is given and nothing is asked for; behind the end of the input nothing is asked for, and
only what was put out there is given. Neither the value nor the error of an evaluation depends on
tokens that it did not come to. -/
theorem calls_are_lazy (operators : Operators) (input : List Token) :
    (∀ s : Conversion, s.converter.queue ≠ [] →
      attempts operators s.input s.converter = 0 ∧ (s.next operators).2.input = s.input) ∧
    (∀ k, item? operators input k = (convertItems operators input)[k]?) ∧
    (∀ k item, item? operators input k = some item →
      (produced operators input (asked operators input (k + 1)))[k]? = some item ∧
        ∀ n < asked operators input (k + 1), (produced operators input n).length ≤ k) ∧
    (∀ input' n k, input'.take n = input.take n → asked operators input k ≤ n →
      asked operators input' k = asked operators input k ∧
        ∀ i < k, item? operators input' i = item? operators input i) ∧
    (∀ k item, item? operators input k = some item → isFinal item = true → ∀ j, k < j →
      item? operators input j = none ∧
        asked operators input j = asked operators input (k + 1)) ∧
    (∀ n k, (∀ t ∈ input[n]?, t.kind = .endOfInput) → n < asked operators input k → ∀ j, k ≤ j →
      asked operators input j = n + 1 ∧
        item? operators input j = (produced operators input (n + 1))[j]?) ∧
    (∀ (ctx : Context) (s : String), eval ctx s = ((start (tokenize s)).execute ctx [] 0).1) ∧
    (∀ (ctx : Context) (outcome : Except EvalError Value) (n : Nat),
      (start input).execute ctx [] 0 = (outcome, n) →
        ∀ input' : List Token, input'.take n = input.take n →
          (start input').execute ctx [] 0 = (outcome, n)) := by
  refine ⟨fun s => input_next operators, item?_eq operators input, fun k item => produced_asked,
    fun input' n k => asked_congr operators,
    fun k item hitem hfinal j => item?_of_isFinal hitem hfinal,
    fun n k hend hn j => item?_of_end hend hn, fun ctx s => ?_,
    fun ctx outcome n h input' hfront => ?_⟩
  · rw [eval_eq_valueOfItems, execute_fst, pending_start]
    rfl
  · rw [← h]
    exact execute_congr hfront 0 [] (Nat.le_of_eq (congrArg Prod.snd h))

/-- A bracket without its partner in `1+2*3)4`, and the end of `1+2*3`. -/
theorem calls_are_lazy_unpaired :
    let operators := Context.default.operators
    let front : List Token := [⟨.integer, "1", 0⟩, ⟨.operator, "+", 1⟩, ⟨.integer, "2", 2⟩,
      ⟨.operator, "*", 3⟩, ⟨.integer, "3", 4⟩]
    let input := front ++ [⟨.closeParen, ")", 5⟩, ⟨.integer, "4", 6⟩]
    let failure : EvalError := .unmatchedParenthesis 5 ")"
    item? operators input 5 = some (.error failure) ∧
      (∀ j, 5 < j → item? operators input j = none ∧ asked operators input j = 6) ∧
      (∀ j, 4 ≤ j → asked operators front j = 6 ∧
        item? operators front j = (produced operators front 6)[j]?) ∧
      ∀ tail, (start (input.take 6 ++ tail)).execute .default [] 0 = (.error failure, 6) := by
  intro operators front input failure
  obtain ⟨-, -, -, -, hfinal, -, -, hexecute⟩ := calls_are_lazy operators input
  obtain ⟨-, -, -, -, -, hend, -⟩ := calls_are_lazy operators front
  have hitem : item? operators input 5 = some (.error failure) := by decide +kernel
  have hasked : asked operators input 6 = 6 := by decide +kernel
  have hrun : (start input).execute .default [] 0 = (.error failure, 6) := by decide +kernel
  refine ⟨hitem, fun j hj => ?_, fun j hj => ?_, fun tail => ?_⟩
  · rw [← hasked]
    exact hfinal 5 _ hitem rfl j hj
  · exact hend 5 4 (fun t ht => by cases ht) (by decide +kernel) j hj
  · exact hexecute .default _ 6 hrun _ rfl

/-- Two operators wait at the end of `1+2*3`, and the calls behind it give them both. -/
theorem given_behind_end :
    let operators := Context.default.operators
    let input : List Token := [⟨.integer, "1", 0⟩, ⟨.operator, "+", 1⟩, ⟨.integer, "2", 2⟩,
      ⟨.operator, "*", 3⟩, ⟨.integer, "3", 4⟩, ⟨.endOfInput, "", 5⟩]
    (∀ t ∈ input[5]?, t.kind = .endOfInput) ∧ 5 < asked operators input 4 ∧
      item? operators input 4 = some (.ok ⟨.operator, "+", 1⟩) ∧
      ¬∀ j, 4 ≤ j → item? operators input j = none := by
  intro operators input
  have hitem : item? operators input 4 = some (.ok ⟨.operator, "+", 1⟩) := by decide +kernel
  refine ⟨?_, by decide +kernel, hitem, fun hnone => ?_⟩
  · rintro t ⟨⟩
    rfl
  · rw [hnone 4 (Nat.le_refl 4)] at hitem
    cases hitem

end Conversion

end Formula
