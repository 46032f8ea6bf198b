import Formula.Postfix.Release

/-!
# Conversions

A conversion of a whole input is the list of the releases of its tokens, in order; it ends with the
first release that does not leave tokens waiting. Item by item, a conversion reads the next token
only when everything released before has been taken.

* `releases operators stack input`: the releases, one for each token that is read and one for the
  end of the input if it is met.
* `convertItems`: the output of a conversion; `convertTokens`: the output as a list of tokens, or
  the error.
* `Converter`: a conversion between two items; `Converter.accept` feeds it, and
  `Converter.weight` counts what it may still put out.
* `Conversion.next`: the next item, and what is left of the input.
* `Conversion.pending_of_next`: the items come out one by one, in the order of `convertItems`.
-/

namespace Formula

/-- The releases of the tokens of an input, from a stack on. -/
def releases (operators : Operators) : List Token → List Token → List Release
  | stack, [] => [convertEnd stack]
  | stack, t :: input =>
    let r := convertToken operators stack t
    r :: match r.progress with
      | .waiting stack => releases operators stack input
      | _ => []

/-- The output of a conversion. -/
def convertItems (operators : Operators) (input : List Token) : List Item :=
  (releases operators [] input).flatMap Release.items

/-- The error for text that is no token. -/
def illegalToken (t : Token) : EvalError := .syntaxError t.position (.illegal t.text)

/-- The tokens of an output, up to the first error; text that is no token is one. -/
def collect : List Item → Except EvalError (List Token)
  | [] => .ok []
  | .error e :: _ => .error e
  | .ok t :: items =>
    if t.kind = .illegal then .error (illegalToken t) else (collect items).map (t :: ·)

/-- The tokens of an infix expression in postfix order. -/
def convertTokens (operators : Operators) (input : List Token) : Except EvalError (List Token) :=
  collect (convertItems operators input)

/-- The same, with the records that the conversion makes. -/
def convertTokensLogged (operators : Operators) (input : List Token) : Logged (List Token) :=
  ⟨(releases operators [] input).flatMap Release.records, convertTokens operators input⟩

/-! ## Item by item -/

/-- A conversion between two items: how it stands, and what has been released and not taken. -/
structure Converter where
  progress : Progress
  queue : List Item

namespace Converter

/-- Nothing waits and nothing has been released. -/
def start : Converter := ⟨.waiting [], []⟩

/-- Whether nothing is left to take and the conversion goes on. -/
def hungry (c : Converter) : Bool :=
  match c.progress, c.queue with
  | .waiting _, [] => true
  | _, _ => false

theorem exists_of_hungry {c : Converter} (h : c.hungry = true) :
    ∃ stack, c = ⟨.waiting stack, []⟩ := by
  obtain ⟨progress, queue⟩ := c
  cases progress <;> cases queue <;> simp_all [hungry]

/-- Feeds the next token, or the end of the input. -/
def accept (operators : Operators) (c : Converter) (t? : Option Token) : Converter :=
  match c.progress with
  | .waiting stack =>
    let r := match t? with
      | some t => convertToken operators stack t
      | none => convertEnd stack
    ⟨r.progress, c.queue ++ r.items⟩
  | _ => c

/-- What may still be put out, counted twice, and more while the conversion goes on. -/
def weight (c : Converter) : Nat :=
  match c.progress with
  | .waiting stack => (Progress.waiting stack).weight + 2 * c.queue.length
  | _ => 2 * c.queue.length

theorem weight_of_release (r : Release) (queue : List Item) :
    weight ⟨r.progress, queue ++ r.items⟩ = 2 * queue.length + r.weight := by
  obtain ⟨tokens, progress⟩ := r
  cases progress <;>
    simp only [weight, Release.items, Release.weight, Progress.weight, List.length_append,
      List.length_map, List.length_cons, List.length_nil] <;> omega

/-- A token adds at most itself. -/
theorem weight_accept_some_le (operators : Operators) (c : Converter) (t : Token) :
    (c.accept operators (some t)).weight ≤ c.weight + 2 := by
  obtain ⟨progress, queue⟩ := c
  cases progress with
  | waiting stack =>
    have hr := weight_convertToken_le operators stack t
    have hw := weight_of_release (convertToken operators stack t) queue
    simp only [accept, weight] at hw ⊢
    omega
  | done => simp [accept]
  | failed e => simp [accept]

/-- The end of the input takes from what may still come. -/
theorem weight_accept_none_lt (operators : Operators) {c : Converter} (h : c.hungry = true) :
    (c.accept operators none).weight < c.weight := by
  obtain ⟨progress, queue⟩ := c
  cases progress with
  | waiting stack =>
    have hr := weight_convertEnd_lt stack
    have hw := weight_of_release (convertEnd stack) queue
    simp only [accept, weight] at hw ⊢
    omega
  | done => simp [hungry] at h
  | failed e => simp [hungry] at h

end Converter

/-- A converter with the input that it has not read. -/
structure Conversion where
  input : List Token
  converter : Converter

namespace Conversion

/-- A conversion that has read nothing. -/
def start (input : List Token) : Conversion := ⟨input, .start⟩

/-- Reads tokens until there is something to take or the conversion is over. -/
def fill (operators : Operators) : List Token → Converter → Conversion
  | [], c => ⟨[], if c.hungry then c.accept operators none else c⟩
  | t :: input, c =>
    if c.hungry then fill operators input (c.accept operators (some t)) else ⟨t :: input, c⟩

/-- Takes what was released first. -/
def take (s : Conversion) : Option Item × Conversion :=
  match s.converter.queue with
  | [] => (none, s)
  | item :: queue => (some item, ⟨s.input, ⟨s.converter.progress, queue⟩⟩)

/-- The next item, if there is one. Nothing is read while something is left to take. -/
def next (operators : Operators) (s : Conversion) : Option Item × Conversion :=
  (fill operators s.input s.converter).take

/-- The items that are still to come. -/
def pending (operators : Operators) (s : Conversion) : List Item :=
  s.converter.queue ++ match s.converter.progress with
    | .waiting stack => (releases operators stack s.input).flatMap Release.items
    | _ => []

theorem pending_start (operators : Operators) (input : List Token) :
    (start input).pending operators = convertItems operators input := by
  simp [pending, start, Converter.start, convertItems]

/-- A token that is read puts out what it would have put out later. -/
theorem pending_accept_some (operators : Operators) {c : Converter} (h : c.hungry = true)
    (t : Token) (input : List Token) :
    pending operators ⟨input, c.accept operators (some t)⟩ = pending operators ⟨t :: input, c⟩ := by
  obtain ⟨stack, rfl⟩ := Converter.exists_of_hungry h
  simp only [Converter.accept, pending, releases, List.flatMap_cons, List.nil_append]
  split <;> simp

/-- So does the end of the input. -/
theorem pending_accept_none (operators : Operators) {c : Converter} (h : c.hungry = true) :
    pending operators ⟨[], c.accept operators none⟩ = pending operators ⟨[], c⟩ := by
  obtain ⟨stack, rfl⟩ := Converter.exists_of_hungry h
  simp only [Converter.accept, pending, releases, List.flatMap_cons, List.flatMap_nil,
    List.append_nil, List.nil_append, convertEnd]
  split <;> simp

/-- Reading neither adds nor loses items. -/
theorem pending_fill (operators : Operators) (input : List Token) (c : Converter) :
    (fill operators input c).pending operators = pending operators ⟨input, c⟩ := by
  induction input generalizing c with
  | nil =>
    simp only [fill]
    split
    · next h => exact pending_accept_none operators h
    · rfl
  | cons t input ih =>
    simp only [fill]
    split
    · next h => exact (ih _).trans (pending_accept_some operators h t input)
    · rfl

/-- Behind `fill` there is something to take, or the conversion is over. -/
theorem hungry_fill (operators : Operators) (input : List Token) (c : Converter) :
    (fill operators input c).converter.hungry = false := by
  induction input generalizing c with
  | nil =>
    simp only [fill]
    split
    · next h =>
      obtain ⟨progress, queue⟩ := c
      cases progress with
      | waiting stack =>
        simp only [Converter.accept, convertEnd]
        split <;> simp [Converter.hungry]
      | done => simp [Converter.hungry] at h
      | failed e => simp [Converter.hungry] at h
    · next h => simpa using h
  | cons t input ih =>
    simp only [fill]
    split
    · exact ih _
    · next h => simpa using h

theorem pending_take {operators : Operators} {s s' : Conversion} {item : Item}
    (h : s.take = (some item, s')) : s.pending operators = item :: s'.pending operators := by
  unfold take at h
  split at h
  · simp at h
  · next item' queue hq =>
    simp only [Prod.mk.injEq, Option.some.injEq] at h
    rw [← h.1, ← h.2]
    simp [pending, hq]

/-- An item that is taken was the first of those to come. -/
theorem pending_of_next {operators : Operators} {s s' : Conversion} {item : Item}
    (h : s.next operators = (some item, s')) :
    s.pending operators = item :: s'.pending operators :=
  (pending_fill operators s.input s.converter).symm.trans (pending_take h)

/-- When no item comes, none is left. -/
theorem pending_of_next_none {operators : Operators} {s s' : Conversion}
    (h : s.next operators = (none, s')) : s.pending operators = [] := by
  have hh := hungry_fill operators s.input s.converter
  refine (pending_fill operators s.input s.converter).symm.trans ?_
  unfold next take at h
  split at h
  · next hq =>
    simp only [Converter.hungry, hq] at hh
    simp only [pending, hq, List.nil_append]
    split
    · next hp => simp [hp] at hh
    · rfl
  · simp at h

end Conversion

end Formula
