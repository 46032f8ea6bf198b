import Formula.Evaluator

/-!
# Evaluation item by item

The items of a conversion can be taken one by one, and each be executed before the next one is asked
for. Then the records of the conversion are made while it reads, those of the execution in between,
and value and log are the same as release by release.

* `Converter.records`, `Conversion.fillRecords`: what is recorded while a conversion reads.
* `Conversion.perform`: executes items as they come, and keeps the log.
* `Conversion.rest`: what is left to do release by release. `rest_fill` and `rest_take` say that
  reading and taking only do a part of it.
* `perform_start`: the loop over the items is the run of the releases.
-/

namespace Formula

/-- What is recorded when a converter gets the next token, or the end of the input. -/
def Converter.records (operators : Operators) (c : Converter) (t? : Option Token) :
    List LogRecord :=
  match c.progress with
  | .waiting stack =>
    (match t? with
      | some t => convertToken operators stack t
      | none => convertEnd stack).records
  | _ => []

namespace Conversion

/-- What is recorded while a conversion reads until there is something to take. -/
def fillRecords (operators : Operators) : List Token → Converter → List LogRecord
  | [], c => if c.hungry then c.records operators none else []
  | t :: input, c =>
    if c.hungry then
      c.records operators (some t) ++ fillRecords operators input (c.accept operators (some t))
    else []

/-- Executes items as they come, up to the first error, and keeps the log. -/
def perform (ctx : Context) (s : Conversion) (stack : OperandStack) : Logged Value := do
  .tell (fillRecords ctx.operators s.input s.converter)
  match _hnext : s.next ctx.operators with
  | (none, _) => .lift stack.result
  | (some item, s') =>
    let stack ← runItem ctx stack item
    perform ctx s' stack
termination_by (s.pending ctx.operators).length
decreasing_by
  rw [pending_of_next _hnext]
  exact Nat.lt_succ_self _

/-- What is left to do: the items that have been released, and then the releases of the tokens that
have not been read. -/
def rest (ctx : Context) (s : Conversion) (stack : OperandStack) : Logged Value := do
  let stack ← runItems ctx stack s.converter.queue
  match s.converter.progress with
  | .waiting waiting => runReleases ctx stack (releases ctx.operators waiting s.input)
  | _ => .lift stack.result

section Perform

variable {s s' : Conversion} {item : Item}

/-- The first release leaves its items, and the releases behind it. -/
theorem runReleases_cons (ctx : Context) (stack : OperandStack) (r : Release)
    (input : List Token) :
    runReleases ctx stack (r :: match r.progress with
      | .waiting waiting => releases ctx.operators waiting input
      | _ => [])
      = .tell r.records >>= fun _ => rest ctx ⟨input, ⟨r.progress, r.items⟩⟩ stack := by
  rw [runReleases]
  cases r.progress <;> simp only [rest, runReleases]

/-- Reading makes its records, and leaves the rest. -/
theorem rest_fill (ctx : Context) (input : List Token) (c : Converter) (stack : OperandStack) :
    rest ctx ⟨input, c⟩ stack
      = .tell (fillRecords ctx.operators input c)
          >>= fun _ => rest ctx (fill ctx.operators input c) stack := by
  induction input generalizing c with
  | nil =>
    rw [fillRecords, fill]
    split
    · next hungry =>
      obtain ⟨waiting, rfl⟩ := Converter.exists_of_hungry hungry
      have hlast : releases ctx.operators waiting [] = convertEnd waiting ::
          match (convertEnd waiting).progress with
          | .waiting waiting => releases ctx.operators waiting []
          | _ => [] := by
        rw [releases, convertEnd]
        split <;> rfl
      exact (congrArg (runReleases ctx stack) hlast).trans (runReleases_cons ctx stack _ [])
    · rfl
  | cons t input ih =>
    rw [fillRecords, fill]
    split
    · next hungry =>
      obtain ⟨waiting, rfl⟩ := Converter.exists_of_hungry hungry
      rw [Logged.tell_append, ← ih]
      exact runReleases_cons ctx stack (convertToken ctx.operators waiting t) input
    · rfl

/-- An item that is taken is executed first. -/
theorem rest_take (ctx : Context) (stack : OperandStack) (h : s.take = (some item, s')) :
    rest ctx s stack = runItem ctx stack item >>= rest ctx s' := by
  unfold take at h
  split at h
  · cases h
  · next item' queue hqueue =>
    cases h
    rw [rest, hqueue, runItems, bind_assoc]
    rfl

/-- When nothing is left to take or to read, the result is on the stack. -/
theorem rest_of_take_none (ctx : Context) (stack : OperandStack) (h : s.take = (none, s'))
    (hungry : s.converter.hungry = false) : rest ctx s stack = .lift stack.result := by
  unfold take at h
  split at h
  · next hqueue =>
    rw [rest, hqueue]
    simp only [Converter.hungry, hqueue] at hungry
    cases hp : s.converter.progress with
    | waiting waiting => simp [hp] at hungry
    | done | failed e => rfl
  · cases h

/-- Item by item the evaluation does what is left to do. -/
theorem perform_eq_rest (ctx : Context) (s : Conversion) (stack : OperandStack) :
    s.perform ctx stack = s.rest ctx stack := by
  -- on the items that are left, one of which is taken in each round
  induction hleft : (s.pending ctx.operators).length using Nat.strongRecOn generalizing s stack with
  | ind left ih =>
    rw [perform, rest_fill ctx s.input s.converter stack]
    refine bind_congr fun _ => ?_
    split
    · next s' hnext =>
      exact (rest_of_take_none ctx stack hnext (hungry_fill ..)).symm
    · next item s' hnext =>
      rw [rest_take ctx stack hnext]
      refine bind_congr fun next => ih _ ?_ s' next rfl
      rw [← hleft, pending_of_next hnext]
      exact Nat.lt_succ_self _

/-- **The loop over the items is the run of the releases**, with the same records. -/
theorem perform_start (ctx : Context) (input : List Token) :
    (start input).perform ctx [] = runReleases ctx [] (releases ctx.operators [] input) :=
  perform_eq_rest ctx (start input) []

end Perform

end Conversion

end Formula
