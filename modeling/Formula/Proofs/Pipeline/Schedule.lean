import Formula.Pipeline

/-!
# Schedules of the three parties

Any party that neither waits nor has stopped may take the next step. A schedule says whose turn it
is; it may be any.

* `step?_eq_some_iff`: the moves of the parties are the steps that they can take.
* `of_stepLexer?_eq_none`, `of_stepConverter?_eq_none`, `of_stepExecutor?_eq_none`: what a party
  waits for. `isOver_of_step?_eq_none`: not all of them wait at once.
* `Pipeline.follow?`: the state behind a schedule. `follow?_induction`: an invariant of the steps is
  one of the schedules.
* `exists_follow?_run`: `Pipeline.run` follows a schedule until all parties have stopped.
* `follow?_ends`: no schedule comes to a standstill, and none goes on for ever.
-/

namespace Formula

namespace Pipeline

section Steps

variable {ctx : Context} {s s' : Pipeline}

theorem step?_of_moves {p : Party} (h : Moves ctx s p s') : step? ctx p s = some s' := by
  cases h with
  | sendToken hl hc hn hlen => simp [step?, stepLexer?, hl, hc, hn, hlen, Phase.isStopped]
  | closeTokens hl hn => simp [step?, stepLexer?, hl, hn]
  | @abandonTokens l hl hc =>
    rcases hn : l.next with ⟨_ | t, l'⟩ <;>
      simp [step?, stepLexer?, hl, hc, hn, Phase.isStopped]
  | sendItem hc he hlen => simp [step?, stepConverter?, hc, he, hlen, Phase.isStopped]
  | abandonItems hc he => simp [step?, stepConverter?, hc, he, Phase.isStopped]
  | receiveToken hc hh ht =>
    obtain ⟨stack, rfl⟩ := Converter.exists_of_hungry hh
    simp [step?, stepConverter?, hc, hh, ht]
  | receiveEnd hc hh ht hl =>
    obtain ⟨stack, rfl⟩ := Converter.exists_of_hungry hh
    simp [step?, stepConverter?, hc, hh, ht, hl, Phase.isStopped]
  | closeItems hc hq hh => simp [step?, stepConverter?, hc, hq, hh]
  | execute he hi hrun => simp [step?, stepExecutor?, he, hi, hrun]
  | fail he hi hrun => simp [step?, stepExecutor?, he, hi, hrun]
  | finish he hi hc => simp [step?, stepExecutor?, he, hi, hc, Phase.isStopped]

/-- The moves are the steps. -/
theorem step?_eq_some_iff {p : Party} : step? ctx p s = some s' ↔ Moves ctx s p s' :=
  ⟨moves_of_step?, step?_of_moves⟩

/-! ## Waiting -/

/-- A lexer that waits has filled its channel, and the converter has still to read from it. -/
theorem of_stepLexer?_eq_none (h : step? ctx .lexer s = none) :
    s.lexer.isStopped = true ∨
      (s.converter.isStopped = false ∧ channelCapacity ≤ s.tokens.length) := by
  cases hl : s.lexer with
  | stopped _ => exact .inl rfl
  | working l =>
    right
    rcases hn : l.next with ⟨_ | t, l'⟩
    · simp [step?, stepLexer?, hl, hn] at h
    · cases hc : s.converter with
      | stopped _ => simp [step?, stepLexer?, hl, hn, hc, Phase.isStopped] at h
      | working c =>
        simp only [step?, stepLexer?, hl, hn, hc, Phase.isStopped, Bool.false_eq_true, if_false,
          ite_eq_right_iff, reduceCtorEq, imp_false] at h
        exact ⟨rfl, Nat.not_lt.1 h⟩

/-- A converter that waits has filled its channel, and the executor has still to read from it; or it
has emptied the other channel, and the lexer has still to write to it. -/
theorem of_stepConverter?_eq_none (h : step? ctx .converter s = none) :
    s.converter.isStopped = true ∨
      (s.executor.isStopped = false ∧ channelCapacity ≤ s.items.length) ∨
      (s.lexer.isStopped = false ∧ s.tokens = []) := by
  cases hc : s.converter with
  | stopped _ => exact .inl rfl
  | working c =>
    right
    obtain ⟨progress, queue⟩ := c
    -- What is in the queue waits for room; if there is nothing, the converter waits for a token.
    cases queue with
    | cons item queue =>
      left
      cases he : s.executor with
      | stopped _ => simp [step?, stepConverter?, hc, he, Phase.isStopped] at h
      | working stack =>
        simp only [step?, stepConverter?, hc, he, Phase.isStopped, Bool.false_eq_true, if_false,
          ite_eq_right_iff, reduceCtorEq, imp_false] at h
        exact ⟨rfl, Nat.not_lt.1 h⟩
    | nil =>
      right
      by_cases hh : (Converter.mk progress []).hungry = true
      · cases ht : s.tokens with
        | cons t tokens => simp [step?, stepConverter?, hc, hh, ht] at h
        | nil =>
          cases hl : s.lexer with
          | stopped _ => simp [step?, stepConverter?, hc, hh, ht, hl, Phase.isStopped] at h
          | working l => exact ⟨rfl, rfl⟩
      · simp [step?, stepConverter?, hc, hh] at h

/-- An executor that waits has emptied its channel, and the converter has still to write to it. -/
theorem of_stepExecutor?_eq_none (h : step? ctx .executor s = none) :
    s.executor.isStopped = true ∨ (s.converter.isStopped = false ∧ s.items = []) := by
  cases he : s.executor with
  | stopped _ => exact .inl rfl
  | working stack =>
    right
    cases hi : s.items with
    | cons item items =>
      cases hrun : (runItem ctx stack item).outcome <;>
        simp [step?, stepExecutor?, he, hi, hrun] at h
    | nil =>
      cases hc : s.converter with
      | stopped _ => simp [step?, stepExecutor?, he, hi, hc, Phase.isStopped] at h
      | working c => exact ⟨rfl, rfl⟩

/-- Whether all parties have stopped. -/
def isOver (s : Pipeline) : Bool :=
  s.lexer.isStopped && s.converter.isStopped && s.executor.isStopped

/-- **The parties never all wait.** The executor would wait for the converter, whose channel is
empty; so the converter would wait for the lexer, whose channel is empty too; and so the lexer would
wait for nobody. -/
theorem isOver_of_step?_eq_none (h : ∀ p, step? ctx p s = none) : s.isOver = true := by
  rcases of_stepExecutor?_eq_none (h .executor) with he | ⟨hc, hi⟩
  · rcases of_stepConverter?_eq_none (h .converter) with hc | ⟨he', -⟩ | ⟨hl, ht⟩
    · rcases of_stepLexer?_eq_none (h .lexer) with hl | ⟨hc', -⟩
      · simp [isOver, hl, hc, he]
      · simp [hc] at hc'
    · simp [he] at he'
    · rcases of_stepLexer?_eq_none (h .lexer) with hl' | ⟨-, hfull⟩
      · simp [hl] at hl'
      · simp [ht, channelCapacity] at hfull
  · rcases of_stepConverter?_eq_none (h .converter) with hc' | ⟨-, hfull⟩ | ⟨hl, ht⟩
    · simp [hc] at hc'
    · simp [hi, channelCapacity] at hfull
    · rcases of_stepLexer?_eq_none (h .lexer) with hl' | ⟨-, hfull⟩
      · simp [hl] at hl'
      · simp [ht, channelCapacity] at hfull

end Steps

/-! ## Schedules -/

/-- The state behind a schedule, which says whose turn it is. There is none if it calls upon a party
that waits or has stopped. -/
def follow? (ctx : Context) : List Party → Pipeline → Option Pipeline
  | [], s => some s
  | p :: schedule, s => (step? ctx p s).bind (follow? ctx schedule)

section Schedules

variable {ctx : Context} {schedule : List Party} {s s' : Pipeline}

theorem follow?_append (rest : List Party) :
    follow? ctx (schedule ++ rest) s = (follow? ctx schedule s).bind (follow? ctx rest) := by
  induction schedule generalizing s with
  | nil => rfl
  | cons p schedule ih =>
    rw [List.cons_append, follow?, follow?]
    cases step? ctx p s with
    | none => rfl
    | some t => exact ih

/-- What every step keeps, every schedule keeps. -/
theorem follow?_induction {P : Pipeline → Prop}
    (hstep : ∀ {p s s'}, step? ctx p s = some s' → P s → P s')
    (h : follow? ctx schedule s = some s') (hs : P s) : P s' := by
  induction schedule generalizing s with
  | nil =>
    cases h
    exact hs
  | cons p schedule ih =>
    obtain ⟨t, ht, h⟩ := Option.bind_eq_some_iff.1 h
    exact ih h (hstep ht hs)

theorem weight_add_length_le (h : follow? ctx schedule s = some s') :
    s'.weight + schedule.length ≤ s.weight := by
  induction schedule generalizing s with
  | nil =>
    cases h
    exact Nat.le_refl _
  | cons p schedule ih =>
    obtain ⟨t, ht, h⟩ := Option.bind_eq_some_iff.1 h
    have hlt := weight_lt_of_step? ht
    have hle := ih h
    rw [List.length_cons]
    omega

theorem weight_start (expression : String) :
    (start expression).weight = 6 * expression.length + 12 := by
  simp only [weight, start, phaseWeight, Lexer.remaining, Lexer.ofString, Converter.weight,
    Converter.start, Progress.weight, List.length_nil, String.length_toList]
  simp only [Bool.false_eq_true, if_false]
  omega

/-! ## The run in which the party furthest down goes first -/

theorem exists_step?_of_advance? (h : s.advance? ctx = some s') :
    ∃ p, step? ctx p s = some s' := by
  rcases Option.or_eq_some_iff.1 h with h | ⟨-, h⟩
  · exact ⟨_, h⟩
  · rcases Option.or_eq_some_iff.1 h with h | ⟨-, h⟩ <;> exact ⟨_, h⟩

theorem step?_eq_none_of_advance? (h : s.advance? ctx = none) (p : Party) :
    step? ctx p s = none := by
  obtain ⟨he, h⟩ := Option.or_eq_none_iff.1 h
  obtain ⟨hc, hl⟩ := Option.or_eq_none_iff.1 h
  cases p <;> assumption

/-- The run of a state ends with all parties stopped, and is one of its schedules. -/
theorem exists_follow?_run (ctx : Context) (s : Pipeline) :
    (run ctx s).isOver = true ∧ ∃ schedule, follow? ctx schedule s = some (run ctx s) := by
  induction s using run.induct ctx with
  | case1 s h =>
    rw [run, h]
    exact ⟨isOver_of_step?_eq_none (step?_eq_none_of_advance? h), [], rfl⟩
  | case2 s s' h ih =>
    obtain ⟨hover, schedule, hrun⟩ := ih
    obtain ⟨p, hp⟩ := exists_step?_of_advance? h
    have heq : run ctx s = run ctx s' := by rw [run, h]
    rw [heq]
    exact ⟨hover, p :: schedule, by rw [follow?, hp]; exact hrun⟩

/-- As long as a party has not stopped, some party can take a step. -/
theorem exists_step?_of_not_isOver (ctx : Context) (h : s.isOver = false) :
    ∃ p s', step? ctx p s = some s' := by
  apply Classical.byContradiction
  intro hnone
  have hwait : ∀ p, step? ctx p s = none := by
    intro p
    rw [Option.eq_none_iff_forall_ne_some]
    exact fun s' hs' => hnone ⟨p, s', hs'⟩
  rw [isOver_of_step?_eq_none hwait] at h
  cases h

/-- No channel holds more than it may. -/
def WithinCapacity (s : Pipeline) : Prop :=
  s.tokens.length ≤ channelCapacity ∧ s.items.length ≤ channelCapacity

theorem withinCapacity_start (expression : String) : (start expression).WithinCapacity :=
  ⟨Nat.zero_le _, Nat.zero_le _⟩

theorem WithinCapacity.step {p : Party} (h : step? ctx p s = some s') (hs : s.WithinCapacity) :
    s'.WithinCapacity := by
  obtain ⟨htokens, hitems⟩ := hs
  cases step?_eq_some_iff.1 h with
  | sendToken _ _ _ hlt =>
    refine ⟨?_, hitems⟩
    rw [List.length_append, List.length_singleton]
    exact hlt
  | sendItem _ _ hlt =>
    refine ⟨htokens, ?_⟩
    rw [List.length_append, List.length_singleton]
    exact hlt
  | receiveToken _ _ ht =>
    rw [ht, List.length_cons] at htokens
    exact ⟨Nat.le_of_succ_le htokens, hitems⟩
  | execute _ hi _ | fail _ hi _ =>
    rw [hi, List.length_cons] at hitems
    exact ⟨htokens, Nat.le_of_succ_le hitems⟩
  | closeTokens | abandonTokens | abandonItems | receiveEnd | closeItems | finish =>
    exact ⟨htokens, hitems⟩

/-- **No schedule comes to a standstill, and none goes on for ever.** The channels keep to their
capacity. As long as a party has not stopped, some party can take a step. The number of steps is
bounded by the length of the expression, and every schedule can be continued until all parties have
stopped. -/
theorem follow?_ends {ctx : Context} {expression : String} {schedule : List Party} {s : Pipeline}
    (h : follow? ctx schedule (start expression) = some s) :
    s.WithinCapacity ∧ (s.isOver = false → ∃ p s', step? ctx p s = some s') ∧
      schedule.length ≤ 6 * expression.length + 12 ∧
      ∃ rest s', follow? ctx (schedule ++ rest) (start expression) = some s' ∧
        s'.isOver = true := by
  refine ⟨follow?_induction WithinCapacity.step h (withinCapacity_start expression),
    exists_step?_of_not_isOver ctx, ?_, ?_⟩
  · have hle := weight_add_length_le h
    rw [weight_start] at hle
    omega
  · obtain ⟨hover, rest, hrest⟩ := exists_follow?_run ctx s
    refine ⟨rest, run ctx s, ?_, hover⟩
    rw [follow?_append, h]
    exact hrest

/-- A schedule that fills both channels: the `!` that fails is not executed before the lexer and the
converter wait for room. -/
theorem follow?_ends_blocked :
    let expression := "!+1 1 1 1 1 1 1 1 1 1 1 1 1 1 1 1 1 1 1 1 1 1 1 1 1 1 1 1 1 1 1 1 1 1 1"
    let schedule := [.lexer, .converter, .lexer, .converter, .converter]
      ++ (List.replicate 15 [Party.lexer, .converter, .converter]).flatten
      ++ [.lexer, .converter] ++ List.replicate 16 .lexer
    ∃ s, follow? .default schedule (start expression) = some s ∧
      s.tokens.length = channelCapacity ∧ s.items.length = channelCapacity ∧
      step? .default .lexer s = none ∧ step? .default .converter s = none ∧
      (∃ p s', step? .default p s = some s') ∧
      ∃ rest s', follow? .default (schedule ++ rest) (start expression) = some s' ∧
        s'.isOver = true := by
  intro expression schedule
  have hblocked : ((follow? .default schedule (start expression)).filter fun s =>
      s.tokens.length = channelCapacity ∧ s.items.length = channelCapacity ∧
        (step? .default .lexer s).isNone ∧ (step? .default .converter s).isNone ∧
        s.isOver = false).isSome = true := by
    decide +kernel
  obtain ⟨s, hs⟩ := Option.isSome_iff_exists.1 hblocked
  obtain ⟨hs, hfull⟩ := Option.filter_eq_some_iff.1 hs
  obtain ⟨htokens, hitems, hl, hc, hworks⟩ := of_decide_eq_true hfull
  obtain ⟨-, hstep, -, hend⟩ := follow?_ends hs
  exact ⟨s, hs, htokens, hitems, Option.isNone_iff_eq_none.1 hl, Option.isNone_iff_eq_none.1 hc,
    hstep hworks, hend⟩

end Schedules

end Pipeline

end Formula
