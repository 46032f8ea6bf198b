import Formula.Evaluator

/-!
# Evaluation by three parties

A lexer, a converter and an executor work side by side. The first two send what they produce
through channels of limited size; each party takes what comes in order.

* A party waits while the channel it sends to is full, or the one it receives from is empty.
* A party whose receiver is gone stops. One whose sender is gone sees the end of its input once its
  channel is empty.

Statements:

* `Pipeline.step? ctx p s`: the one step that the party `p` can take, if it does not wait.
* `Pipeline.Moves`: what the parties may do, move by move.
* `Pipeline.weight_lt_of_step?`: every step, whoever takes it, lowers the weight of the state, so
  every run comes to its end.
* `Pipeline.run`: the run in which the party furthest down goes first.
* `Pipeline.eval`: the value of an expression.
-/

namespace Formula

/-- The most tokens or items that a channel holds. -/
def channelCapacity : Nat := 16

/-- The parties. -/
inductive Party
  | lexer
  | converter
  | executor
deriving Repr, DecidableEq

/-- A party that works, with its state, or that has stopped. -/
inductive Phase (σ : Type) (ρ : Type)
  | working (state : σ)
  | stopped (outcome : ρ)

/-- Whether the party has stopped. -/
def Phase.isStopped {σ ρ : Type} : Phase σ ρ → Bool
  | working _ => false
  | stopped _ => true

theorem Phase.exists_working {σ ρ : Type} {x : Phase σ ρ} (h : ¬x.isStopped = true) :
    ∃ state, x = .working state := by
  cases x with
  | working state => exact ⟨state, rfl⟩
  | stopped _ => exact absurd rfl h

theorem Phase.exists_stopped {σ ρ : Type} {x : Phase σ ρ} (h : x.isStopped = true) :
    ∃ outcome, x = .stopped outcome := by
  cases x with
  | working _ => cases h
  | stopped outcome => exact ⟨outcome, rfl⟩

/-- The parties, and what is in the channels between them, oldest first. -/
structure Pipeline where
  lexer : Phase Lexer Unit
  tokens : List Token
  converter : Phase Converter Unit
  items : List Item
  executor : Phase OperandStack (Except EvalError Value)

namespace Pipeline

/-- All parties at their start, and nothing in the channels. -/
def start (expression : String) : Pipeline :=
  ⟨.working (.ofString expression), [], .working .start, [], .working []⟩

/-- The lexer reads a token and sends it. It stops at the end of the text. -/
def stepLexer? (s : Pipeline) : Option Pipeline :=
  match s.lexer with
  | .stopped _ => none
  | .working l =>
    match l.next with
    | (none, _) => some { s with lexer := .stopped () }
    | (some t, l') =>
      if s.converter.isStopped then some { s with lexer := .stopped () }
      else if s.tokens.length < channelCapacity then
        some { s with lexer := .working l', tokens := s.tokens ++ [t] }
      else none

/-- The converter sends what it has released; then it receives a token, or the end of its input. It
stops when its conversion is over. -/
def stepConverter? (ctx : Context) (s : Pipeline) : Option Pipeline :=
  match s.converter with
  | .stopped _ => none
  | .working c =>
    match c.queue with
    | item :: queue =>
      if s.executor.isStopped then some { s with converter := .stopped () }
      else if s.items.length < channelCapacity then
        some { s with converter := .working ⟨c.progress, queue⟩, items := s.items ++ [item] }
      else none
    | [] =>
      if c.hungry then
        match s.tokens with
        | t :: tokens =>
          some { s with converter := .working (c.accept ctx.operators (some t)), tokens := tokens }
        | [] =>
          if s.lexer.isStopped then
            some { s with converter := .working (c.accept ctx.operators none) }
          else none
      else some { s with converter := .stopped () }

/-- The executor receives an item and runs it. It stops at the first error, and at the end of its
input with the value that is then on the stack. -/
def stepExecutor? (ctx : Context) (s : Pipeline) : Option Pipeline :=
  match s.executor with
  | .stopped _ => none
  | .working stack =>
    match s.items with
    | item :: items =>
      match (runItem ctx stack item).outcome with
      | .ok stack => some { s with executor := .working stack, items := items }
      | .error e => some { s with executor := .stopped (.error e), items := items }
    | [] =>
      if s.converter.isStopped then some { s with executor := .stopped stack.result } else none

/-- The step that a party can take, if it does not wait. -/
def step? (ctx : Context) (p : Party) (s : Pipeline) : Option Pipeline :=
  match p with
  | .lexer => s.stepLexer?
  | .converter => s.stepConverter? ctx
  | .executor => s.stepExecutor? ctx

/-! ## Moves -/

/-- What the parties may do next, move by move. -/
inductive Moves (ctx : Context) (s : Pipeline) : Party → Pipeline → Prop
  /-- A token is sent. -/
  | sendToken {l l' : Lexer} {c : Converter} {t : Token} :
      s.lexer = .working l → s.converter = .working c → l.next = (some t, l') →
      s.tokens.length < channelCapacity →
      Moves ctx s .lexer { s with lexer := .working l', tokens := s.tokens ++ [t] }
  /-- No token is left. -/
  | closeTokens {l l' : Lexer} : s.lexer = .working l → l.next = (none, l') →
      Moves ctx s .lexer { s with lexer := .stopped () }
  /-- Nobody receives tokens any more. -/
  | abandonTokens {l : Lexer} : s.lexer = .working l → s.converter = .stopped () →
      Moves ctx s .lexer { s with lexer := .stopped () }
  /-- An item is sent. -/
  | sendItem {progress : Progress} {item : Item} {queue : List Item} {stack : OperandStack} :
      s.converter = .working ⟨progress, item :: queue⟩ → s.executor = .working stack →
      s.items.length < channelCapacity →
      Moves ctx s .converter
        { s with converter := .working ⟨progress, queue⟩, items := s.items ++ [item] }
  /-- Nobody receives items any more. -/
  | abandonItems {progress : Progress} {item : Item} {queue : List Item}
      {outcome : Except EvalError Value} :
      s.converter = .working ⟨progress, item :: queue⟩ → s.executor = .stopped outcome →
      Moves ctx s .converter { s with converter := .stopped () }
  /-- A token is received. -/
  | receiveToken {c : Converter} {t : Token} {tokens : List Token} :
      s.converter = .working c → c.hungry = true → s.tokens = t :: tokens →
      Moves ctx s .converter
        { s with converter := .working (c.accept ctx.operators (some t)), tokens := tokens }
  /-- No token will come any more. -/
  | receiveEnd {c : Converter} :
      s.converter = .working c → c.hungry = true → s.tokens = [] → s.lexer = .stopped () →
      Moves ctx s .converter { s with converter := .working (c.accept ctx.operators none) }
  /-- The conversion is over. -/
  | closeItems {c : Converter} :
      s.converter = .working c → c.queue = [] → c.hungry = false →
      Moves ctx s .converter { s with converter := .stopped () }
  /-- An item is executed. -/
  | execute {stack stack' : OperandStack} {item : Item} {items : List Item} :
      s.executor = .working stack → s.items = item :: items →
      (runItem ctx stack item).outcome = .ok stack' →
      Moves ctx s .executor { s with executor := .working stack', items := items }
  /-- An item fails. -/
  | fail {stack : OperandStack} {item : Item} {items : List Item} {e : EvalError} :
      s.executor = .working stack → s.items = item :: items →
      (runItem ctx stack item).outcome = .error e →
      Moves ctx s .executor { s with executor := .stopped (.error e), items := items }
  /-- No item will come any more. -/
  | finish {stack : OperandStack} :
      s.executor = .working stack → s.items = [] → s.converter = .stopped () →
      Moves ctx s .executor { s with executor := .stopped stack.result }

section Moves

variable {ctx : Context} {s s' : Pipeline}

theorem moves_of_stepLexer? (h : s.stepLexer? = some s') : Moves ctx s .lexer s' := by
  unfold stepLexer? at h
  split at h
  · cases h
  · next l hl =>
    split at h
    · next l' hn =>
      cases h
      exact .closeTokens hl hn
    · next t l' hn =>
      split at h
      · next hc =>
        cases h
        obtain ⟨⟨⟩, hc⟩ := Phase.exists_stopped hc
        exact .abandonTokens hl hc
      · next hc =>
        split at h
        · next hlen =>
          cases h
          obtain ⟨c, hc⟩ := Phase.exists_working hc
          exact .sendToken hl hc hn hlen
        · cases h

theorem moves_of_stepConverter? (h : s.stepConverter? ctx = some s') :
    Moves ctx s .converter s' := by
  unfold stepConverter? at h
  split at h
  · cases h
  · next c hc =>
    split at h
    · next item queue hq =>
      have hc : s.converter = .working ⟨c.progress, item :: queue⟩ := by rw [hc, ← hq]
      split at h
      · next he =>
        cases h
        obtain ⟨outcome, he⟩ := Phase.exists_stopped he
        exact .abandonItems hc he
      · next he =>
        split at h
        · next hlen =>
          cases h
          obtain ⟨stack, he⟩ := Phase.exists_working he
          exact .sendItem hc he hlen
        · cases h
    · next hq =>
      split at h
      · next hh =>
        split at h
        · next t tokens ht =>
          cases h
          exact .receiveToken hc hh ht
        · next ht =>
          split at h
          · next hl =>
            cases h
            obtain ⟨⟨⟩, hl⟩ := Phase.exists_stopped hl
            exact .receiveEnd hc hh ht hl
          · cases h
      · next hh =>
        cases h
        exact .closeItems hc hq (Bool.not_eq_true _ ▸ hh)

theorem moves_of_stepExecutor? (h : s.stepExecutor? ctx = some s') :
    Moves ctx s .executor s' := by
  unfold stepExecutor? at h
  split at h
  · cases h
  · next stack hs =>
    split at h
    · next item items hi =>
      split at h
      · next stack' hrun =>
        cases h
        exact .execute hs hi hrun
      · next e hrun =>
        cases h
        exact .fail hs hi hrun
    · next hi =>
      split at h
      · next hc =>
        cases h
        obtain ⟨⟨⟩, hc⟩ := Phase.exists_stopped hc
        exact .finish hs hi hc
      · cases h

/-- Every step is a move. -/
theorem moves_of_step? {p : Party} (h : step? ctx p s = some s') : Moves ctx s p s' := by
  cases p with
  | lexer => exact moves_of_stepLexer? h
  | converter => exact moves_of_stepConverter? h
  | executor => exact moves_of_stepExecutor? h

end Moves

/-! ## Every run ends -/

/-- What a party counts: one while it works, and what it may still do. -/
def phaseWeight {σ ρ : Type} (f : σ → Nat) : Phase σ ρ → Nat
  | .working x => f x + 1
  | .stopped _ => 0

/-- What a state may still do: the further a token has come, the less it counts. -/
def weight (s : Pipeline) : Nat :=
  phaseWeight (fun l => 6 * l.remaining) s.lexer + 5 * s.tokens.length
    + phaseWeight Converter.weight s.converter + s.items.length
    + phaseWeight (fun _ => 0) s.executor

/-- Every step lowers the weight, whoever takes it. -/
theorem weight_lt_of_step? {ctx : Context} {p : Party} {s s' : Pipeline}
    (h : step? ctx p s = some s') : s'.weight < s.weight := by
  cases moves_of_step? h with
  | @sendToken l l' c t hl hc hn _ =>
    have hr := Lexer.remaining_of_next hn
    simp only [weight, hl, phaseWeight, List.length_append, List.length_singleton]
    omega
  | closeTokens hl _ | abandonTokens hl _ =>
    simp only [weight, hl, phaseWeight]
    omega
  | @sendItem progress item queue stack hc he _ =>
    -- an item in the channel counts less than one in the queue
    cases progress <;> simp only [weight, hc, phaseWeight, Converter.weight, List.length_append,
      List.length_cons, List.length_nil] <;> omega
  | abandonItems hc _ | closeItems hc _ _ =>
    simp only [weight, hc, phaseWeight]
    omega
  | @receiveToken c t tokens hc _ ht =>
    have hw := c.weight_accept_some_le ctx.operators t
    simp only [weight, hc, ht, phaseWeight, List.length_cons]
    omega
  | receiveEnd hc hh _ _ =>
    have hw := Converter.weight_accept_none_lt ctx.operators hh
    simp only [weight, hc, phaseWeight]
    omega
  | execute hs hi _ | fail hs hi _ =>
    simp only [weight, hs, hi, phaseWeight, List.length_cons]
    omega
  | finish hs _ _ =>
    simp only [weight, hs, phaseWeight]
    omega

/-- One step of the party furthest down that does not wait. -/
def advance? (ctx : Context) (s : Pipeline) : Option Pipeline :=
  (step? ctx .executor s).or ((step? ctx .converter s).or (step? ctx .lexer s))

theorem weight_lt_of_advance? {ctx : Context} {s s' : Pipeline}
    (h : s.advance? ctx = some s') : s'.weight < s.weight := by
  unfold advance? at h
  rcases Option.or_eq_some_iff.1 h with h | ⟨-, h⟩
  · exact weight_lt_of_step? h
  · rcases Option.or_eq_some_iff.1 h with h | ⟨-, h⟩ <;> exact weight_lt_of_step? h

/-- Steps until every party has stopped or waits. -/
def run (ctx : Context) (s : Pipeline) : Pipeline :=
  match _h : s.advance? ctx with
  | none => s
  | some s' => run ctx s'
termination_by s.weight
decreasing_by exact weight_lt_of_advance? _h

/-- The value of an expression, evaluated by the three parties. -/
def eval (ctx : Context) (expression : String) : Except EvalError Value :=
  match (run ctx (start expression)).executor with
  | .stopped outcome => outcome
  | .working _ => .error (.other "pipeline stage panicked")

end Pipeline

end Formula
