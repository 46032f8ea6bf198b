import Formula.Error
import Formula.Token.Basic

/-!
# The log

* `LogRecord`: what is recorded; `LogRecord.line` is its text with its level.
* `Logged`: a computation that may fail and records what it does; records made before a failure
  stay.
-/

namespace Formula

/-- One record of the log. -/
inductive LogRecord
  /-- An evaluation begins. -/
  | evaluating (expression : String)
  /-- The conversion releases a token. -/
  | released (kind : TokenKind) (text : String)
  | conversionFailed (error : EvalError)
  /-- A token in postfix order is about to be executed. -/
  | executing (kind : TokenKind) (text : String)
  | evaluationFailed (expression : String) (error : EvalError)
  /-- An entry of a context took the place of an earlier one. -/
  | operatorReplaced (symbol : String)
  | functionReplaced (name : String)
deriving Repr, DecidableEq

namespace LogRecord

/-- How much a record matters. -/
def level : LogRecord → String
  | evaluating _ | evaluationFailed _ _ | operatorReplaced _ | functionReplaced _ => "DEBUG"
  | released _ _ | conversionFailed _ | executing _ _ => "TRACE"

/-- The wording of a record. -/
def message : LogRecord → String
  | evaluating expression => "evaluating '" ++ expression ++ "'"
  | released kind text => "postfix <- " ++ kind.label ++ " '" ++ text ++ "'"
  | conversionFailed error => "conversion failed: " ++ error.message
  | executing kind text => "execute " ++ kind.label ++ " '" ++ text ++ "'"
  | evaluationFailed expression error =>
      "evaluation of '" ++ expression ++ "' failed: " ++ error.message
  | operatorReplaced symbol => "operator '" ++ symbol ++ "' replaced"
  | functionReplaced name => "function '" ++ name ++ "' replaced"

/-- A line of the log. -/
def line (r : LogRecord) : String := r.level ++ " " ++ r.message

end LogRecord

/-- The outcome of a computation and the records it made, oldest first. -/
structure Logged (α : Type) where
  records : List LogRecord
  outcome : Except EvalError α

namespace Logged

/-- Records and nothing else. -/
def tell (rs : List LogRecord) : Logged Unit := ⟨rs, .ok ()⟩

/-- A computation that makes no records. -/
def lift {α : Type} (x : Except EvalError α) : Logged α := ⟨[], x⟩

/-- Goes on with the value, if there is one. -/
def andThen {α β : Type} (x : Logged α) (f : α → Logged β) : Logged β :=
  match x.outcome with
  | .error e => ⟨x.records, .error e⟩
  | .ok a =>
    let y := f a
    ⟨x.records ++ y.records, y.outcome⟩

instance : Monad Logged where
  pure a := ⟨[], .ok a⟩
  bind := andThen

theorem bind_error {α β : Type} (rs : List LogRecord) (e : EvalError) (f : α → Logged β) :
    (⟨rs, .error e⟩ >>= f : Logged β) = ⟨rs, .error e⟩ := rfl

theorem bind_ok {α β : Type} (rs : List LogRecord) (a : α) (f : α → Logged β) :
    (⟨rs, .ok a⟩ >>= f : Logged β) = ⟨rs ++ (f a).records, (f a).outcome⟩ := rfl

theorem id_map {α : Type} (x : Logged α) : id <$> x = x := by
  obtain ⟨rs, e | a⟩ := x
  · rfl
  · show Logged.mk (rs ++ []) (.ok a) = _
    rw [List.append_nil]

theorem bind_assoc {α β γ : Type} (x : Logged α) (f : α → Logged β) (g : β → Logged γ) :
    x >>= f >>= g = x >>= fun a => f a >>= g := by
  obtain ⟨rs, e | a⟩ := x
  · rfl
  · rw [bind_ok, bind_ok]
    obtain ⟨rs', e | b⟩ := f a
    · rfl
    · rw [bind_ok, bind_ok, List.append_assoc]

instance : LawfulMonad Logged := .mk' Logged id_map (fun _ _ => rfl) bind_assoc

/-- Records that are made one after the other. -/
theorem tell_append {α : Type} (rs rs' : List LogRecord) (f : Unit → Logged α) :
    tell (rs ++ rs') >>= f = tell rs >>= fun _ => tell rs' >>= f :=
  congrArg (Logged.mk · (f ()).outcome) (List.append_assoc rs rs' (f ()).records)

end Logged

end Formula
