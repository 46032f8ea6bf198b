import Formula.Text.Bytes
import Formula.Text.Blank
import Formula.Text.Lowercase
import Formula.Text.Quoted
import Formula.Decimal.Layout
import Formula.Decimal.Numeral
import Formula.Token.Trivia
import Formula.Token.Lexeme
import Formula.Token.Lexer
import Formula.Log
import Formula.Stack
import Formula.Builtin
import Formula.Datum
import Formula.Pipeline
import Formula.Proofs.Decimal.Numeral
import Formula.Proofs.Decimal.Digits
import Formula.Proofs.Token.Literals
import Formula.Proofs.Arithmetic.Shift
import Formula.Proofs.Syntax.Grammar
import Formula.Proofs.Syntax.Climbing
import Formula.Proofs.Postfix.Interleaving
import Formula.Proofs.Postfix.Turns
import Formula.Proofs.Postfix.Order
import Formula.Proofs.Postfix.Token
import Formula.Proofs.Postfix.Acceptance
import Formula.Proofs.Postfix.Failure
import Formula.Proofs.Pipeline.Schedule
import Formula.Proofs.Pipeline.Agreement
import Formula.Proofs.Default.Grammar
import Formula.Proofs.Default.Errors
import Formula.Proofs.Default.Term
import Formula.Proofs.Default.Sentence
import Formula.Proofs.Default.Integers
import Formula.Proofs.Default.Token
import Formula.Proofs.Default.Postorder
import Formula.Proofs.Default.Arity
import Formula.Proofs.Decimal.Longest
import Formula.Proofs.Token.Munch
import Formula.Proofs.Token.Partition
import Formula.Proofs.Rounding.Integer
import Formula.Proofs.Rounding.Decimal
import Formula.Proofs.Rounding.Binary64
import Formula.Proofs.Rounding.Reading
import Formula.Proofs.Rounding.Shown
import Formula.Proofs.Registry.History
import Formula.Proofs.Token.Positions
import Formula.Proofs.Postfix.Relabel
import Formula.Proofs.Default.Relabel
import Formula.Proofs.Postfix.Origin
import Formula.Proofs.Default.Blame
import Formula.Proofs.Postfix.Permutation
import Formula.Proofs.Syntax.Placement
import Formula.Proofs.Default.Accepted
import Formula.Proofs.Postfix.Lookup
import Formula.Proofs.Token.Boundary
import Formula.Proofs.Postfix.Rendered
import Formula.Proofs.Postfix.Bounds
import Formula.Proofs.Postfix.Simulation
import Formula.Proofs.Default.Bounds
import Formula.Proofs.Token.Skipped
import Formula.Proofs.Token.Recased
import Formula.Proofs.Registry.Operations
import Formula.Proofs.Postfix.Recased
import Formula.Proofs.Default.Recased
import Formula.Proofs.Postfix.Postponed
import Formula.Proofs.Token.LineBreak
import Formula.Proofs.Postfix.Brackets
import Formula.Proofs.Postfix.Laziness
import Formula.Proofs.Default.Validation
import Formula.Proofs.Decimal.Written
import Formula.Proofs.Rounding.Closest
import Formula.Proofs.Rounding.Sign
import Formula.Proofs.Rounding.Text
import Formula.Proofs.Rounding.Monotone
import Formula.Proofs.Postfix.Reread
import Formula.Proofs.Default.Frame
import Formula.Proofs.Arithmetic.Exact
import Formula.Proofs.Registry.Installation
import Formula.Proofs.Token.Resumption
import Formula.Proofs.Postfix.Ascent
import Formula.Proofs.Default.Ascent
import Formula.Proofs.Postfix.Transcript
