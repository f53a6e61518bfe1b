import Bindcheck.Checker
import Bindcheck.Lexical.Session
import Bindcheck.Main
import Bindcheck.Proofs.Grammar.Layout
import Bindcheck.Proofs.Grammar.Lexeme
import Bindcheck.Proofs.Grammar.Lookahead
import Bindcheck.Proofs.Grammar.Derivation
import Bindcheck.Proofs.Grammar.ReadBack
import Bindcheck.Proofs.Grammar.Soundness
import Bindcheck.Proofs.Grammar.Unambiguous
import Bindcheck.Proofs.Language
import Bindcheck.Proofs.Subexpression
import Bindcheck.Proofs.Typing
import Bindcheck.Proofs.Shift.Code
import Bindcheck.Proofs.Shift.Readers
import Bindcheck.Proofs.Concatenation
import Bindcheck.Proofs.Reparse
import Bindcheck.Proofs.Completed
import Bindcheck.Proofs.Reuse
import Bindcheck.Proofs.Dialogue
import Bindcheck.Proofs.Ended
import Bindcheck.Proofs.Query
import Bindcheck.Proofs.Commutation
import Bindcheck.Proofs.ExitCode
import Bindcheck.Proofs.Refusal.Cause
import Bindcheck.Proofs.Refusal.Program
import Bindcheck.Proofs.Refusal.Truth
import Bindcheck.Proofs.Refusal.Span
import Bindcheck.Proofs.Refusal.Operand
import Bindcheck.Proofs.Quotation
import Bindcheck.Proofs.RawMark
import Bindcheck.Proofs.Geometry
import Bindcheck.Proofs.Spacing.Layout
import Bindcheck.Proofs.Spacing.Tree
import Bindcheck.Proofs.Spacing.Written
import Bindcheck.Proofs.Spacing.Program
import Bindcheck.Proofs.Nesting.Counter
import Bindcheck.Proofs.Nesting.Readers
import Bindcheck.Proofs.Nesting.Allowance
import Bindcheck.Proofs.Nesting.Limit
import Bindcheck.Proofs.Weakening
import Bindcheck.Proofs.Ration.Extent
import Bindcheck.Proofs.Ration.Loops
import Bindcheck.Proofs.Ration.Rationed
import Bindcheck.Proofs.Ration.Agreement
import Bindcheck.Proofs.Ration.Enough
import Bindcheck.Proofs.History
import Bindcheck.Proofs.Decimal.Digits
import Bindcheck.Proofs.Integer
import Bindcheck.Proofs.Session
import Bindcheck.Proofs.Decimal.Fewest
import Bindcheck.Proofs.Decimal.Notation
import Bindcheck.Proofs.Double.Order
import Bindcheck.Proofs.Double.Whole
import Bindcheck.Proofs.Double.Rounding
import Bindcheck.Proofs.Double.Shortest
import Bindcheck.Proofs.Double.Display
import Bindcheck.Proofs.Location
