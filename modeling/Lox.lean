import Lox.Main
import Lox.Proofs.Binding.Distance
import Lox.Proofs.Binding.Offence
import Lox.Proofs.Decimal.Faithful
import Lox.Proofs.Decimal.Numeral
import Lox.Proofs.Eval.Kept
import Lox.Proofs.Grammar.Layout
import Lox.Proofs.Grammar.Malformed
import Lox.Proofs.Grammar.Readable
import Lox.Proofs.Indexed.Ends
import Lox.Proofs.Lexical.Session
import Lox.Proofs.Machine.Rooted
import Lox.Proofs.Machine.Simulates
import Lox.Proofs.Scope.Access
import Lox.Proofs.Scope.Rooted
import Lox.Proofs.Session.Bound
import Lox.Proofs.Session.Cut
import Lox.Proofs.Session.Documented
import Lox.Proofs.Session.Expanded
import Lox.Proofs.Session.Initializer
import Lox.Proofs.Session.Joined
import Lox.Proofs.Session.Marked
import Lox.Proofs.Session.Names
import Lox.Proofs.Session.Normal
import Lox.Proofs.Session.Numbered
import Lox.Proofs.Session.Points
import Lox.Proofs.Session.Refused
import Lox.Proofs.Session.Written
