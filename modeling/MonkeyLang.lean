import MonkeyLang.Command
import MonkeyLang.Eval.Builtins
import MonkeyLang.Eval.Expansion
import MonkeyLang.Eval.Expressions
import MonkeyLang.Eval.Operators
import MonkeyLang.Eval.Outcome
import MonkeyLang.Eval.Quotation
import MonkeyLang.Eval.Statements
import MonkeyLang.Expr.Basic
import MonkeyLang.Expr.Equality
import MonkeyLang.Expr.Render
import MonkeyLang.Expr.Transform
import MonkeyLang.Main
import MonkeyLang.Program.ParseError
import MonkeyLang.Program.Parser
import MonkeyLang.Program.Reading
import MonkeyLang.Program.Strength
import MonkeyLang.Scope.Basic
import MonkeyLang.Scope.Store
import MonkeyLang.Session.Basic
import MonkeyLang.Session.HostError
import MonkeyLang.Session.Prompt
import MonkeyLang.Session.Script
import MonkeyLang.Text.Bytes
import MonkeyLang.Text.Decimal
import MonkeyLang.Text.Sink
import MonkeyLang.Text.WhiteSpace
import MonkeyLang.Token.Basic
import MonkeyLang.Token.Lexer
import MonkeyLang.Value.Basic
import MonkeyLang.Value.Digest
import MonkeyLang.Value.Equality
import MonkeyLang.Value.Fault
import MonkeyLang.Value.Hash
import MonkeyLang.Value.Kind
import MonkeyLang.Value.Render
import MonkeyLang.Proofs.Expr.Transform
import MonkeyLang.Proofs.Expr.All
import MonkeyLang.Proofs.Expr.Everywhere
import MonkeyLang.Proofs.Token.Lexer
import MonkeyLang.Proofs.Value.Parts
import MonkeyLang.Proofs.Scope.Store
import MonkeyLang.Proofs.Scope.Sides
import MonkeyLang.Proofs.Scope.Region
import MonkeyLang.Proofs.Grammar.Basic
import MonkeyLang.Proofs.Grammar.Strength
import MonkeyLang.Proofs.Grammar.Yields
import MonkeyLang.Proofs.Grammar.Soundness
import MonkeyLang.Proofs.Grammar.Completeness
import MonkeyLang.Proofs.Grammar.Parse
import MonkeyLang.Proofs.Grammar.WellFormed
import MonkeyLang.Proofs.Print.Order
import MonkeyLang.Proofs.Print.Tokens
import MonkeyLang.Proofs.Print.Reread
import MonkeyLang.Proofs.Eval.Invariant
import MonkeyLang.Proofs.Eval.Preservation
import MonkeyLang.Proofs.Eval.Frame
import MonkeyLang.Proofs.Eval.Quotation
import MonkeyLang.Proofs.Session.Basic
import MonkeyLang.Proofs.Session.Sentinels
import MonkeyLang.Proofs.Session.Separation
import MonkeyLang.Proofs.Session.Quotation
import MonkeyLang.Proofs.Scope.Alike
import MonkeyLang.Proofs.Eval.Simulation
import MonkeyLang.Proofs.Eval.Agreement
import MonkeyLang.Proofs.Eval.Repeatability
import MonkeyLang.Proofs.Grammar.Append
import MonkeyLang.Proofs.Grammar.Attempts
import MonkeyLang.Proofs.Grammar.Accounting
import MonkeyLang.Proofs.Eval.Sequence
import MonkeyLang.Proofs.Session.Lines
import MonkeyLang.Proofs.Session.Independence
import MonkeyLang.Proofs.Session.Transcript
import MonkeyLang.Proofs.Macro.Substitution
import MonkeyLang.Proofs.Scope.Apart
import MonkeyLang.Proofs.Eval.BuiltinNames
import MonkeyLang.Proofs.Grammar.Braces
import MonkeyLang.Proofs.Print.Listing
import MonkeyLang.Proofs.Print.Layout
import MonkeyLang.Proofs.Print.Unique
import MonkeyLang.Proofs.Expr.Walk
import MonkeyLang.Proofs.Value.Operators
import MonkeyLang.Proofs.Eval.Pairing
import MonkeyLang.Proofs.Eval.Arithmetic
import MonkeyLang.Proofs.Macro.OnePass
import MonkeyLang.Proofs.Eval.NestedQuotation
import MonkeyLang.Proofs.Eval.Termination
import MonkeyLang.Proofs.Value.Hash
import MonkeyLang.Proofs.Value.Equality
import MonkeyLang.Proofs.Eval.HashLiteral
import MonkeyLang.Proofs.Token.Lossless
import MonkeyLang.Proofs.Print.Data
import MonkeyLang.Proofs.Token.Joined
import MonkeyLang.Proofs.Scope.History
import MonkeyLang.Proofs.Expr.Visits
import MonkeyLang.Proofs.Value.Digest
