import TypedLet.Grammar.Annotation
import TypedLet.Grammar.Cursor
import TypedLet.Grammar.Expression
import TypedLet.Grammar.Lexeme
import TypedLet.Grammar.Rule
import TypedLet.Grammar.Source
import TypedLet.Main
import TypedLet.Node.Annotation
import TypedLet.Node.Basic
import TypedLet.Node.Written
import TypedLet.Proofs.Grammar.Advance
import TypedLet.Proofs.Grammar.Alternatives
import TypedLet.Proofs.Grammar.Annotation
import TypedLet.Proofs.Grammar.AnnotationText
import TypedLet.Proofs.Grammar.Approach
import TypedLet.Proofs.Grammar.Arrangement
import TypedLet.Proofs.Grammar.Boundary
import TypedLet.Proofs.Grammar.Commitment
import TypedLet.Proofs.Grammar.Completeness
import TypedLet.Proofs.Grammar.Derivation
import TypedLet.Proofs.Grammar.Descent
import TypedLet.Proofs.Grammar.Effort
import TypedLet.Proofs.Grammar.Erasure
import TypedLet.Proofs.Grammar.Exclusion
import TypedLet.Proofs.Grammar.Extent
import TypedLet.Proofs.Grammar.Follow
import TypedLet.Proofs.Grammar.Language
import TypedLet.Proofs.Grammar.Lexeme
import TypedLet.Proofs.Grammar.Literals
import TypedLet.Proofs.Grammar.Lockstep
import TypedLet.Proofs.Grammar.Mistake
import TypedLet.Proofs.Grammar.Names
import TypedLet.Proofs.Grammar.Numerals
import TypedLet.Proofs.Grammar.Overrun
import TypedLet.Proofs.Grammar.Pace
import TypedLet.Proofs.Grammar.Place
import TypedLet.Proofs.Grammar.Placement
import TypedLet.Proofs.Grammar.Prefix
import TypedLet.Proofs.Grammar.Printed
import TypedLet.Proofs.Grammar.Prospect
import TypedLet.Proofs.Grammar.Respacing
import TypedLet.Proofs.Grammar.Rule
import TypedLet.Proofs.Grammar.Shape
import TypedLet.Proofs.Grammar.Soundness
import TypedLet.Proofs.Grammar.Spacing
import TypedLet.Proofs.Grammar.SpanText
import TypedLet.Proofs.Grammar.Stepwise
import TypedLet.Proofs.Grammar.Subtext
import TypedLet.Proofs.Grammar.Terminal
import TypedLet.Proofs.Grammar.Termination
import TypedLet.Proofs.Grammar.Variation
import TypedLet.Proofs.Grammar.Visible
import TypedLet.Proofs.Grammar.Window
import TypedLet.Proofs.Grammar.Words
import TypedLet.Proofs.Node.Kind
import TypedLet.Proofs.Node.Parallel
import TypedLet.Proofs.Node.Parts
import TypedLet.Proofs.Node.Places
import TypedLet.Proofs.Node.Position
import TypedLet.Proofs.Node.Written
import TypedLet.Proofs.Repl
import TypedLet.Proofs.Report
import TypedLet.Proofs.Scope.Journal
import TypedLet.Proofs.Scope.Rollback
import TypedLet.Proofs.Scope.Stack
import TypedLet.Proofs.Span.Excerpt
import TypedLet.Proofs.Text.Decimal
import TypedLet.Proofs.Text.Form
import TypedLet.Proofs.Text.Lines
import TypedLet.Proofs.Text.Parentheses
import TypedLet.Proofs.Typing.Attribution
import TypedLet.Proofs.Typing.Blame
import TypedLet.Proofs.Typing.Concurrence
import TypedLet.Proofs.Typing.Environment
import TypedLet.Proofs.Typing.Fault
import TypedLet.Proofs.Typing.FreeNames
import TypedLet.Proofs.Typing.Inlining
import TypedLet.Proofs.Typing.Judgment
import TypedLet.Proofs.Typing.Layout
import TypedLet.Proofs.Typing.Renaming
import TypedLet.Proofs.Typing.Replacement
import TypedLet.Proofs.Typing.Session
import TypedLet.Proofs.Typing.Signature
import TypedLet.Proofs.Typing.Underlined
import TypedLet.Proofs.Typing.Verdict
import TypedLet.Repl
import TypedLet.Report
import TypedLet.Scope.Basic
import TypedLet.Scope.Script
import TypedLet.Scope.Table
import TypedLet.Span.Basic
import TypedLet.Span.Excerpt
import TypedLet.Text.Blank
import TypedLet.Text.Decimal
import TypedLet.Text.Form
import TypedLet.Text.Lines
import TypedLet.Text.Quoted
import TypedLet.Text.Slice
import TypedLet.Text.Tabs
import TypedLet.Ty
import TypedLet.Typing.Error
import TypedLet.Typing.Infer
import TypedLet.Typing.Program
import TypedLet.Typing.Session
