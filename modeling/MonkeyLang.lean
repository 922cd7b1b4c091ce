import MonkeyLang.Describe
import MonkeyLang.Highlight
import MonkeyLang.Main
import MonkeyLang.Proofs.Grammar
import MonkeyLang.Proofs.Numeral
import MonkeyLang.Proofs.Reading
import MonkeyLang.Proofs.Span
import MonkeyLang.Proofs.Grammar.Completeness
import MonkeyLang.Proofs.Grammar.Acceptance
import MonkeyLang.Proofs.Reading.Locality
import MonkeyLang.Proofs.Recovery
import MonkeyLang.Proofs.Recovery.Block
import MonkeyLang.Proofs.Evaluation
import MonkeyLang.Proofs.Evaluation.Asking
import MonkeyLang.Proofs.Evaluation.Plan
import MonkeyLang.Proofs.Evaluation.Trail
import MonkeyLang.Proofs.Store
import MonkeyLang.Proofs.Evaluation.Storage
import MonkeyLang.Proofs.Evaluation.Failure
import MonkeyLang.Proofs.Evaluation.Marker
import MonkeyLang.Proofs.Evaluation.Frames
import MonkeyLang.Proofs.Evaluation.Contract
import MonkeyLang.Proofs.Node
import MonkeyLang.Proofs.Evaluation.Discipline
import MonkeyLang.Proofs.Reading.Tree
import MonkeyLang.Proofs.Evaluation.Integers
import MonkeyLang.Proofs.Control.Structured
import MonkeyLang.Proofs.Control.Agreement
import MonkeyLang.Proofs.Arithmetic.Machine
import MonkeyLang.Proofs.Arithmetic.Text
import MonkeyLang.Proofs.Arithmetic.Meaning
import MonkeyLang.Proofs.Evaluation.Table
import MonkeyLang.Proofs.Lexing.Spelling
import MonkeyLang.Proofs.Grammar.Source
import MonkeyLang.Proofs.Rendering
import MonkeyLang.Proofs.Data
import MonkeyLang.Proofs.Data.Reading
import MonkeyLang.Proofs.Lexing.Joining
import MonkeyLang.Proofs.Grammar.Joining
import MonkeyLang.Proofs.Placement
import MonkeyLang.Proofs.View
import MonkeyLang.Proofs.Reading.Placement
import MonkeyLang.Proofs.Evaluation.View
import MonkeyLang.Proofs.Session
import MonkeyLang.Proofs.Lexing.Terminals
import MonkeyLang.Proofs.Lexing.Decomposition
import MonkeyLang.Proofs.Submission
import MonkeyLang.Proofs.Store.History
import MonkeyLang.Proofs.Evaluation.Origin
import MonkeyLang.Proofs.Evaluation.Scoping
import MonkeyLang.Proofs.Store.Forgetting
import MonkeyLang.Proofs.Node.Mention
import MonkeyLang.Proofs.Evaluation.Forgetting
import MonkeyLang.Proofs.Session.Unmentioned
import MonkeyLang.Proofs.Recovery.Separator
import MonkeyLang.Proofs.Recovery.Statement
import MonkeyLang.Proofs.Reading.Machine
import MonkeyLang.Proofs.Reading.Termination
import MonkeyLang.Proofs.Reading.Leaves
import MonkeyLang.Proofs.Reading.Reports
import MonkeyLang.Proofs.Lexing.Munch
import MonkeyLang.Proofs.Lexing.Layout
import MonkeyLang.Proofs.Lexing.Quotes
import MonkeyLang.Proofs.Highlight
import MonkeyLang.Proofs.Cleaning
import MonkeyLang.Proofs.Evaluation.Nesting
import MonkeyLang.Proofs.Evaluation.Recursion
import MonkeyLang.Proofs.Evaluation.Numbers
import MonkeyLang.Proofs.Evaluation.Repetition
import MonkeyLang.Proofs.Reading.Operators
import MonkeyLang.Proofs.Evaluation.Faults
import MonkeyLang.Proofs.Word.Hash
import MonkeyLang.Proofs.Brackets
import MonkeyLang.Proofs.Evaluation.Arrays
import MonkeyLang.Proofs.Store.Extension
import MonkeyLang.Proofs.Evaluation.Folding
import MonkeyLang.Proofs.Evaluation.Idioms
import MonkeyLang.Proofs.Evaluation.Calls
