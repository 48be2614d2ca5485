import Quill.Config.Json
import Quill.Interpreter
import Quill.Outline
import Quill.Reflection
import Quill.Snapshot
import Quill.SourceFile
import Quill.Proofs.Composition
import Quill.Proofs.Composition.Statement
import Quill.Proofs.Composition.Expression
import Quill.Proofs.Composition.Builtin
import Quill.Proofs.Composition.List
import Quill.Proofs.Composition.Task
import Quill.Proofs.Reach
import Quill.Proofs.Evolution
import Quill.Proofs.Stacks
import Quill.Proofs.Limits
import Quill.Proofs.Passing
import Quill.Proofs.Jumps
import Quill.Proofs.StepLimit
import Quill.Proofs.Token.Scan
import Quill.Proofs.Token.Stream
import Quill.Proofs.Token.Place
import Quill.Proofs.Grammar.Parts
import Quill.Proofs.Grammar.View
import Quill.Proofs.Grammar.Agreement
import Quill.Proofs.Grammar.Readers
import Quill.Proofs.Grammar.Progress
import Quill.Proofs.Positions
import Quill.Proofs.Course
import Quill.Proofs.Matching
import Quill.Proofs.Binding
import Quill.Proofs.Printing.Tree
import Quill.Proofs.Printing.Words
import Quill.Proofs.Printing.Layout
import Quill.Proofs.Printing.Reading
import Quill.Proofs.Printing.Brackets
import Quill.Proofs.Printing.Operands
import Quill.Proofs.Printing.Precedence
import Quill.Proofs.Ancestry
import Quill.Proofs.Spacing
import Quill.Proofs.Climbing
import Quill.Proofs.Effects
import Quill.Proofs.Lookup
import Quill.Proofs.SuperCalls
import Quill.Proofs.ScopeForest
import Quill.Proofs.Evaluation
import Quill.Proofs.Fresh
import Quill.Proofs.Calculation
import Quill.Proofs.Division
import Quill.Proofs.Data.Datum
import Quill.Proofs.Data.Text
import Quill.Proofs.Data.ReadBack
import Quill.Proofs.Overloads
import Quill.Proofs.Asking
import Quill.Proofs.Nesting
import Quill.Proofs.Everywhere
import Quill.Proofs.Calm
import Quill.Proofs.RawText
import Quill.Proofs.Descent
import Quill.Proofs.Ending
import Quill.Proofs.Lambdas.Known
import Quill.Proofs.Lambdas.Work
import Quill.Proofs.Lambdas.Builtin
import Quill.Proofs.Lambdas.Expression
import Quill.Proofs.Lambdas.Making
import Quill.Proofs.Lambdas.Account
import Quill.Proofs.Breaks
import Quill.Proofs.Refilling
import Quill.Proofs.Shapes
import Quill.Proofs.Regime
import Quill.Proofs.Regime.Code
import Quill.Proofs.Regime.Run
import Quill.Proofs.Seclusion
import Quill.Proofs.Clauses
import Quill.Proofs.Dispatching
import Quill.Proofs.Growth
import Quill.Proofs.Enclosing
import Quill.Proofs.Protection
import Quill.Proofs.Outlines
import Quill.Proofs.Printing.Signatures
import Quill.Proofs.Declaring
import Quill.Proofs.Defined
import Quill.Proofs.Reflected
import Quill.Proofs.Paths
import Quill.Proofs.Documented
import Quill.Proofs.Grammar.Node
import Quill.Proofs.Grammar.Form
import Quill.Proofs.Grammar.Arrangement
import Quill.Proofs.Grammar.Spelled
import Quill.Proofs.Grammar.Laying
import Quill.Proofs.Grammar.Soundness.Pattern
import Quill.Proofs.Grammar.Soundness.Call
import Quill.Proofs.Grammar.Soundness.Operators
import Quill.Proofs.Grammar.Soundness.Construct
import Quill.Proofs.Grammar.Soundness.Program
import Quill.Proofs.SpanNesting
import Quill.Proofs.WellFormed
import Quill.Proofs.Token.Lookahead
import Quill.Proofs.Token.Joining
import Quill.Proofs.Token.Classes
import Quill.Proofs.Token.Operators
import Quill.Proofs.Token.Returns
import Quill.Proofs.LineEndings
import Quill.Proofs.Comparing
import Quill.Proofs.Installed
import Quill.Proofs.Texts
import Quill.Proofs.Naming
import Quill.Proofs.Naming.Runs
import Quill.Proofs.Opening
import Quill.Proofs.Listing
import Quill.Proofs.Token.Bytewise
import Quill.Proofs.Token.Strings
import Quill.Proofs.Data.Integers
import Quill.Proofs.Comments
import Quill.Proofs.Leniency
import Quill.Proofs.Answering
import Quill.Proofs.Consulting
import Quill.Proofs.Steady
import Quill.Proofs.Sorting
import Quill.Proofs.Equality
import Quill.Proofs.Lexicographic
import Quill.Proofs.Multisets
import Quill.Proofs.Exactness
import Quill.Proofs.Indexing
import Quill.Proofs.Rounds
import Quill.Proofs.Iterating
import Quill.Proofs.Selecting
import Quill.Proofs.Splitting
import Quill.Proofs.Inspecting
import Quill.Proofs.Instances
import Quill.Proofs.Unpacking
import Quill.Proofs.Fitting
import Quill.Proofs.Grammar.Heads
import Quill.Proofs.Printing.Behind
import Quill.Proofs.Setters
import Quill.Proofs.Code
import Quill.Proofs.Calls
import Quill.Proofs.Assertions
