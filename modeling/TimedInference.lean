import TimedInference.Cache.Basic
import TimedInference.Cache.Binding
import TimedInference.Cache.Entry
import TimedInference.Cache.Error
import TimedInference.Cache.Rebase
import TimedInference.Circuit.Basic
import TimedInference.Circuit.Diagrams
import TimedInference.Circuit.Evaluation
import TimedInference.Circuit.Weights
import TimedInference.Circuit.Worlds
import TimedInference.Config.Basic
import TimedInference.Config.Document
import TimedInference.Diagram.Meaning
import TimedInference.Diagram.Measure
import TimedInference.Diagram.Store
import TimedInference.Digest.Blake3
import TimedInference.Engine.Basic
import TimedInference.Engine.Error
import TimedInference.Grounding.Definitions
import TimedInference.Grounding.GroundProgram
import TimedInference.Grounding.Join
import TimedInference.Grounding.Order
import TimedInference.Grounding.Possible
import TimedInference.Grounding.Relevance
import TimedInference.Json.Reader
import TimedInference.Json.Text
import TimedInference.Log.Event
import TimedInference.Log.Logged
import TimedInference.Number.Binary64
import TimedInference.Number.Decimal
import TimedInference.Number.Layout
import TimedInference.Number.Probability
import TimedInference.Number.Rational
import TimedInference.Number.Shortest
import TimedInference.Program.Basic
import TimedInference.Program.Safety
import TimedInference.Proofs.Cache.Answers
import TimedInference.Proofs.Cache.Batches
import TimedInference.Proofs.Cache.Errors
import TimedInference.Proofs.Cache.Families
import TimedInference.Proofs.Cache.FirstEvents
import TimedInference.Proofs.Cache.Naming
import TimedInference.Proofs.Cache.Outcomes
import TimedInference.Proofs.Cache.OwnQuery
import TimedInference.Proofs.Cache.Recognition
import TimedInference.Proofs.Cache.Reuse
import TimedInference.Proofs.Cache.Rewriting
import TimedInference.Proofs.Cache.Settings
import TimedInference.Proofs.Cache.Shift
import TimedInference.Proofs.Cache.Sources
import TimedInference.Proofs.Cache.Tracked
import TimedInference.Proofs.Circuit.Agreement
import TimedInference.Proofs.Circuit.Lookups
import TimedInference.Proofs.Circuit.Names
import TimedInference.Proofs.Circuit.Shape
import TimedInference.Proofs.Diagram.Canonicity
import TimedInference.Proofs.Diagram.Counting
import TimedInference.Proofs.Diagram.Isomorphism
import TimedInference.Proofs.Diagram.Operations
import TimedInference.Proofs.Diagram.Probability
import TimedInference.Proofs.Diagram.WellFormed
import TimedInference.Proofs.Grounding.Cycles
import TimedInference.Proofs.Grounding.Dependencies
import TimedInference.Proofs.Grounding.GroundProgram
import TimedInference.Proofs.Grounding.Integers
import TimedInference.Proofs.Grounding.Join
import TimedInference.Proofs.Grounding.LeastModel
import TimedInference.Proofs.Grounding.Limit
import TimedInference.Proofs.Grounding.Meaning
import TimedInference.Proofs.Grounding.Names
import TimedInference.Proofs.Grounding.Probabilities
import TimedInference.Proofs.Grounding.Relabelling
import TimedInference.Proofs.Grounding.Relevance
import TimedInference.Proofs.Grounding.Renaming
import TimedInference.Proofs.Grounding.Reordering
import TimedInference.Proofs.Grounding.Timestamps
import TimedInference.Proofs.Grounding.Unrelated
import TimedInference.Proofs.Grounding.WellFormed
import TimedInference.Proofs.List.Distinct
import TimedInference.Proofs.Program.Integers
import TimedInference.Proofs.Syntax.Anonymous
import TimedInference.Proofs.Syntax.Bodies
import TimedInference.Proofs.Syntax.Boundaries
import TimedInference.Proofs.Syntax.Complete
import TimedInference.Proofs.Syntax.Counts
import TimedInference.Proofs.Syntax.FactLines
import TimedInference.Proofs.Syntax.Layout
import TimedInference.Proofs.Syntax.Meaning
import TimedInference.Proofs.Syntax.Places
import TimedInference.Proofs.Syntax.Printing
import TimedInference.Proofs.Syntax.Programs
import TimedInference.Proofs.Syntax.Reading
import TimedInference.Proofs.Syntax.Sound
import TimedInference.Proofs.Syntax.Statements
import TimedInference.Proofs.Syntax.Terms
import TimedInference.Proofs.Syntax.Tokens
import TimedInference.Proofs.Template.Assembly
import TimedInference.Proofs.Template.Lines
import TimedInference.Proofs.Template.NodeNames
import TimedInference.Proofs.Template.Pieces
import TimedInference.Proofs.Template.Rendering
import TimedInference.Proofs.Template.Texts
import TimedInference.Proofs.Term.Integers
import TimedInference.Proofs.Term.Matching
import TimedInference.Syntax.Construct
import TimedInference.Syntax.Grammar
import TimedInference.Syntax.Reader
import TimedInference.Syntax.Resolve
import TimedInference.Syntax.Tree
import TimedInference.Template.Error
import TimedInference.Template.Event
import TimedInference.Template.Fact
import TimedInference.Template.Feedback
import TimedInference.Template.Query
import TimedInference.Term.Basic
import TimedInference.Term.Json
import TimedInference.Term.Order
import TimedInference.Term.Substitution
import TimedInference.Text.Blank
import TimedInference.Text.File
import TimedInference.Text.Position
import TimedInference.Text.Quoted
import TimedInference.Text.Replace
import TimedInference.Text.Scanner
import TimedInference.Text.Visible
import TimedInference.Time
import TimedInference.Toml.Node
import TimedInference.Toml.Reader
