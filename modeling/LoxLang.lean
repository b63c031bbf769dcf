import LoxLang.Editor
import LoxLang.Main
import LoxLang.Session.Node
import LoxLang.Proofs.Parse.Replies
import LoxLang.Proofs.Token.Reading
import LoxLang.Proofs.Parse.ExpressionSound
import LoxLang.Proofs.Parse.Formed
import LoxLang.Proofs.Parse.ProgramSound
import LoxLang.Proofs.Parse.ExpressionComplete
import LoxLang.Proofs.Parse.ProgramComplete
import LoxLang.Proofs.Parse.Acceptance
import LoxLang.Proofs.Parse.Recovery
import LoxLang.Proofs.Scope.Resolved
import LoxLang.Proofs.Scope.Events
import LoxLang.Proofs.Run.Frames
import LoxLang.Proofs.Run.Valid
import LoxLang.Proofs.Run.Sound
import LoxLang.Proofs.Run.Soundness
import LoxLang.Proofs.Run.Sessions
import LoxLang.Proofs.Run.Overwrites
import LoxLang.Proofs.Cells.Reference
import LoxLang.Proofs.Cells.World
import LoxLang.Proofs.Cells.Heaps
import LoxLang.Proofs.Cells.Simulation
import LoxLang.Proofs.Cells.Calls
import LoxLang.Proofs.Cells.Declarations
import LoxLang.Proofs.Cells.StaticScoping
import LoxLang.Proofs.Parse.Complaints
import LoxLang.Proofs.Run.Logs
import LoxLang.Proofs.Scope.Rules
import LoxLang.Proofs.Scope.Violations
import LoxLang.Proofs.Scope.Returns
import LoxLang.Proofs.Run.Outcomes
import LoxLang.Proofs.Session.Gating
import LoxLang.Proofs.Lines.Trees
import LoxLang.Proofs.Lines.Resolver
import LoxLang.Proofs.Scope.Crossings
import LoxLang.Proofs.Scope.Distances
import LoxLang.Proofs.Lines.Machines
import LoxLang.Proofs.Lines.Evaluator
import LoxLang.Proofs.Lines.Seam
import LoxLang.Proofs.Session.Joined
import LoxLang.Proofs.Lookup.Captures
import LoxLang.Proofs.Lookup.Steady
import LoxLang.Proofs.Lookup.Ceilings
import LoxLang.Proofs.Lookup.Compared
import LoxLang.Proofs.Lookup.Agreement
import LoxLang.Proofs.Lookup.Evaluator
import LoxLang.Proofs.Lookup.Search
import LoxLang.Proofs.Loops.Direct
import LoxLang.Proofs.Loops.Pairs
import LoxLang.Proofs.Loops.Tandem
import LoxLang.Proofs.Loops.Calls
import LoxLang.Proofs.Loops.Evaluator
import LoxLang.Proofs.Loops.Meaning
import LoxLang.Proofs.Run.Restored
import LoxLang.Proofs.Returns.Throwing
import LoxLang.Proofs.Returns.Threading
import LoxLang.Proofs.Receiver.AtHome
import LoxLang.Proofs.Receiver.Housed
import LoxLang.Proofs.Receiver.Following
import LoxLang.Proofs.Receiver.Rules
import LoxLang.Proofs.Receiver.Bound
import LoxLang.Proofs.Receiver.Initializers
import LoxLang.Proofs.Filing.Notes
import LoxLang.Proofs.Filing.Viewed
import LoxLang.Proofs.Filing.Ledger
import LoxLang.Proofs.Filing.Places
import LoxLang.Proofs.Filing.Entries
import LoxLang.Proofs.Filing.Sessions
import LoxLang.Proofs.Session.Published
import LoxLang.Proofs.Session.Rejected
import LoxLang.Proofs.Scope.Lexical
import LoxLang.Proofs.Scope.SourceOrder
import LoxLang.Proofs.Lineage.Machines
import LoxLang.Proofs.Lineage.Orderly
import LoxLang.Proofs.Lineage.Evaluator
import LoxLang.Proofs.Lineage.Sessions
import LoxLang.Proofs.Lineage.Births
import LoxLang.Proofs.Parse.Prolonged
import LoxLang.Proofs.Parse.Progress
import LoxLang.Proofs.Parse.Viable
import LoxLang.Proofs.Parse.Earliest
import LoxLang.Proofs.Parse.Boundaries
import LoxLang.Proofs.Decimal.Rounding
import LoxLang.Proofs.Decimal.Doubles
import LoxLang.Proofs.Decimal.Reading
import LoxLang.Proofs.Decimal.Grids
import LoxLang.Proofs.Decimal.Numerals
import LoxLang.Proofs.Decimal.Printed
import LoxLang.Proofs.Parse.Drawn
import LoxLang.Proofs.Token.Scanned
import LoxLang.Proofs.Artifact.Decoding
import LoxLang.Proofs.Artifact.Written
import LoxLang.Proofs.Notation.Sexp
import LoxLang.Proofs.Notation.Words
import LoxLang.Proofs.Notation.Trees
import LoxLang.Proofs.Notation.Unambiguous
import LoxLang.Proofs.Lines.Scanning
import LoxLang.Proofs.Token.Respaced
import LoxLang.Proofs.Lines.Parser
import LoxLang.Proofs.Lines.Layout
