import Scriptlet.Main
import Scriptlet.Proofs.Parsing
import Scriptlet.Proofs.Progress
import Scriptlet.Proofs.Shape
import Scriptlet.Proofs.Soundness
import Scriptlet.Proofs.Begins
import Scriptlet.Proofs.NestingLimit
import Scriptlet.Proofs.Completeness
import Scriptlet.Proofs.Utf8
import Scriptlet.Proofs.Lexeme
import Scriptlet.Proofs.Scanning
import Scriptlet.Proofs.Accepted
import Scriptlet.Proofs.Evaluation
import Scriptlet.Proofs.Tasks
import Scriptlet.Proofs.Sessions
import Scriptlet.Proofs.Returns
import Scriptlet.Proofs.ScopeFrames
import Scriptlet.Proofs.ScopeTrees
import Scriptlet.Proofs.Codec
import Scriptlet.Proofs.DoubleRange
import Scriptlet.Proofs.Rounding
import Scriptlet.Proofs.ShortestDigits
import Scriptlet.Proofs.Numerals
import Scriptlet.Proofs.PrintedNumbers
import Scriptlet.Proofs.PrintedIntegers
import Scriptlet.Proofs.BracketedTexts
import Scriptlet.Proofs.Spellings
import Scriptlet.Proofs.ShownTrees
import Scriptlet.Proofs.PrintedTrees
import Scriptlet.Proofs.Loading
import Scriptlet.Proofs.Schema
import Scriptlet.Proofs.Variables
import Scriptlet.Proofs.DeclaredNames
import Scriptlet.Proofs.Shadowing
import Scriptlet.Proofs.StoredRuns
import Scriptlet.Proofs.Correspondence
import Scriptlet.Proofs.Congruence
import Scriptlet.Proofs.CorrespondingPrograms
import Scriptlet.Proofs.Watching
import Scriptlet.Proofs.Simulation
import Scriptlet.Proofs.Culprits
import Scriptlet.Proofs.Debugging
import Scriptlet.Proofs.Positions
import Scriptlet.Proofs.Joining
import Scriptlet.Proofs.Lookahead
import Scriptlet.Proofs.LineBreaks
import Scriptlet.Proofs.Lines
import Scriptlet.Proofs.LineComments
import Scriptlet.Proofs.ShellSessions
import Scriptlet.Proofs.Buffering
import Scriptlet.Proofs.Braces
import Scriptlet.Proofs.Conditions
import Scriptlet.Proofs.EmptyScopes
import Scriptlet.Proofs.ForLoops
import Scriptlet.Proofs.Inlining
import Scriptlet.Proofs.RedundantBraces
import Scriptlet.Proofs.Unmentioned
import Scriptlet.Proofs.Identity
import Scriptlet.Proofs.Termination
