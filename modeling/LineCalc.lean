import LineCalc.Main
import LineCalc.Script
import LineCalc.Proofs.Namespaces
import LineCalc.Proofs.DepthLimit
import LineCalc.Proofs.TreeValues
import LineCalc.Proofs.Nesting
import LineCalc.Proofs.Substitution
import LineCalc.Proofs.Purity
import LineCalc.Proofs.Direct
import LineCalc.Proofs.Replay
import LineCalc.Proofs.Sessions
import LineCalc.Proofs.AcceptedDefinitions
import LineCalc.Proofs.CutSessions
import LineCalc.Proofs.Termination
import LineCalc.Proofs.Mentioned
import LineCalc.Proofs.Lexing
import LineCalc.Proofs.PlainNames
import LineCalc.Proofs.Policies
import LineCalc.Proofs.Writes
import LineCalc.Proofs.Commuting
import LineCalc.Proofs.Faults
import LineCalc.Proofs.Joining
import LineCalc.Proofs.Surroundings
import LineCalc.Proofs.Invocations
import LineCalc.Proofs.LongestMatch
import LineCalc.Proofs.NumbersReadBack
import LineCalc.Proofs.Assigning
import LineCalc.Proofs.Announcements
import LineCalc.Proofs.Openings
import LineCalc.Proofs.LineForLine
import LineCalc.Proofs.Watching
import LineCalc.Proofs.CursorUses
import LineCalc.Proofs.Unclosed
import LineCalc.Proofs.Endings
