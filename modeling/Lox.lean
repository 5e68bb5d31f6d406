import Lox.Main
import Lox.Proofs.Copy.Layout
import Lox.Proofs.Copy.Onward
import Lox.Proofs.Copy.Rejected
import Lox.Proofs.Grammar.Draws
import Lox.Proofs.Grammar.EndMark
import Lox.Proofs.Grammar.Fenced
import Lox.Proofs.Grammar.Legible
import Lox.Proofs.Grammar.Nesting
import Lox.Proofs.Grammar.Ordered
import Lox.Proofs.Grammar.Progress
import Lox.Proofs.Grammar.SoftFaults
import Lox.Proofs.Renaming.Declared
import Lox.Proofs.Renaming.Faithful
import Lox.Proofs.Renaming.Lockstep
import Lox.Proofs.Renaming.Sessions
import Lox.Proofs.Renaming.Steps
import Lox.Proofs.Renaming.Tokens
import Lox.Proofs.Run.Chronicle
import Lox.Proofs.Run.Depth
import Lox.Proofs.Run.ForLoops
import Lox.Proofs.Run.History
import Lox.Proofs.Run.Hygiene
import Lox.Proofs.Run.Operators
import Lox.Proofs.Run.Preserved
import Lox.Proofs.Run.Returns
import Lox.Proofs.Run.Stable
import Lox.Proofs.Run.Steps
import Lox.Proofs.Run.Valid
import Lox.Proofs.Run.Variables
import Lox.Proofs.Scope.Nearest
import Lox.Proofs.Scope.Recorded
import Lox.Proofs.Scope.Site
import Lox.Proofs.Source.Breaks
import Lox.Proofs.Source.Segments
import Lox.Proofs.Source.Sieve
import Lox.Proofs.Store.Chain
import Lox.Session
