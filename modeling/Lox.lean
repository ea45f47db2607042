import Lox.Main
import Lox.Proofs.Blocks.Loops
import Lox.Proofs.Blocks.Sessions
import Lox.Proofs.Depth
import Lox.Proofs.Idle
import Lox.Proofs.Invariants.Names
import Lox.Proofs.Invariants.Ordered
import Lox.Proofs.Lexical.Wrapped
import Lox.Proofs.Lexing.Longest
import Lox.Proofs.Lexing.Pieces
import Lox.Proofs.Lexing.Writing
import Lox.Proofs.Lockstep.Congruence
import Lox.Proofs.Methods
import Lox.Proofs.Output.Clipped
import Lox.Proofs.Output.Fuel
import Lox.Proofs.Output.Sessions
import Lox.Proofs.Printing.Programs
import Lox.Proofs.Reading.Attempts
import Lox.Proofs.Reading.Locality
import Lox.Proofs.Restored
import Lox.Proofs.Returns.Calls
import Lox.Proofs.Scoping.Faults
