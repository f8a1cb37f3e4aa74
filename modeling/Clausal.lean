import Clausal.Bytecode.Assembler
import Clausal.Tree.Substitution
import Clausal.Main
import Clausal.Proofs.Passes.CaseReplacement
import Clausal.Proofs.Bytecode.Depths
import Clausal.Proofs.Passes.MatchRecasting
import Clausal.Proofs.Compile.Repetition
import Clausal.Proofs.Compile.Linking
import Clausal.Proofs.Compile.CapturedNames
import Clausal.Proofs.Scoping.Ledgers
import Clausal.Proofs.Printing.RoundTrip
import Clausal.Proofs.Grammar.Acceptance
import Clausal.Proofs.Compile.ProgramFiles
import Clausal.Proofs.Tree.Enumeration
import Clausal.Proofs.Lowering.Translation
import Clausal.Proofs.Bytecode.Assembly
import Clausal.Proofs.Compile.Listings
import Clausal.Proofs.Tree.Substituting
