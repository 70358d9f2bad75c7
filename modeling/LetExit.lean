import LetExit.Build
import LetExit.Build.Workspace
import LetExit.Main
import LetExit.Proofs.Language
import LetExit.Proofs.StackCode
import LetExit.Proofs.Written
import LetExit.Proofs.Decimal
import LetExit.Proofs.Utf8
import LetExit.Proofs.Machine
import LetExit.Proofs.Execution
import LetExit.Proofs.Loops
import LetExit.Proofs.Requests
import LetExit.Proofs.Readings
import LetExit.Proofs.Lexeme
import LetExit.Proofs.Layout
import LetExit.Proofs.Consistency
import LetExit.Proofs.TokenSequence
import LetExit.Proofs.Deliveries
import LetExit.Proofs.Rendering
import LetExit.Proofs.Renaming
import LetExit.Proofs.Resumption
import LetExit.Proofs.TokenList
import LetExit.Proofs.WhiteSpace
import LetExit.Proofs.WriteFaults
import LetExit.Proofs.Reuse
import LetExit.Proofs.Session
import LetExit.Proofs.Places
import LetExit.Proofs.FirstFault
import LetExit.Proofs.Positions
import LetExit.Proofs.Stages
import LetExit.Proofs.Recovery
import LetExit.Proofs.Calls
import LetExit.Proofs.Declared
import LetExit.Proofs.Lookahead
import LetExit.Proofs.StackDiscipline
import LetExit.Proofs.Characters
import LetExit.Proofs.LabelledCells
import LetExit.Proofs.Literals
import LetExit.Proofs.Progress
import LetExit.Proofs.Diagnostics
