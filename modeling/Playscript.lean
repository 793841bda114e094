import Playscript.Disk.Tree
import Playscript.Main
import Playscript.Proofs.Arena.Cells
import Playscript.Proofs.Arena.Collecting
import Playscript.Proofs.Arena.Histories
import Playscript.Proofs.Arena.Releasing
import Playscript.Proofs.Arena.World
import Playscript.Proofs.Interpreter.Programs
import Playscript.Proofs.Machine.Arguments
import Playscript.Proofs.Machine.Ranges
import Playscript.Proofs.Modules.Binding
import Playscript.Proofs.Modules.Exporting
import Playscript.Proofs.Modules.Resolution
import Playscript.Proofs.Pairing.Leftovers
import Playscript.Proofs.Template.Offsets
import Playscript.Proofs.Token.Display
import Playscript.Proofs.Token.Spans
import Playscript.Proofs.Trace.Pending
import Playscript.Proofs.Tree.Exactness
import Playscript.Proofs.Tree.Recovery
import Playscript.Proofs.Tree.Refusals
import Playscript.Proofs.Tree.Termination
import Playscript.Proofs.Value.Congruence
