import Scripting.Main
import Scripting.Proofs.Compile.Exits
import Scripting.Proofs.Compile.Ledger
import Scripting.Proofs.Compile.OwnName
import Scripting.Proofs.Image.Truncation
import Scripting.Proofs.Machine.Regions
import Scripting.Proofs.Program.Bindings
import Scripting.Proofs.Program.Budget
import Scripting.Proofs.Program.Canonical
import Scripting.Proofs.Program.Closed
import Scripting.Proofs.Program.Equivalence
import Scripting.Proofs.Program.Units
import Scripting.Proofs.Program.WellFormed
import Scripting.Proofs.Script.Protection
import Scripting.Proofs.Source.Positions
import Scripting.Proofs.Value.Comparison
import Scripting.Proofs.Value.Detached
import Scripting.Proofs.Value.Iteration
import Scripting.Proofs.Value.Range
import Scripting.Proofs.Value.Signs
import Scripting.Proofs.Value.Slice
import Scripting.Proofs.Value.Template
