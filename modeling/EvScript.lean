import EvScript.Grammar.Walk
import EvScript.Main
import EvScript.Proofs.Build.Outputs
import EvScript.Proofs.Compile.Allocation
import EvScript.Proofs.Compile.CallEmission
import EvScript.Proofs.Compile.Consistency
import EvScript.Proofs.Compile.CutShort
import EvScript.Proofs.Compile.LaterEntries
import EvScript.Proofs.Compile.Legibility
import EvScript.Proofs.Compile.OperandSpaces
import EvScript.Proofs.Compile.Overflow
import EvScript.Proofs.Compile.Reports
import EvScript.Proofs.Compile.Reread
import EvScript.Proofs.Compile.ReturnPlace
import EvScript.Proofs.Control.Acyclic
import EvScript.Proofs.Control.Dispatch
import EvScript.Proofs.Scope.Selected
