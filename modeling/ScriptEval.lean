import ScriptEval.Proofs.Splitting
import ScriptEval.Proofs.Sameness
import ScriptEval.Proofs.Renaming
import ScriptEval.Proofs.Postorder
import ScriptEval.Proofs.Blaming
import ScriptEval.Proofs.Bracketing
import ScriptEval.Proofs.Canonical
import ScriptEval.Proofs.Pointing
import ScriptEval.Proofs.Ungrouping
import ScriptEval.Proofs.Describing
import ScriptEval.Proofs.Ordering
import ScriptEval.Proofs.Dividing
