import SnippetCatalog.NameMap
import SnippetCatalog.Path

/-!
Snippets: a named piece of code with what is noted about it.
-/

namespace SnippetCatalog

structure Snippet where
  name : String
  path : Path
  text : List String
  docs : List String
  imports : List String
  expects : List String
  /-- The snippets that come before it, ascending; it expects them too. -/
  follows : List String
  tags : NameMap (List String)
  deriving DecidableEq

end SnippetCatalog
