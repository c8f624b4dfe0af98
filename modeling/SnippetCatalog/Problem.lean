import SnippetCatalog.FileSystem.Fault
import SnippetCatalog.Path
import SnippetCatalog.Text.Quoted

/-!
What can be wrong with snippets, one case per cause, and how it is told.
-/

namespace SnippetCatalog

inductive Problem where
  | noDirectories
  | notInDirectory (name : String) (dirs : List Path)
  | notInAnyDirectory (name : String) (dirs : List Path)
  | empty (name : String) (path : Path)
  | unreadable (name : String) (fault : Fault)
  | badPart (name : String)
  | notHeld (name : String)
  | missing (expected expectedBy : String)
  | missingExpected (name : String) (expectedBy : List String)
  | eclipsed (name : String) (dir first : Path)
  | duplicate (path first : Path)
  | unexpectedType (path : Path) (type : String)
  | badDirectory (dir : Path) (fault : Fault)
  | badSubdirectory (name : String) (fault : Fault)
  deriving DecidableEq, Repr

namespace Problem

open Text (quote quoteAll)

def quotePath (p : Path) : String := quote p.display

def quotePaths (ps : List Path) : String := quoteAll (ps.map Path.display)

def message : Problem → String
  | noDirectories => "there are no snippet directories to search"
  | notInDirectory name dirs =>
    s!"snippet {quote name} is not in the snippet directory: {quotePaths dirs}"
  | notInAnyDirectory name dirs =>
    s!"snippet {quote name} is not in any snippet directory: {quotePaths dirs}"
  | empty name path => s!"snippet {quote name} ({path.display}) has no text and no imports"
  | unreadable name fault => s!"snippet {quote name}: {fault.message}"
  | badPart name => s!"{quote name} is not a valid pre-defined part of a snippet"
  | notHeld name => s!"{quote name} is not in the snippet cache"
  | missing expected expectedBy =>
    s!"snippet {quote expected} is missing but is expected by {quote expectedBy}"
  | missingExpected name expectedBy =>
    s!"snippet {quote name} does not exist but is 'expected' by {quoteAll expectedBy}"
  | eclipsed name dir first =>
    s!"{quote name} in {quotePath dir} is eclipsed by the entry in {quotePath first}"
  | duplicate path first =>
    s!"snippet {quotePath path} is a duplicate of {quotePath first}"
  | unexpectedType path type => s!"{quotePath path}: unexpected file type {type}"
  | badDirectory dir fault => s!"{quotePath dir}: {fault.message}"
  | badSubdirectory name fault => s!"{quote name}: {fault.message}"

def fault? : Problem → Option Fault
  | unreadable _ fault | badDirectory _ fault | badSubdirectory _ fault => some fault
  | _ => none

end Problem
end SnippetCatalog
