import SnippetCatalog.Ascending

/-!
Which entries a listing takes in. Without names everything is selected; otherwise a file is by its
name, and a directory by its own name or that of something below it.
-/

namespace SnippetCatalog

structure Selection where
  /-- Ascending, each name once. -/
  names : List String
  deriving DecidableEq, Repr

namespace Selection

def everything : Selection := ⟨[]⟩

def ofList (names : List String) : Selection := ⟨Ascending.ofList names⟩

def takesFile (s : Selection) (name : String) : Bool := s.names.isEmpty || s.names.contains name

def takesDirectory (s : Selection) (name : String) : Bool :=
  s.names.isEmpty || s.names.contains name ||
    s.names.any fun n => (name.toList ++ ['/']).isPrefixOf n.toList

/-- What is selected below a directory: everything if the directory is named itself. -/
def below (s : Selection) (name : String) : Selection :=
  if s.names.contains name then everything else s

theorem takesDirectory_everything {name : String} : everything.takesDirectory name = true := rfl

theorem below_everything {name : String} : everything.below name = everything := rfl

end Selection
end SnippetCatalog
