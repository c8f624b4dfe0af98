/-!
What the system answers when it cannot do what is asked.
-/

namespace SnippetCatalog

inductive Fault where
  | notPermitted
  | notFound
  | inputOutput
  | noDevice
  | accessDenied
  | alreadyExists
  | notDirectory
  | isDirectory
  | nameTooLong
  | linkLoop
  /-- A path with a NUL byte is refused before the system is asked. -/
  | nulInPath
  | described (text : String)
  deriving DecidableEq, Repr

namespace Fault

def number? : Fault → Option Nat
  | notPermitted => some 1
  | notFound => some 2
  | inputOutput => some 5
  | noDevice => some 6
  | accessDenied => some 13
  | alreadyExists => some 17
  | notDirectory => some 20
  | isDirectory => some 21
  | nameTooLong => some 36
  | linkLoop => some 40
  | nulInPath => none
  | described _ => none

def text : Fault → String
  | notPermitted => "Operation not permitted"
  | notFound => "No such file or directory"
  | inputOutput => "Input/output error"
  | noDevice => "No such device or address"
  | accessDenied => "Permission denied"
  | alreadyExists => "File exists"
  | notDirectory => "Not a directory"
  | isDirectory => "Is a directory"
  | nameTooLong => "File name too long"
  | linkLoop => "Too many levels of symbolic links"
  | nulInPath => "file name contained an unexpected NUL byte"
  | described text => text

def message (fault : Fault) : String :=
  match fault.number? with
  | some n => s!"{fault.text} (os error {n})"
  | none => fault.text

def ofNumber? (n : Nat) : Option Fault :=
  [notPermitted, notFound, inputOutput, noDevice, accessDenied, alreadyExists, notDirectory,
    isDirectory, nameTooLong, linkLoop].find? (·.number? == some n)

def InOneLine (fault : Fault) : Prop := '\n' ∉ fault.message.toList

instance (fault : Fault) : Decidable fault.InOneLine := inferInstanceAs (Decidable (_ ∉ _))

end Fault

/-- A fault that a system can answer with: whatever its text, the message is one line. -/
structure SystemFault where
  fault : Fault
  inOneLine : fault.InOneLine
  deriving DecidableEq, Repr

def SystemFault.denied : SystemFault := ⟨.accessDenied, by decide⟩

end SnippetCatalog
