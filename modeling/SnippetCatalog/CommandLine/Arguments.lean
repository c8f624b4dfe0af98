import SnippetCatalog.Path
import SnippetCatalog.Text.Pieces

/-!
The arguments of the command. An option's value stands behind it as the next argument, right after
its letter, or after an equals sign; letters of options without a value can share a hyphen; after
two hyphens alone everything is a name.
-/

namespace SnippetCatalog.CommandLine

structure Arguments where
  names : List String := []
  dirs : List Path := []
  parts : List String := []
  tags : List String := []
  hideIntro : Bool := false
  check : Bool := false
  listParts : Bool := false
  verbosity : Nat := 0
  deriving DecidableEq, Repr

inductive Refusal where
  | usage
  | help
  deriving DecidableEq, Repr

inductive ValueOption where
  | dir
  | part
  | tag
  deriving DecidableEq, Repr

inductive Switch where
  | hideIntro
  | check
  | listParts
  | verbose
  | help
  deriving DecidableEq, Repr

inductive Flag where
  | value (option : ValueOption)
  | switch (switch : Switch)
  deriving DecidableEq, Repr

namespace Flag

def ofWord? (word : Bytes) : Option Flag :=
  match Utf8.text? word with
  | some "dir" => some (.value .dir)
  | some "part" => some (.value .part)
  | some "tag" => some (.value .tag)
  | some "hide-intro" => some (.switch .hideIntro)
  | some "check" => some (.switch .check)
  | some "list-parts" => some (.switch .listParts)
  | some "verbose" => some (.switch .verbose)
  | some "help" => some (.switch .help)
  | _ => none

def ofLetter? (letter : UInt8) : Option Flag :=
  if letter = 'd'.toUInt8 then some (.value .dir)
  else if letter = 'p'.toUInt8 then some (.value .part)
  else if letter = 't'.toUInt8 then some (.value .tag)
  else if letter = 'v'.toUInt8 then some (.switch .verbose)
  else if letter = 'h'.toUInt8 then some (.switch .help)
  else none

end Flag

namespace Arguments

def hyphen : UInt8 := '-'.toUInt8
def equals : UInt8 := '='.toUInt8

/-- A lone hyphen is an ordinary argument. -/
def isFlag (arg : Bytes) : Bool := arg.head? == some hyphen && arg ≠ [hyphen]

def texts (values : List Bytes) : Except Refusal (List String) :=
  match values with
  | [] => .ok []
  | v :: vs =>
    match Utf8.text? v with
    | some s => (texts vs).map (s :: ·)
    | none => .error .usage

/-- Directories are separated by colons and must not be empty; parts and tags are separated by
commas and must be text. -/
def addValue (a : Arguments) (value : Bytes) : ValueOption → Except Refusal Arguments
  | .dir =>
    let values := Text.pieces ':'.toUInt8 value
    if [] ∈ values then .error .usage else .ok { a with dirs := a.dirs ++ values.map Path.mk }
  | .part => do
    let values ← texts (Text.pieces ','.toUInt8 value)
    .ok { a with parts := a.parts ++ values }
  | .tag => do
    let values ← texts (Text.pieces ','.toUInt8 value)
    .ok { a with tags := a.tags ++ values }

/-- Only the one that counts may be given twice. -/
def addSwitch (a : Arguments) : Switch → Except Refusal Arguments
  | .hideIntro => if a.hideIntro then .error .usage else .ok { a with hideIntro := true }
  | .check => if a.check then .error .usage else .ok { a with check := true }
  | .listParts => if a.listParts then .error .usage else .ok { a with listParts := true }
  | .verbose => .ok { a with verbosity := a.verbosity + 1 }
  | .help => .error .help

def addName (a : Arguments) (name : Bytes) : Except Refusal Arguments :=
  match Utf8.text? name with
  | some s => .ok { a with names := a.names ++ [s] }
  | none => .error .usage

def addNames (a : Arguments) : List Bytes → Except Refusal Arguments
  | [] => .ok a
  | name :: names => do (← a.addName name).addNames names

/-- What stands behind two hyphens. The option that still wants its value comes along. -/
def addLong (a : Arguments) (body : Bytes) : Except Refusal (Arguments × Option ValueOption) :=
  match Flag.ofWord? (body.takeWhile (· ≠ equals)), body.dropWhile (· ≠ equals) with
  | some (.value option), [] => .ok (a, some option)
  | some (.value option), _ :: value => do .ok (← a.addValue value option, none)
  | some (.switch switch), [] => do .ok (← a.addSwitch switch, none)
  | some (.switch _), _ :: _ => .error .usage
  | none, _ => .error .usage

def addLetters (a : Arguments) : Bytes → Except Refusal (Arguments × Option ValueOption)
  | [] => .ok (a, none)
  | letter :: rest =>
    match Flag.ofLetter? letter with
    | none => .error .usage
    | some (.switch switch) => do (← a.addSwitch switch).addLetters rest
    | some (.value option) =>
      if rest = [] then .ok (a, some option)
      else do
        let value := if rest.head? = some equals then rest.drop 1 else rest
        .ok (← a.addValue value option, none)

def addFlag (a : Arguments) (arg : Bytes) : Except Refusal (Arguments × Option ValueOption) :=
  if arg.take 2 = [hyphen, hyphen] then a.addLong (arg.drop 2) else a.addLetters (arg.drop 1)

def addAll (a : Arguments) (wanting : Option ValueOption) :
    List Bytes → Except Refusal Arguments
  | [] => if wanting.isSome then .error .usage else .ok a
  | arg :: args =>
    match wanting with
    | some option =>
      if isFlag arg then .error .usage
      else do (← a.addValue arg option).addAll none args
    | none =>
      if arg = [hyphen, hyphen] then a.addNames args
      else if isFlag arg then do
        let (a, wanting) ← a.addFlag arg
        a.addAll wanting args
      else do (← a.addName arg).addAll none args

/-- The arguments as given; the directories of the environment count if none are given. -/
def read (args : List Bytes) (environment : Option Bytes) : Except Refusal Arguments := do
  let a ← addAll {} none args
  match environment with
  | some value => if a.dirs = [] then a.addValue value .dir else .ok a
  | none => .ok a

end Arguments
end SnippetCatalog.CommandLine
