import Scriptlet.Program
import Scriptlet.Tree.Outline
import Scriptlet.Tree.Printer

/-!
# The command line

The tool checks one file. Its arguments are the file, `--scoping` with a mode, and
the flags `--tokens`, `--dump-ast` and `--print` for what is to be shown. Each may be
given once, in any order; after `--` every argument is a file. Arguments are read
from the left, so `--version` wins over a mistake behind it and loses to one before
it.

What the tool does is a function of its arguments and of what is in the file: an
`Outcome` with an exit status and two texts.
-/

namespace Scriptlet.CommandLine

/-- What the tool is asked to do with a file. -/
structure Options where
  /-- The file. -/
  file : String
  /-- How declarations are scoped. -/
  mode : ScopeMode
  /-- Whether to list the tokens. -/
  tokens : Bool
  /-- Whether to show the tree. -/
  dump : Bool
  /-- Whether to print the program back. -/
  print : Bool

/-- What the tool is asked for. -/
inductive Request where
  /-- Its version. -/
  | version
  /-- To check a file. -/
  | check (options : Options)

/-- What the tool does. -/
structure Outcome where
  /-- The exit status. -/
  status : Nat
  /-- What is written to standard output. -/
  out : String
  /-- What is written to standard error. -/
  err : String

/-! ### Arguments -/

/-- The flags. -/
inductive Flag where
  /-- The flag `--tokens`. -/
  | tokens
  /-- The flag `--dump-ast`. -/
  | dump
  /-- The flag `--print`. -/
  | print
  deriving DecidableEq

/-- An argument before `--`. -/
inductive Argument where
  /-- The mark `--`: what follows are files. -/
  | separator
  /-- A flag. -/
  | flag (f : Flag)
  /-- The option `--scoping` with its value, or with none if that is the next argument. -/
  | scoping (value : Option String)
  /-- The question for the version. -/
  | version
  /-- A file. -/
  | file (path : String)
  /-- None of these. -/
  | unknown

/-- The start of an argument that carries the value of `--scoping`. -/
def scopingStart : List Char := "--scoping=".toList

/-- What an argument before `--` is. A single dash is a file; a short option is
decided by its first letter. -/
def Argument.ofText (arg : String) : Argument :=
  if arg = "--" then .separator
  else if arg = "--tokens" then .flag .tokens
  else if arg = "--dump-ast" then .flag .dump
  else if arg = "--print" then .flag .print
  else if arg = "--version" then .version
  else if arg = "--scoping" then .scoping none
  else if scopingStart.isPrefixOf arg.toList then
    .scoping (some (String.ofList (arg.toList.drop scopingStart.length)))
  else
    match arg.toList with
    | '-' :: 'V' :: _ => .version
    | '-' :: _ :: _ => .unknown
    | _ => .file arg

/-- What the arguments read so far have said. -/
structure Progress where
  /-- The file, if it has been given. -/
  file : Option String
  /-- The mode, if it has been given. -/
  mode : Option ScopeMode
  /-- Whether `--tokens` has been given. -/
  tokens : Bool
  /-- Whether `--dump-ast` has been given. -/
  dump : Bool
  /-- Whether `--print` has been given. -/
  print : Bool

namespace Progress

/-- Nothing has been said. -/
def start : Progress := ⟨none, none, false, false, false⟩

/-- Sets a flag that has not been set. -/
def setFlag (s : Progress) : Flag → Option Progress
  | .tokens => if s.tokens then none else some { s with tokens := true }
  | .dump => if s.dump then none else some { s with dump := true }
  | .print => if s.print then none else some { s with print := true }

/-- Sets the mode, which must be one and has not been set. -/
def setMode (s : Progress) (value : String) : Option Progress :=
  if s.mode.isSome then none
  else if value = "flat" then some { s with mode := some .flat }
  else if value = "lexical" then some { s with mode := some .lexical }
  else none

/-- Sets the file, which must have a name and has not been set. -/
def setFile (s : Progress) (path : String) : Option Progress :=
  if s.file.isSome ∨ path = "" then none else some { s with file := some path }

/-- The request, once all arguments are read. The file must have been given; the
mode is flat if none was. -/
def finish (s : Progress) : Option Request :=
  s.file.map fun file => .check ⟨file, s.mode.getD .flat, s.tokens, s.dump, s.print⟩

/-- Reads arguments that are all files. -/
def readFiles (s : Progress) : List String → Option Request
  | [] => s.finish
  | path :: rest => do (← s.setFile path).readFiles rest

/-- Reads the arguments. -/
def read (s : Progress) : List String → Option Request
  | [] => s.finish
  | arg :: rest =>
    match Argument.ofText arg with
    | .separator => s.readFiles rest
    | .version => some .version
    | .flag f => do (← s.setFlag f).read rest
    | .scoping (some value) => do (← s.setMode value).read rest
    | .scoping none =>
      match rest with
      | [] => none
      | value :: rest => do (← s.setMode value).read rest
    | .file path => do (← s.setFile path).read rest
    | .unknown => none

end Progress

/-- What the arguments ask for, if they are in order. -/
def request? (args : List String) : Option Request := Progress.start.read args

/-! ### Outcomes -/

/-- The last part of a path, which diagnostics name the file by. -/
def fileName (path : String) : String :=
  match (path.toList.reverse.takeWhile (· ≠ '/')).reverse with
  | [] => path
  | name => String.ofList name

/-- A diagnostic ends a run. What has been shown stays. -/
def Outcome.refused (out : String) (d : Diagnostic) : Outcome := ⟨1, out, d.report ++ "\n"⟩

/-- The listing of the tokens of a text, if it is asked for. -/
def Options.listing (o : Options) (text : String) : Except Diagnostic String :=
  if o.tokens then
    (tokenize text (fileName o.file)).map fun ts => Text.unlines (ts.map Token.listing)
  else .ok ""

/-- What is shown of a program. -/
def Options.shown (o : Options) (program : Block Variable) : String :=
  (if o.dump then program.outline.render ++ "\n" else "") ++
    (if o.print then program.render else "")

/-- What the tool does with the text of the file. -/
def Options.checkText (o : Options) (text : String) : Outcome :=
  match o.listing text with
  | .error d => .refused "" d
  | .ok listing =>
    match (parseText text (fileName o.file) o.mode).1 with
    | .error d => .refused listing d
    | .ok program => ⟨0, listing ++ o.shown program, ""⟩

/-- What the tool does with what is in the file, if it can be read. It must be a
text in UTF-8. -/
def Options.check (o : Options) (contents : Option ByteArray) : Outcome :=
  match contents.bind String.fromUTF8? with
  | none => ⟨1, "", "cannot read " ++ o.file ++ "\n"⟩
  | some text => o.checkText text

/-- How the tool is used. -/
def usage : String :=
  "usage: minilang [--scoping flat|lexical] [--tokens] [--dump-ast] [--print] FILE\n"

/-- What the tool says of its version. -/
def version : String := "minilang 0.1.0\n"

/-- What the tool does with its arguments, given what is in each file. -/
def outcome (args : List String) (contents : String → Option ByteArray) : Outcome :=
  match request? args with
  | none => ⟨2, "", usage⟩
  | some .version => ⟨0, version, ""⟩
  | some (.check o) => o.check (contents o.file)

end Scriptlet.CommandLine
