import StyleTree.Parse
import StyleTree.Print.Dump
import StyleTree.Print.SourceMap

/-!
# The command line

Two commands: `parse` prints the outline of a file's tree, and `translate` prints the file in
compact form and can write a source map. What a command does is a function of its arguments and of
the files; reading and writing them is left to the caller.

Main definitions: `Command.ofArguments?`, `Command.run`, `Command.runArguments`.
-/

namespace StyleTree

/-- What is to be done. -/
inductive Command where
  /-- Print the outline of the tree of a file. -/
  | outline (path : String) (context : Context) (positions : Bool)
  /-- Print a file in compact form, and write its source map to another one. -/
  | compact (path : String) (mapPath : Option String)
  deriving DecidableEq, Repr

/-- What a command leaves behind. -/
structure CommandResult where
  /-- Zero on success, 1 if the file is unreadable or refused, 2 if the arguments are wrong. -/
  exitCode : Nat
  stdout : String := ""
  stderr : String := ""
  /-- A file to be written, with its text. -/
  file : Option (String × String) := none
  deriving DecidableEq, Repr

namespace Command

/-- The arguments after the name of the command, as far as they are read. -/
structure Arguments where
  path : Option String := none
  context : Option String := none
  positions : Bool := false
  mapPath : Option String := none
  deriving DecidableEq, Repr

/-- An option, with the value that is glued to it by an equals sign. -/
def splitOption (argument : String) : String × Option String :=
  let cs := argument.toList
  let value := cs.dropWhile (· ≠ '=')
  if value.isEmpty then (argument, none)
  else (String.ofList (cs.takeWhile (· ≠ '=')), some (String.ofList value.tail))

/-- Whether an argument looks like an option. -/
def isOption (argument : String) : Bool :=
  argument.startsWith "-" && argument ≠ "-"

/-- Stores the value of an option that takes one. An option can be given once. -/
def Arguments.setValue? (arguments : Arguments) (allowed : List String) (option value : String) :
    Option Arguments :=
  if !allowed.contains option then none
  else if option = "--context" && arguments.context.isNone then
    some { arguments with context := some value }
  else if option = "--map" && arguments.mapPath.isNone then
    some { arguments with mapPath := some value }
  else none

/-- Stores a flag. -/
def Arguments.setFlag? (arguments : Arguments) (allowed : List String) (option : String) :
    Option Arguments :=
  if allowed.contains option && option = "--positions" && !arguments.positions then
    some { arguments with positions := true }
  else none

/-- Stores the path. -/
def Arguments.setPath? (arguments : Arguments) (path : String) : Option Arguments :=
  if arguments.path.isNone then some { arguments with path := some path } else none

/-- Reads arguments; `allowed` are the options of the command. -/
def readArguments (allowed : List String) (arguments : Arguments) :
    List String → Option Arguments
  | [] => some arguments
  | [argument] =>
    match isOption argument, splitOption argument with
    | false, _ => arguments.setPath? argument
    | true, (option, some value) => arguments.setValue? allowed option value
    | true, (option, none) => arguments.setFlag? allowed option
  | argument :: next :: rest =>
    match isOption argument, splitOption argument with
    | false, _ => (arguments.setPath? argument).bind (readArguments allowed · (next :: rest))
    | true, (option, some value) =>
      (arguments.setValue? allowed option value).bind (readArguments allowed · (next :: rest))
    | true, (option, none) =>
      match arguments.setFlag? allowed option with
      | some arguments => readArguments allowed arguments (next :: rest)
      | none =>
        if isOption next then none
        else (arguments.setValue? allowed option next).bind (readArguments allowed · rest)

/-- The command of the arguments, `none` if they are wrong. -/
def ofArguments? : List String → Option Command
  | "parse" :: rest => do
    let arguments ← readArguments ["--context", "--positions"] {} rest
    let path ← arguments.path
    let context ← Context.ofName? (arguments.context.getD Context.stylesheet.name)
    return .outline path context arguments.positions
  | "translate" :: rest => do
    let arguments ← readArguments ["--map"] {} rest
    let path ← arguments.path
    return .compact path arguments.mapPath
  | _ => none

/-- The file that the command reads. -/
def path : Command → String
  | .outline path _ _ | .compact path _ => path

/-- The options to parse the file with. -/
def options : Command → ParseOptions
  | .outline path context positions => { context, positions, filename := path }
  | .compact path mapPath => { positions := mapPath.isSome, filename := path }

/-- What the command makes of a tree. -/
def output (node : Node SourceInfo) : Command → CommandResult
  | .outline .. => { exitCode := 0, stdout := node.outline }
  | .compact _ mapPath =>
    let mapped := node.toMappedCss
    { exitCode := 0, stdout := mapped.text ++ "\n"
      file := mapPath.map fun path => (path, mapped.map.toJson) }

/-- Runs a command on the text of its file, which is `none` if the file cannot be read. -/
def run (command : Command) (text : Option String) : CommandResult :=
  match text with
  | none => { exitCode := 1, stderr := "failed to read `" ++ command.path ++ "`\n" }
  | some text =>
    match parse text command.options with
    | .error error => { exitCode := 1, stderr := error.render command.path text ++ "\n" }
    | .ok node => command.output node

/-- The result of wrong arguments. -/
def usage : CommandResult :=
  { exitCode := 2
    stderr := "usage: parse PATH [--context CONTEXT] [--positions]\n" ++
      "       translate PATH [--map PATH]\n" }

/-- Runs the command that the arguments name, with files as they are found in `files`. -/
def runArguments (arguments : List String) (files : String → Option String) : CommandResult :=
  match ofArguments? arguments with
  | none => usage
  | some command => command.run (files command.path)

end Command
end StyleTree
