import IndentMarkup.Document.Json
import IndentMarkup.Document.Page
import IndentMarkup.FileTree

/-!
The command line.

There are two commands: one builds a page, or the document in JSON, from a source file;
the other checks a source file and writes nothing. What a command does is settled from
the sources alone, as a plan; the only thing left is to write one file, if the plan says
so, and to report how that went.

* `Command.ofArguments?` — read the arguments.
* `Command.plan` — what a command does.
* `FileTree.run` — a command on a tree of files.
-/

namespace IndentMarkup

/-- A command with its arguments. -/
inductive Command where
  /-- Build the file at a path; the output goes to another path if one is given. -/
  | build (path : Text) (output : Option Text) (json : Bool)
  /-- Check the file at a path. -/
  | check (path : Text)
  deriving DecidableEq, Repr

/-! ### Arguments -/

/-- Options and the path, as far as they have been read. -/
structure Arguments where
  path : Option Text
  output : Option Text
  json : Bool

namespace Arguments

/-- Nothing has been read. -/
def start : Arguments := ⟨none, none, false⟩

/-- The argument asks for an option: it starts with a hyphen and is more than that. A
hyphen alone is a path. -/
def isOption (arg : Text) : Bool := arg.head? = some '-' && arg ≠ ['-']

/-- The argument can stand where a path has to stand. -/
def isPath (arg : Text) : Bool := arg ≠ [] && !isOption arg

/-- Take a path; there is only one. -/
def addPath (a : Arguments) (path : Text) : Option Arguments :=
  if a.path.isSome ∨ !isPath path then none else some { a with path := some path }

/-- Take the path for the output; there is only one. -/
def addOutput (a : Arguments) (path : Text) : Option Arguments :=
  if a.output.isSome ∨ path = [] then none else some { a with output := some path }

/-- Read the arguments of the command that builds: the path of the source, the option
for the output with its path behind it or joined to it, and the flag for JSON, in any
order. -/
def read : Arguments → List Text → Option Arguments
  | a, [] => some a
  | a, arg :: rest =>
      match arg, rest with
      | ['-', 'o'], path :: rest =>
          if isOption path then none else (a.addOutput path).bind (read · rest)
      | '-' :: 'o' :: '=' :: path, rest => (a.addOutput path).bind (read · rest)
      | '-' :: 'o' :: c :: path, rest => (a.addOutput (c :: path)).bind (read · rest)
      | '-' :: '-' :: name, rest =>
          if name = "json".toList then
            if a.json then none else read { a with json := true } rest
          else if name = "output".toList then
            match rest with
            | path :: rest =>
                if isOption path then none else (a.addOutput path).bind (read · rest)
            | [] => none
          else if "output=".toList.isPrefixOf name then
            (a.addOutput (name.drop 7)).bind (read · rest)
          else none
      | path, rest => (a.addPath path).bind (read · rest)

end Arguments

namespace Command

/-- The command that arguments ask for. -/
def ofArguments? : List Text → Option Command
  | [] => none
  | name :: args =>
      if name = "build".toList then
        (Arguments.start.read args).bind fun a =>
          a.path.map fun path => .build path a.output a.json
      else if name = "check".toList then
        match args with
        | [path] => if Arguments.isPath path then some (.check path) else none
        | _ => none
      else none

/-! ### Plans -/

/-- What a command does once the sources are known. -/
inductive Plan where
  /-- Write nothing, and end with an exit code and a message. -/
  | stop (code : Nat) (message : Text)
  /-- Write one file, and report how that went. -/
  | write (path content : Text)
  deriving DecidableEq, Repr

/-- The plan of a command whose compile has stopped. -/
def Plan.ofStop : Stop → Plan
  | .error e => .stop 1 ("Error: ".toList ++ e.report ++ ['\n'])
  | .exhausted => .stop 1 "Error: template expansion does not end\n".toList

/-- The plan of a command whose document has a class without a rule. -/
def Plan.ofStylesheetError (e : StylesheetError) : Plan := .stop 1 (e.report ++ ['\n'])

/-- What the command does with the sources of a loader. A page takes the path of its
source with another extension unless it is told where to go. -/
def plan (loader : Loader) (depth : Nat) : Command → Plan
  | build path output json =>
      match Document.compileFile loader depth path with
      | .error s => .ofStop s
      | .ok d =>
          if json then
            .write (output.getD (Path.withExtension path "json".toList)) d.json.pretty
          else
            match d.render with
            | .error e => .ofStylesheetError e
            | .ok r => .write (output.getD (Path.withExtension path "html".toList)) (d.page r)
  | check path =>
      match Document.compileFile loader depth path with
      | .error s => .ofStop s
      | .ok d =>
          match d.render with
          | .error e => .ofStylesheetError e
          | .ok _ => .stop 0 ("OK: ".toList ++ path ++ ['\n'])

/-- The exit code and the message after writing at a path has gone as told. -/
def afterWrite (path : Text) : Except LoadError Unit → Nat × Text
  | .ok () => (0, "Built: ".toList ++ path ++ ['\n'])
  | .error e => (1, "Error writing ".toList ++ path ++ ": ".toList ++ e.message ++ ['\n'])

end Command

/-- How a command has ended. -/
structure Outcome where
  code : Nat
  /-- What was written to the stream for errors; nothing goes to the other one. -/
  message : Text
  /-- The files afterwards. -/
  tree : FileTree

/-- Run a command on a tree of files. -/
def FileTree.run (tree : FileTree) (depth : Nat) (c : Command) : Outcome :=
  match c.plan tree.loader depth with
  | .stop code message => ⟨code, message, tree⟩
  | .write path content =>
      match tree.write path content with
      | .ok tree' =>
          let (code, message) := Command.afterWrite path (.ok ())
          ⟨code, message, tree'⟩
      | .error e =>
          let (code, message) := Command.afterWrite path (.error e)
          ⟨code, message, tree⟩

end IndentMarkup
