import IndentMarkup.Command
import IndentMarkup.Snapshot

/-!
The program: reads the files that a command can need, carries out its plan, and reports.
-/

namespace IndentMarkup.Program

/-- The reason that the file system gives. -/
def reasonOf (code : UInt32) (details : String) : LoadError :=
  if code = 2 then .noEntry
  else if code = 20 then .notDirectory
  else if code = 21 then .isDirectory
  else if code = 36 then .nameTooLong
  else .other details.toList code.toNat

/-- An error of the file system. -/
def loadErrorOf : IO.Error → LoadError
  | .noFileOrDirectory _ code details => reasonOf code details
  | .inappropriateType _ code details => reasonOf code details
  | .invalidArgument _ code details => reasonOf code details
  | .permissionDenied _ code details => reasonOf code details
  | .noSuchThing _ code details => reasonOf code details
  | .otherError code details => reasonOf code details
  | e => .other (toString e).toList 0

/-- Why a path leads nowhere. The search for its location gives no reason, but opening
the path fails for the same one. -/
def reasonFor (path : Text) : IO LoadError := do
  try
    let _ ← IO.FS.Handle.mk (String.ofList path) .read
    return .noEntry
  catch e => return loadErrorOf e

/-- The location that a path leads to. -/
def resolve (path : Text) : IO (Except LoadError Location) := do
  try
    let real ← IO.FS.realPath (String.ofList path)
    return .ok (.ofPath real.toString.toList)
  catch _ => return .error (← reasonFor path)

/-- The text of the file at a location. -/
def load (l : Location) : IO (Except LoadError Text) := do
  try
    let bytes ← IO.FS.readBinFile (String.ofList l.text)
    match String.fromUTF8? bytes with
    | some s => return .ok s.toList
    | none => return .error .notText
  catch e => return .error (loadErrorOf e)

/-- Find out about paths, and about the paths that their sources can include. -/
partial def explore (s : Snapshot) : List Text → IO Snapshot
  | [] => return s
  | path :: paths => do
      if s.paths.any (·.1 = path) then explore s paths
      else
        let found ← resolve path
        let s := { s with paths := (path, found) :: s.paths }
        match found with
        | .error _ => explore s paths
        | .ok l =>
            if s.sources.any (·.1 = l) then explore s paths
            else
              let source ← load l
              let s := { s with sources := (l, source) :: s.sources }
              match source with
              | .error _ => explore s paths
              | .ok t => explore s (Document.inclusionPaths l.parent.text t ++ paths)

/-- The source file of a command. -/
def sourcePath : Command → Text
  | .build path _ _ => path
  | .check path => path

/-- Report with an exit code. -/
def finish (code : Nat) (message : Text) : IO UInt32 := do
  IO.eprint (String.ofList message)
  return code.toUInt32

/-- Carry out a command. -/
def run (c : Command) : IO UInt32 := do
  let s ← explore .empty [sourcePath c]
  match c.plan s.loader Document.defaultDepth with
  | .stop code message => finish code message
  | .write path content =>
      let written ← try
          IO.FS.writeFile (String.ofList path) (String.ofList content)
          pure (.ok ())
        catch e => pure (.error (loadErrorOf e))
      let (code, message) := Command.afterWrite path written
      finish code message

/-- How the program is called. -/
def usage : String :=
  "Usage: build PATH [-o OUT | --output OUT] [--json]\n       check PATH\n"

end IndentMarkup.Program

/-- Reads the arguments and carries out the command. -/
def main (args : List String) : IO UInt32 := do
  match IndentMarkup.Command.ofArguments? (args.map String.toList) with
  | some c => IndentMarkup.Program.run c
  | none =>
      IO.eprint IndentMarkup.Program.usage
      return 2
