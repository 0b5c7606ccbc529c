import IndentMarkup.Loader
import IndentMarkup.Metadata
import IndentMarkup.Shorthand
import IndentMarkup.Template

/-!
Errors of a compile: what went wrong, and where.

A compile ends with the first error. The error is a cause, one value for each thing
that can go wrong, with the line and, where it is known, the column that shows it,
and the chain of files that were open. What the author reads is made from these.

* `Cause` — everything that can go wrong; `Cause.kind` and `Cause.message`.
* `CompileError` — a cause with its place; `CompileError.report` is its text.
-/

namespace IndentMarkup

/-! ### Causes -/

/-- The categories of errors. -/
inductive ErrorKind where
  /-- Wrong or incomplete indentation, or too much of it. -/
  | indentation
  /-- A line of the prologue that is wrong or in the wrong place. -/
  | directive
  /-- A malformed attribute shorthand. -/
  | shorthand
  /-- Spans that do not balance. -/
  | format
  /-- A line where it is not allowed. -/
  | structural
  /-- The definition, removal or call of a template. -/
  | template
  /-- A file that is missing, cannot be read, or includes itself. -/
  | inclusion
  deriving DecidableEq, Repr

/-- What can be wrong with formatted text. -/
inductive FormatFault where
  /-- A span closes that is not open. -/
  | unexpectedClose
  /-- The text ends in an open span. -/
  | unclosedSpan
  /-- The text ends in a template call. -/
  | unterminatedCall
  deriving DecidableEq, Repr

/-- What the author is told about the fault. -/
def FormatFault.message : FormatFault → Text
  | .unexpectedClose => "Unexpected format closing tag.".toList
  | .unclosedSpan => "Unclosed format tag.".toList
  | .unterminatedCall => "Unterminated template invocation.".toList

/-- What can be wrong with the place of a line. -/
inductive StructureFault where
  /-- A section inside an element. -/
  | nestedSection
  /-- A tab inside an element. -/
  | nestedTab
  /-- An element outside all sections. -/
  | noSection
  /-- An image without a link to its source. -/
  | imageWithoutLink
  /-- A line below an image. -/
  | imageWithChildren
  deriving DecidableEq, Repr

/-- What the author is told about the fault. -/
def StructureFault.message : StructureFault → Text
  | .nestedSection => "Sections can only be declared at the top level.".toList
  | .nestedTab => "Tabs can only be declared at the top level.".toList
  | .noSection => "No section defined.".toList
  | .imageWithoutLink => "Image must have a link attribute.".toList
  | .imageWithChildren => "Images cannot have children.".toList

/-- What can be wrong with the inclusion of a file. -/
inductive InclusionFault where
  /-- An inclusion inside an element. -/
  | nested
  /-- An inclusion that names no file. -/
  | missingPath
  /-- An inclusion of a file that is no source by its extension. -/
  | foreignExtension (found : Text)
  /-- An inclusion whose path leads nowhere. -/
  | notFound (path : Text)
  /-- An inclusion of a file that is open, outermost first. -/
  | circular (opened : List Location) (again : Location)
  /-- An included file that cannot be read. -/
  | unreadable (l : Location) (reason : LoadError)
  /-- A document that cannot be found or read. -/
  | unopenable (path : Text) (reason : LoadError)
  deriving DecidableEq, Repr

/-- What the author is told about the fault. -/
def InclusionFault.message : InclusionFault → Text
  | .nested => "Files can only be included at the top level.".toList
  | .missingPath => "Include requires a file path.".toList
  | .foreignExtension found =>
      "Invalid file extension '.".toList ++ found ++ "' (expected .".toList
        ++ Path.sourceExtension ++ ").".toList
  | .notFound path => "File not found: ".toList ++ path
  | .circular opened again =>
      "Circular file inclusion: ".toList
        ++ Text.join " -> ".toList ((opened ++ [again]).map Location.text)
  | .unreadable l reason => "Cannot read ".toList ++ l.text ++ ": ".toList ++ reason.message
  | .unopenable path reason => "Cannot open ".toList ++ path ++ ": ".toList ++ reason.message

/-- Everything that can go wrong in a compile. -/
inductive Cause where
  /-- A line is indented wrongly. -/
  | indent (f : IndentFault)
  /-- A line is deeper than its place allows. -/
  | tooDeep (expected got : Nat)
  /-- A line that has to start at the margin is indented. -/
  | notAtMargin
  | directive (f : DirectiveFault)
  | shorthand (f : ShorthandFault)
  /-- A heading has a shorthand that is more than a description. -/
  | notDescription
  | format (f : FormatFault)
  | structural (f : StructureFault)
  | template (f : TemplateFault)
  | inclusion (f : InclusionFault)
  /-- The body of a template went wrong while it was expanded. -/
  | within (cause : Cause) (name : Text)
  deriving DecidableEq, Repr

namespace Cause

/-- The cause is where it is found, and not in the body of a template that is called there. -/
def isOwn : Cause → Bool
  | within .. => false
  | _ => true

/-- The category of the cause; a fault in a template's body keeps its own. -/
def kind : Cause → ErrorKind
  | indent _ | tooDeep .. | notAtMargin => .indentation
  | directive _ => .directive
  | shorthand _ | notDescription => .shorthand
  | format _ => .format
  | structural _ => .structural
  | template _ => .template
  | inclusion _ => .inclusion
  | within cause _ => cause.kind

/-- What the author is told. -/
def message : Cause → Text
  | indent f => f.message
  | tooDeep expected got =>
      "Too large amount of indentation (expected ".toList ++ Text.ofNat expected
        ++ ", got ".toList ++ Text.ofNat got ++ ").".toList
  | notAtMargin => "Too large amount of indentation (expected none).".toList
  | directive f => f.message
  | shorthand f => f.message
  | notDescription => "Only a (description) can follow a section or tab name.".toList
  | format f => f.message
  | structural f => f.message
  | template f => f.message
  | inclusion f => f.message
  | within cause name => cause.message ++ " (in template `".toList ++ name ++ "`)".toList

end Cause

/-! ### Places -/

/-- The text of an error: the place, counted from one, the message, and the files
that led to the place, innermost first. The last of `opened` is the file of the
place itself and is not named again. -/
def reportAt (file : Option Text) (line : Nat) (column : Option Nat) (message : Text)
    (opened : List Text) : Text :=
  (match file with
    | some f => f ++ ':' :: Text.ofNat (line + 1)
    | none => "line ".toList ++ Text.ofNat (line + 1))
  ++ (match column with
    | some c => ':' :: Text.ofNat (c + 1)
    | none => [])
  ++ ": ".toList ++ message
  ++ (opened.reverse.drop 1).flatMap ("\n  included from ".toList ++ ·)

/-- The error that ends a compile. Lines and columns count from zero. -/
structure CompileError where
  cause : Cause
  /-- The file of the line, if the source came from one. -/
  file : Option Location
  line : Nat
  column : Option Nat
  /-- The files that were open, outermost first. -/
  opened : List Location
  deriving DecidableEq, Repr

namespace CompileError

/-- The category of the error. -/
def kind (e : CompileError) : ErrorKind := e.cause.kind

/-- What went wrong, in words. -/
def message (e : CompileError) : Text := e.cause.message

/-- The error in words, with its place. -/
def report (e : CompileError) : Text :=
  reportAt (e.file.map Location.text) e.line e.column e.message (e.opened.map Location.text)

/-- The error as the caller of a template sees it: in the body of the template, on
the line of the call. -/
def inTemplate (e : CompileError) (name : Text) (line : Nat) : CompileError :=
  { e with cause := .within e.cause name, line := line, column := none }

end CompileError

/-- What ends a compile before its end. -/
inductive Stop where
  /-- An error in the source. -/
  | error (e : CompileError)
  /-- Templates expand one another without an end in sight. -/
  | exhausted
  deriving DecidableEq, Repr

theorem Stop.error_ne_exhausted (e : CompileError) : error e ≠ exhausted := by simp

/-- The stop as the caller of a template sees it. -/
def Stop.inTemplate (name : Text) (line : Nat) : Stop → Stop
  | error e => error (e.inTemplate name line)
  | exhausted => exhausted

end IndentMarkup
