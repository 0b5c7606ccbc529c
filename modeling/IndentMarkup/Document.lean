import IndentMarkup.Expansion
import IndentMarkup.Heading

/-!
Documents, and how they are compiled.

A source is read at its top level line by line: sections and tabs open, directives set
values, other files are included, and everything else is elements, which go to the open
section. Included files share the context; their tabs stand where they are included. No
file may include itself, directly or through others, so files are nested at most as
deep as there are locations with a source.

* `Document` — the result.
* `Document.compileText`, `Document.compileFile` — compile a source or a file.
-/

namespace IndentMarkup

/-- A compiled document. -/
structure Document where
  metadata : Metadata
  tabs : List Tab
  /-- The templates that are defined at the end. -/
  templates : Table Template

namespace Document

/-- The sections of all tabs, in order. -/
def sections (d : Document) : List Section := d.tabs.flatMap (·.sections)

/-! ### One source -/

/-- Open a section in the outline. -/
def openSection (o : Outline) (heading : Heading) (hasTitle : Bool) : CompileM Outline :=
  fun ctx =>
    let (o', id) := o.openSection ctx.nextId heading hasTitle
    .ok o' { ctx with nextId := id, hasStructure := true }

/-- Open a tab in the outline. -/
def openTab (o : Outline) (heading : Heading) : CompileM Outline :=
  fun ctx =>
    let (o', id) := o.openTab ctx.nextId heading
    .ok o' { ctx with nextId := id, hasStructure := true }

/-- The number of characters that mark a section: two for one whose name is not shown. -/
def sectionMarker (content : Text) : Nat :=
  match content with
  | '#' :: '#' :: _ => 2
  | _ => 1

/-- Read a line with elements and the lines that belong to it, and put the elements into
the open section. -/
def readElements (expand : Expander) (o : Outline) (l : Line) (rest : List SourceLine) :
    CompileM (Outline × List SourceLine) := do
  let (elements, rest) ← Block.readLine expand l rest
  if elements.isEmpty then return (o, rest)
  else match o.push? elements with
    | some o' => return (o', rest)
    | none => .failAt (.structural .noSection) l.number none

/-- Read a line at the top level of a source and the lines that belong to it: the
outline after them, and the lines that are left. -/
def readLine (expand : Expander) (readFile : Line → CompileM (List Tab)) (o : Outline)
    (l : Line) (rest : List SourceLine) : CompileM (Outline × List SourceLine) :=
  if 0 < l.depth then .failAt .notAtMargin l.number none
  else
    match l.kind with
    | .sectionStart => do
        let marker := sectionMarker l.content
        let heading ← Heading.read expand l marker
        return (← openSection o heading (marker = 1), rest)
    | .tabStart => do
        let heading ← Heading.read expand l 1
        return (← openTab o heading, rest)
    | .directive => do
        .change l.number (·.readDirective l)
        return (o, rest)
    | .inclusion => do return (o.splice (← readFile l), rest)
    | _ => readElements expand o l rest

/-- Read at most `most` lines at the top level of a source. -/
def readWithin (expand : Expander) (readFile : Line → CompileM (List Tab)) :
    (most : Nat) → Outline → List SourceLine → CompileM Outline
  | 0, o, _ => pure o
  | most + 1, o, ls => do
      match ← Block.next ls with
      | none => pure o
      | some (l, rest) =>
          let (o, rest) ← readLine expand readFile o l rest
          readWithin expand readFile most o rest

/-- The tabs of a source. -/
def readSource (expand : Expander) (readFile : Line → CompileM (List Tab)) (source : Text) :
    CompileM (List Tab) := do
  let ls := SourceLine.ofSource source
  return (← readWithin expand readFile ls.length ∅ ls).finish

/-! ### Other files -/

/-- Do something while a file is open. -/
def whileOpen {α : Type} (l : Location) (act : CompileM α) : CompileM α := fun ctx =>
  match act (ctx.openFile l) with
  | .ok a after => .ok a after.closeFile
  | .error e after => .error e after.closeFile

/-- Read the file that a line includes, from the folder that `base` leads to; `inner`
reads a source with the folder that its own inclusions start from. -/
def readInclusion (loader : Loader) (inner : Text → Text → CompileM (List Tab)) (base : Text)
    (l : Line) : CompileM (List Tab) := do
  let target := Text.trim (l.content.drop 1)
  if target = [] then .failAt (.inclusion .missingPath) l.number none
  else
    match Path.sourceOf target with
    | .error found => .failAt (.inclusion (.foreignExtension found)) l.number none
    | .ok path =>
        match loader.resolve (Path.join base path) with
        | .error _ => .failAt (.inclusion (.notFound path)) l.number none
        | .ok file => do
            let opened := (← get).openFiles
            if file ∈ opened then
              .failAt (.inclusion (.circular opened.reverse file)) l.number none
            else
              match loader.load file with
              | .error e => .failAt (.inclusion (.unreadable file e)) l.number none
              | .ok source => whileOpen file (inner file.parent.text source)

/-- The tabs of a source and of the files that it includes, at most `nesting` sources
open at a time. -/
def readNested (loader : Loader) (expand : Expander) :
    (nesting : Nat) → Text → Text → CompileM (List Tab)
  | 0, _, _ => fun ctx => .error .exhausted ctx
  | nesting + 1, base, source =>
      readSource expand (readInclusion loader (readNested loader expand nesting) base) source

/-- The tabs of a source whose inclusions start from `base`. Besides the source itself
there are at most as many files open as there are locations. -/
def readAll (loader : Loader) (expand : Expander) (base source : Text) :
    CompileM (List Tab) :=
  readNested loader expand (loader.locations.length + 1) base source

/-! ### Compiling -/

/-- It can be tested what a compile gives. -/
instance {p : Document → Prop} [DecidablePred p] (x : Except Stop Document) :
    Decidable (∃ d, x = .ok d ∧ p d) :=
  match x with
  | .ok d => decidable_of_iff (p d) (by simp)
  | .error s => .isFalse (by simp)

/-- It can be tested how a compile fails. -/
instance {p : Stop → Prop} [DecidablePred p] (x : Except Stop Document) :
    Decidable (∃ s, x = .error s ∧ p s) :=
  match x with
  | .ok d => .isFalse (by simp)
  | .error s => decidable_of_iff (p s) (by simp)

/-- The document of an action that gathers tabs, from a context on. -/
def ofRun (act : CompileM (List Tab)) (ctx : Context) : Except Stop Document :=
  match act ctx with
  | .ok tabs after => .ok ⟨after.metadata, tabs, after.templates⟩
  | .error stop _ => .error stop

/-- Compile a source; its inclusions start from the current folder. -/
def compileTextWith (loader : Loader) (expand : Expander) (source : Text) :
    Except Stop Document :=
  ofRun (readAll loader expand ['.'] source) .start

/-- Compile the file that a path leads to; its inclusions start from its folder. -/
def compileFileWith (loader : Loader) (expand : Expander) (path : Text) :
    Except Stop Document :=
  match loader.resolve path with
  | .error e => .error (.error (Context.start.errorAt (.inclusion (.unopenable path e)) 0 none))
  | .ok file =>
      match loader.load file with
      | .error e =>
          .error (.error (Context.start.errorAt (.inclusion (.unopenable path e)) 0 none))
      | .ok source => ofRun (whileOpen file (readAll loader expand file.parent.text source)) .start

/-- Compile a source; templates are expanded in one another at most `depth` levels
deep. -/
def compileText (loader : Loader) (depth : Nat) (source : Text) : Except Stop Document :=
  compileTextWith loader (expander depth) source

/-- Compile the file that a path leads to; templates are expanded in one another at most
`depth` levels deep. -/
def compileFile (loader : Loader) (depth : Nat) (path : Text) : Except Stop Document :=
  compileFileWith loader (expander depth) path

/-- How deep templates are expanded in one another unless a caller says otherwise. A
document that needs more expands without an end, or might as well. -/
def defaultDepth : Nat := 1000

end Document

end IndentMarkup
