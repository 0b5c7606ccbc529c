import IndentMarkup.Element
import IndentMarkup.Error

/-!
The state of a compile.

One context is shared by a document, the files that it includes and the templates
that it expands. The readers are actions on a context that can end with an error; a
failing action keeps what it changed before it failed.

* `Context` — the state.
* `CompileM` — actions on it.
* `Context.applyDirective`, `Context.addClass`, `Context.define`,
  `Context.undefine` — the changes that a line of source can ask for. Each returns a
  new context or a cause, so a refused change changes nothing.
-/

namespace IndentMarkup

/-- What a compile knows and has opened. -/
structure Context where
  metadata : Metadata
  /-- The templates that are defined, by name. -/
  templates : Table Template
  /-- How lines are indented. -/
  indentation : Indentation
  /-- The next number that a section or tab gets. -/
  nextId : Nat
  /-- A section or tab has been opened, in any file. -/
  hasStructure : Bool
  /-- The files being read, innermost first. -/
  openFiles : List Location
  /-- The templates being expanded, innermost first. -/
  expanding : List Text
  deriving DecidableEq

namespace Context

/-- The state before the first line. -/
def start : Context := ⟨∅, ∅, .tabs, 0, false, [], []⟩

instance : Inhabited Context := ⟨start⟩

/-- A template's body is being read. -/
def isExpanding (ctx : Context) : Bool := !ctx.expanding.isEmpty

/-- The error with the given cause at a place in the file that is being read. -/
def errorAt (ctx : Context) (cause : Cause) (line : Nat) (column : Option Nat) :
    CompileError :=
  ⟨cause, ctx.openFiles.head?, line, column, ctx.openFiles.reverse⟩

/-! ### The prologue -/

/-- The context after the directive with the given name and value. -/
def applyDirective (ctx : Context) (name value : Text) : Except Cause Context :=
  match ctx.metadata.applyDirective name value with
  | .error f => .error (.directive f)
  | .ok m =>
      .ok { ctx with
        metadata := m
        indentation :=
          if Directive.ofName? name = some .spaces then .ofWidth (m.spaces.getD 0)
          else ctx.indentation }

/-- The name and the value on the line of a directive, the value trimmed. -/
def directiveParts (l : Line) : Text × Text :=
  let body := l.content.drop 1
  (body.takeWhile (· ≠ ' '), Text.trim (body.dropWhile (· ≠ ' ')))

/-- The context after a line with a directive. There may be none once a section or
tab is open. -/
def readDirective (ctx : Context) (l : Line) : Except Cause Context :=
  if ctx.hasStructure then .error (.directive .late)
  else ctx.applyDirective (directiveParts l).1 (directiveParts l).2

/-- The context with one more custom class. -/
def addClass (ctx : Context) (name declarations : Text) : Except Cause Context :=
  match ctx.metadata.addClass name declarations with
  | .error f => .error (.directive f)
  | .ok m => .ok { ctx with metadata := m }

/-! ### Templates -/

/-- The template with a name. -/
def template? (ctx : Context) (name : Text) : Option Template := ctx.templates.find? name

/-- The context with one more template. -/
def define (ctx : Context) (m : Template) : Except Cause Context :=
  if ctx.templates.contains m.name then .error (.template (.alreadyDefined m.name))
  else .ok { ctx with templates := ctx.templates.insert m.name m }

/-- The context with the template that a definition describes. -/
def defineBody (ctx : Context) (name : Text) (parameters : List Text) (body : Text) :
    Except Cause Context :=
  match Template.ofBody name parameters body with
  | .error f => .error (.template f)
  | .ok m => ctx.define m

/-- The context without a template. -/
def undefine (ctx : Context) (name : Text) : Except Cause Context :=
  if ctx.templates.contains name then .ok { ctx with templates := ctx.templates.erase name }
  else .error (.template (.nothingToRemove name))

/-! ### What a change leaves alone -/

/-- A directive sets a value, and the one for the number of spaces sets the unit of
indentation, too. -/
theorem applyDirective_eq_ok {ctx after : Context} {name value : Text} :
    ctx.applyDirective name value = .ok after ↔ ∃ d metadata,
      Directive.ofName? name = some d ∧ ctx.metadata.set d value = .ok metadata ∧
      after = { ctx with
        metadata
        indentation :=
          if d = .spaces then .ofWidth (metadata.spaces.getD 0) else ctx.indentation } := by
  unfold applyDirective Metadata.applyDirective
  cases hname : Directive.ofName? name with
  | none => simp
  | some d =>
      cases hset : ctx.metadata.set d value with
      | error f => simp [hset]
      | ok metadata =>
          simp only [hset, Except.ok.injEq, Option.some.injEq, exists_and_left, exists_eq_left']
          exact eq_comm

/-- A line with a directive sets a value in front of all structure. -/
theorem readDirective_eq_ok {ctx after : Context} {l : Line} :
    ctx.readDirective l = .ok after ↔ ctx.hasStructure = false ∧ ∃ d metadata,
      Directive.ofName? (directiveParts l).1 = some d ∧
      ctx.metadata.set d (directiveParts l).2 = .ok metadata ∧
      after = { ctx with
        metadata
        indentation :=
          if d = .spaces then .ofWidth (metadata.spaces.getD 0) else ctx.indentation } := by
  rw [← applyDirective_eq_ok, readDirective]
  cases ctx.hasStructure <;> simp

/-- A directive sets metadata and the unit of indentation, in front of all structure. -/
theorem readDirective_ok {ctx after : Context} {l : Line} (h : ctx.readDirective l = .ok after) :
    ctx.hasStructure = false ∧
      ∃ metadata indentation, after = { ctx with metadata, indentation } := by
  obtain ⟨hearly, d, metadata, -, -, hafter⟩ := readDirective_eq_ok.1 h
  exact ⟨hearly, metadata, _, hafter⟩

theorem addClass_ok {ctx after : Context} {name declarations : Text}
    (h : ctx.addClass name declarations = .ok after) :
    ∃ metadata, ctx.metadata.addClass name declarations = .ok metadata ∧
      after = { ctx with metadata } := by
  unfold addClass at h
  split at h
  · cases h
  · next metadata hadd =>
      cases h
      exact ⟨metadata, hadd, rfl⟩

/-- A definition adds one template, whose name was not taken. -/
theorem defineBody_ok {ctx after : Context} {name body : Text} {parameters : List Text}
    (h : ctx.defineBody name parameters body = .ok after) :
    ∃ m, Template.ofBody name parameters body = .ok m ∧
      ctx.templates.contains m.name = false ∧
      after = { ctx with templates := ctx.templates.insert m.name m } := by
  unfold defineBody define at h
  split at h
  · cases h
  · next m hm =>
      split at h
      · cases h
      · next hfree =>
          cases h
          exact ⟨m, hm, by simpa using hfree, rfl⟩

theorem undefine_ok {ctx after : Context} {name : Text} (h : ctx.undefine name = .ok after) :
    ctx.templates.contains name = true ∧
      after = { ctx with templates := ctx.templates.erase name } := by
  unfold undefine at h
  split at h
  · next htaken =>
      cases h
      exact ⟨htaken, rfl⟩
  · cases h

/-! ### Why a change is refused -/

theorem isOwn_of_readDirective {ctx : Context} {l : Line} {cause : Cause}
    (h : ctx.readDirective l = .error cause) : cause.isOwn = true := by
  unfold readDirective applyDirective at h
  split at h
  · cases h
    rfl
  · split at h <;> cases h
    rfl

theorem isOwn_of_addClass {ctx : Context} {name declarations : Text} {cause : Cause}
    (h : ctx.addClass name declarations = .error cause) : cause.isOwn = true := by
  unfold addClass at h
  split at h <;> cases h
  rfl

theorem isOwn_of_defineBody {ctx : Context} {name body : Text} {parameters : List Text}
    {cause : Cause} (h : ctx.defineBody name parameters body = .error cause) :
    cause.isOwn = true := by
  unfold defineBody define at h
  split at h
  · cases h
    rfl
  · split at h <;> cases h
    rfl

theorem isOwn_of_undefine {ctx : Context} {name : Text} {cause : Cause}
    (h : ctx.undefine name = .error cause) : cause.isOwn = true := by
  unfold undefine at h
  split at h <;> cases h
  rfl

/-! ### What is open -/

/-- The context while a template is expanded. -/
def enter (ctx : Context) (name : Text) : Context :=
  { ctx with expanding := name :: ctx.expanding }

/-- The context after the innermost expansion. -/
def leave (ctx : Context) : Context := { ctx with expanding := ctx.expanding.drop 1 }

/-- The context while a file is read. -/
def openFile (ctx : Context) (l : Location) : Context :=
  { ctx with openFiles := l :: ctx.openFiles }

/-- The context after the innermost file. -/
def closeFile (ctx : Context) : Context := { ctx with openFiles := ctx.openFiles.drop 1 }

end Context

/-! ### Actions -/

/-- An action on the context of a compile. -/
abbrev CompileM (α : Type) : Type := EStateM Stop Context α

namespace CompileM

/-- End with an error at a line. -/
def failAt {α : Type} (cause : Cause) (line : Nat) (column : Option Nat) : CompileM α :=
  fun ctx => .error (.error (ctx.errorAt cause line column)) ctx

/-- Change the context, or end with the cause at a line and keep the context. -/
def change (line : Nat) (f : Context → Except Cause Context) : CompileM Unit :=
  fun ctx => match f ctx with
    | .ok ctx' => .ok () ctx'
    | .error cause => .error (.error (ctx.errorAt cause line none)) ctx

/-- Measure a line in the unit in force. -/
def scan (l : SourceLine) : CompileM Line :=
  fun ctx => match l.scan ctx.indentation with
    | .ok m => .ok m ctx
    | .error e => .error (.error (ctx.errorAt (.indent e.fault) e.line (some e.column))) ctx

theorem scan_of_head {c : Char} (h : Text.isBlank c = false) (n : Nat) (t : Text)
    (ctx : Context) :
    scan ⟨n, c :: t⟩ ctx = .ok ⟨n, 0, 0, Text.trimEnd (c :: t)⟩ ctx := by
  rw [scan, SourceLine.scan, Indentation.scan_of_head h]

/-- A number that no section or tab has yet. -/
def freshId : CompileM Nat :=
  fun ctx => .ok ctx.nextId { ctx with nextId := ctx.nextId + 1 }

/-! ### Running actions -/

variable {α β : Type}

@[simp] theorem pure_run (a : α) (ctx : Context) : (pure a : CompileM α) ctx = .ok a ctx := rfl

theorem bind_run (x : CompileM α) (f : α → CompileM β) (ctx : Context) :
    (x >>= f) ctx = match x ctx with
      | .ok a after => f a after
      | .error s after => .error s after := by
  cases h : x ctx <;> simp [bind, EStateM.bind, h]

theorem bind_run_ok {x : CompileM α} {ctx after : Context} {a : α} (h : x ctx = .ok a after)
    (f : α → CompileM β) : (x >>= f) ctx = f a after := by
  rw [bind_run, h]

theorem get_bind_run (f : Context → CompileM α) (ctx : Context) : (get >>= f) ctx = f ctx ctx :=
  rfl

theorem bind_run_error {x : CompileM α} {ctx after : Context} {s : Stop}
    (h : x ctx = .error s after) (f : α → CompileM β) : (x >>= f) ctx = .error s after := by
  rw [bind_run, h]

theorem exists_of_bind_ok {x : CompileM α} {f : α → CompileM β} {ctx after : Context} {b : β}
    (h : (x >>= f) ctx = .ok b after) : ∃ a mid, x ctx = .ok a mid ∧ f a mid = .ok b after := by
  rw [bind_run] at h
  cases hx : x ctx with
  | ok a mid => exact ⟨a, mid, rfl, by rwa [hx] at h⟩
  | error s mid => rw [hx] at h; cases h

/-- A run whose value is known ends in some context. -/
theorem exists_of_run' {x : CompileM α} {ctx : Context} {a : α} (h : x.run' ctx = some a) :
    ∃ after, x ctx = .ok a after := by
  delta EStateM.run' EStateM.run at h
  cases hrun : x ctx with
  | ok b after =>
      rw [hrun] at h
      cases h
      exact ⟨after, rfl⟩
  | error s after =>
      rw [hrun] at h
      cases h

/-- A run without a value does not end in any context. -/
theorem ne_ok_of_run' {x : CompileM α} {ctx : Context} (h : (x.run' ctx).isNone = true) (a : α)
    (after : Context) : x ctx ≠ .ok a after := by
  intro hrun
  delta EStateM.run' EStateM.run at h
  rw [hrun] at h
  cases h

end CompileM

end IndentMarkup
