import IndentMarkup.Proofs.Effects
import Mathlib.Logic.Relation

/-!
The steps of a compile.

Whatever a compile does to its context it does step by step: a line of source changes it, a
section or a tab opens, a file or a template is entered or left. A file is entered only if the
loader has its source and it is not open, and a template only if it is not being expanded.

* `Context.Step`, `Context.Steps` — what can happen to a context.
* `Way`, `Way.effect` — a relation that holds of steps; then it holds of all readers.
* `Alike` — two actions that are alike until one question is asked, and the steps before and
  behind the question.
-/

namespace IndentMarkup

namespace Context

/-- What can happen to a context at once. -/
inductive Step (loader : Loader) : Context → Context → Prop where
  | directive {c d : Context} (l : Line) : c.readDirective l = .ok d → Step loader c d
  | addClass {c d : Context} (name declarations : Text) :
      c.addClass name declarations = .ok d → Step loader c d
  | define {c d : Context} (name : Text) (parameters : List Text) (body : Text) :
      c.defineBody name parameters body = .ok d → Step loader c d
  | undefine {c d : Context} (name : Text) : c.undefine name = .ok d → Step loader c d
  /-- A section or a tab opens. -/
  | opened (c : Context) (n : Nat) :
      Step loader c { c with nextId := n, hasStructure := true }
  | openFile {c : Context} {file : Location} {text : Text} : loader.load file = .ok text →
      file ∉ c.openFiles → Step loader c (c.openFile file)
  | closeFile (c : Context) : Step loader c c.closeFile
  | enter {c : Context} {name : Text} : name ∉ c.expanding → Step loader c (c.enter name)
  | leave (c : Context) : Step loader c c.leave

/-- What can happen to a context in the course of time. -/
abbrev Steps (loader : Loader) : Context → Context → Prop := Relation.ReflTransGen (Step loader)

end Context

open Context

variable {loader : Loader}

/-! ### Going step by step -/

/-- A relation that holds of every step of a run, and of steps one after the other. -/
structure Way (loader : Loader) (R : Context → Context → Prop) : Prop where
  refl (c : Context) : R c c
  trans {b c d : Context} : R b c → R c d → R b d
  directive {c d : Context} {l : Line} : c.readDirective l = .ok d → R c d
  addClass {c d : Context} {name declarations : Text} : c.addClass name declarations = .ok d →
    R c d
  define {c d : Context} {name body : Text} {parameters : List Text} :
    c.defineBody name parameters body = .ok d → R c d
  undefine {c d : Context} {name : Text} : c.undefine name = .ok d → R c d
  opened (c : Context) (k : Nat) : R c { c with nextId := c.nextId + k, hasStructure := true }
  openFile {c : Context} {file : Location} {text : Text} : loader.load file = .ok text →
    file ∉ c.openFiles → R c (c.openFile file)
  closeFile (c : Context) : R c c.closeFile
  enter {c : Context} {name : Text} : name ∉ c.expanding → R c (c.enter name)
  leave (c : Context) : R c c.leave

/-- Readers go step by step. -/
theorem Way.effect {R : Context → Context → Prop} (h : Way loader R) : Effect loader R where
  refl := h.refl
  trans := h.trans
  directive := h.directive
  addClass := h.addClass
  define := h.define
  undefine := h.undefine
  opened := h.opened
  file hload hfile hinside := h.trans (h.openFile hload hfile) (h.trans hinside (h.closeFile _))
  template hname hinside := h.trans (h.enter hname) (h.trans hinside (h.leave _))

/-- Going step by step is such a relation itself. -/
theorem way_steps (loader : Loader) : Way loader (Steps loader) where
  refl _ := .refl
  trans := .trans
  directive h := .single (.directive _ h)
  addClass h := .single (.addClass _ _ h)
  define h := .single (.define _ _ _ h)
  undefine h := .single (.undefine _ h)
  opened c _ := .single (.opened c _)
  openFile hload hfile := .single (.openFile hload hfile)
  closeFile c := .single (.closeFile c)
  enter hname := .single (.enter hname)
  leave c := .single (.leave c)

/-! ### Before and behind a question -/

/-- The first action goes step by step. The second does the same, unless the first comes to the
context `asked`; then it goes on from `answered`. -/
def Alike (R : Context → Context → Prop) (asked answered : Context) (α : Type)
    (x y : CompileM α) : Prop :=
  ∀ c, R c (x.after c) ∧ (y c = x c ∨ R c asked ∧ R answered (x.after c))

namespace Alike

variable {R : Context → Context → Prop} {asked answered : Context} {α β : Type}

/-- An action is alike to itself, whatever is asked. -/
theorem of_eq {x : CompileM α} (h : ∀ c, R c (x.after c)) : Alike R asked answered α x x :=
  fun c => ⟨h c, .inl rfl⟩

variable (h : Way loader R)
include h

/-- Actions that are alike one after the other are alike: the question comes up in the first or in
the second, or in neither. -/
theorem bind {x y : CompileM α} {f g : α → CompileM β} (hx : Alike R asked answered α x y)
    (hf : ∀ a, Alike R asked answered β (f a) (g a)) :
    Alike R asked answered β (x >>= f) (y >>= g) := by
  intro c
  obtain ⟨hfirst, hsame⟩ := hx c
  rw [CompileM.after_bind, CompileM.bind_run, CompileM.bind_run]
  -- a run of the first action that fails ends there; the second one goes on otherwise
  cases hrun : x c with
  | error s d =>
      rw [CompileM.after_of_error hrun] at hfirst hsame
      refine ⟨hfirst, hsame.imp_left fun heq => ?_⟩
      rw [heq, hrun]
  | ok a d =>
      rw [CompileM.after_of_ok hrun] at hfirst hsame
      obtain ⟨hsecond, hrest⟩ := hf a d
      refine ⟨h.trans hfirst hsecond, ?_⟩
      -- where the first actions come to the question, the steps behind it go on through the second
      rcases hsame with heq | ⟨hbefore, hbehind⟩
      · rw [heq, hrun]
        exact hrest.imp_right fun ⟨hbefore, hbehind⟩ => ⟨h.trans hfirst hbefore, hbehind⟩
      · exact .inr ⟨hbefore, h.trans hbehind hsecond⟩

/-- What happens while a file is open, with the step into the file and the one out of it. -/
theorem openAnew {x y : CompileM α} {file : Location} {text : Text} (n : Nat)
    (hload : loader.load file = .ok text) (hx : Alike R asked answered α x y) :
    Alike R asked answered α (Document.openAnew file n x) (Document.openAnew file n y) := by
  intro c
  rw [Document.after_openAnew]
  unfold Document.openAnew
  rw [CompileM.get_bind_run, CompileM.get_bind_run]
  split
  · exact ⟨h.refl c, .inl rfl⟩
  · next hfile =>
      obtain ⟨hinside, hsame⟩ := hx (c.openFile file)
      have hopen : R c (c.openFile file) := h.openFile hload hfile
      refine ⟨h.trans hopen (h.trans hinside (h.closeFile _)), ?_⟩
      rcases hsame with heq | ⟨hbefore, hbehind⟩
      · refine .inl ?_
        rw [Document.whileOpen, Document.whileOpen, heq]
      · exact .inr ⟨h.trans hopen hbefore, h.trans hbehind (h.closeFile _)⟩

/-- What happens in a template, with the steps into it and out of it. -/
theorem expandWith {e e' : Expander} (name : Text) (values : List Text) (n : Nat)
    (he : ∀ ls, Alike R asked answered _ (Block.readFragment e ls) (Block.readFragment e' ls)) :
    Alike R asked answered _ (expandWith e name values n) (expandWith e' name values n) := by
  intro c
  rw [after_expandWith]
  unfold IndentMarkup.expandWith
  cases hbody : c.bodyOfCall name values with
  | error cause => exact ⟨h.refl c, .inl rfl⟩
  | ok text =>
      dsimp only
      obtain ⟨hinside, hsame⟩ := he (SourceLine.ofSource text) (c.enter name)
      have henter : R c (c.enter name) := h.enter (Context.notMem_expanding_of_bodyOfCall hbody)
      refine ⟨h.trans henter (h.trans hinside (h.leave _)), ?_⟩
      rcases hsame with heq | ⟨hbefore, hbehind⟩
      · rw [heq]
        exact .inl rfl
      · exact .inr ⟨h.trans henter hbefore, h.trans hbehind (h.leave _)⟩

end Alike

/-- Being alike passes from parts to what is put together from them. -/
theorem Way.congruence_alike {R : Context → Context → Prop} (h : Way loader R)
    (asked answered : Context) : Congruence loader (Alike R asked answered) := by
  have hparts := h.effect.congruence
  exact {
    pure := fun a => .of_eq (hparts.pure a)
    bind := .bind h
    look := fun _ hf c => hf c c
    failAt := fun cause n column => .of_eq (hparts.failAt cause n column)
    exhausted := .of_eq hparts.exhausted
    directive := fun n l => .of_eq (hparts.directive n l)
    addClass := fun n name declarations => .of_eq (hparts.addClass n name declarations)
    define := fun n name parameters body => .of_eq (hparts.define n name parameters body)
    undefine := fun n name => .of_eq (hparts.undefine n name)
    openSection := fun o heading hasTitle => .of_eq (hparts.openSection o heading hasTitle)
    openTab := fun o heading => .of_eq (hparts.openTab o heading)
    openAnew := .openAnew h
    expandWith := .expandWith h }

end IndentMarkup
