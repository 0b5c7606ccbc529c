import IndentMarkup.Proofs.Parts

/-!
What a run gives, and what it does to its context.

A run that stops leaves a context, too: the changes before it stopped are not undone, except
for what it has opened. So a law about the effects of runs does not ask how they end.

* `CompileM.after` — the context that a run leaves.
* `Yields` — what holds of all that an action gives.
* `ElementEffect`, `Effect` — a relation between the context before and the one after that
  holds of the changes which lines with elements, and lines of sources, ask for.
* `ElementEffect.congruence`, `Effect.congruence` — then it holds of all readers.
-/

namespace IndentMarkup

/-! ### The context behind a run -/

namespace CompileM

variable {α β : Type}

/-- The context that a run leaves, whether it ends or stops. -/
def after (x : CompileM α) (c : Context) : Context :=
  match x c with
  | .ok _ d => d
  | .error _ d => d

/-- The context behind a run that ends. -/
theorem after_of_ok {x : CompileM α} {c d : Context} {a : α} (h : x c = .ok a d) :
    x.after c = d := by
  rw [after, h]

/-- The context behind a run that stops. -/
theorem after_of_error {x : CompileM α} {c d : Context} {s : Stop} (h : x c = .error s d) :
    x.after c = d := by
  rw [after, h]

/-- Behind two actions is what the second one leaves, unless the first one stops. -/
theorem after_bind (x : CompileM α) (f : α → CompileM β) (c : Context) :
    (x >>= f).after c = match x c with
      | .ok a d => (f a).after d
      | .error _ d => d := by
  rw [after, bind_run]
  cases x c <;> rfl

/-- To forget what an action gives is no further effect. -/
theorem after_forget (x : CompileM α) (c : Context) :
    (x >>= fun _ => pure ()).after c = x.after c := by
  rw [after_bind, after]
  cases x c <;> rfl

/-- A change leaves the changed context, or the old one if it is refused. -/
theorem after_change (n : Nat) (f : Context → Except Cause Context) (c : Context) :
    (change n f).after c = match f c with
      | .ok d => d
      | .error _ => c := by
  rw [after, change]
  cases f c <;> rfl

end CompileM

/-- A file is closed however its run ends. -/
theorem Document.after_whileOpen {α : Type} (file : Location) (x : CompileM α) (c : Context) :
    (Document.whileOpen file x).after c = (x.after (c.openFile file)).closeFile := by
  rw [CompileM.after, Document.whileOpen, CompileM.after]
  cases x (c.openFile file) <;> rfl

/-- A file that is open is not opened again, so nothing happens. -/
theorem Document.after_openAnew {α : Type} (file : Location) (n : Nat) (x : CompileM α)
    (c : Context) : (Document.openAnew file n x).after c =
      if file ∈ c.openFiles then c else (x.after (c.openFile file)).closeFile := by
  rw [← Document.after_whileOpen]
  change (ite _ _ _ : CompileM α).after c = _
  split <;> rfl

/-- An expansion does nothing, or what the body does while the template is expanded. -/
theorem after_expandWith (e : Expander) (name : Text) (values : List Text) (n : Nat)
    (c : Context) :
    (expandWith e name values n).after c = match c.bodyOfCall name values with
      | .error _ => c
      | .ok text =>
          ((Block.readFragment e (SourceLine.ofSource text)).after (c.enter name)).leave := by
  rw [CompileM.after, expandWith]
  cases c.bodyOfCall name values with
  | error cause => rfl
  | ok text =>
      dsimp only
      rw [CompileM.after]
      cases Block.readFragment e (SourceLine.ofSource text) (c.enter name) <;> rfl

/-! ### What a run gives -/

/-- What the action gives, if it gives anything, has the property. -/
def Yields {α : Type} (p : α → Prop) (x : CompileM α) : Prop :=
  ∀ c a after, x c = .ok a after → p a

namespace Yields

variable {α β : Type} {p : α → Prop} {q : β → Prop}

/-- What an action gives at once. -/
theorem pure {a : α} (h : p a) : Yields p (Pure.pure a) := by
  intro c a' after hrun
  cases hrun
  exact h

/-- An action that fails gives nothing. -/
theorem failAt (cause : Cause) (line : Nat) (column : Option Nat) :
    Yields p (CompileM.failAt cause line column) := by
  intro c a after hrun
  cases hrun

/-- What the second action gives, of all that the first one can give. -/
theorem bind {x : CompileM α} {f : α → CompileM β} (hx : Yields p x)
    (hf : ∀ a, p a → Yields q (f a)) : Yields q (x >>= f) := by
  intro c b after hrun
  rw [CompileM.bind_run] at hrun
  cases hrun₁ : x c with
  | error s middle => simp [hrun₁] at hrun
  | ok a middle =>
      rw [hrun₁] at hrun
      exact hf a (hx c a middle hrun₁) middle b after hrun

/-- Nothing need be known of what an action gives. -/
theorem bind_any {x : CompileM α} {f : α → CompileM β} (hf : ∀ a, Yields q (f a)) :
    Yields q (x >>= f) :=
  bind (p := fun _ => True) (fun _ _ _ _ => trivial) fun a _ => hf a

theorem look {f : Context → CompileM α} (h : ∀ c, Yields p (f c)) : Yields p (get >>= f) :=
  bind_any h

/-- A branch may use that it is taken. -/
theorem ite {b : Prop} [Decidable b] {x y : CompileM α} (hx : b → Yields p x)
    (hy : ¬ b → Yields p y) : Yields p (if b then x else y) := by
  split
  · next h => exact hx h
  · next h => exact hy h

end Yields

/-! ### Effects of all readers -/

/-- A relation between the context before a run and the one after it that holds of the changes
that a line with elements can ask for and of runs one after the other. Templates that are not
being expanded are entered for a run and left behind it. -/
structure ElementEffect (R : Context → Context → Prop) : Prop where
  refl (c : Context) : R c c
  trans {b c d : Context} : R b c → R c d → R b d
  directive {c d : Context} {l : Line} : c.readDirective l = .ok d → R c d
  addClass {c d : Context} {name declarations : Text} : c.addClass name declarations = .ok d →
    R c d
  define {c d : Context} {name body : Text} {parameters : List Text} :
    c.defineBody name parameters body = .ok d → R c d
  undefine {c d : Context} {name : Text} : c.undefine name = .ok d → R c d
  template {c d : Context} {name : Text} : name ∉ c.expanding → R (c.enter name) d → R c d.leave

/-- Such a relation for sources: sections and tabs take numbers, and files of the loader that
are not open are opened for a run and closed behind it. -/
structure Effect (loader : Loader) (R : Context → Context → Prop) : Prop
    extends ElementEffect R where
  opened (c : Context) (k : Nat) : R c { c with nextId := c.nextId + k, hasStructure := true }
  file {c d : Context} {file : Location} {text : Text} : loader.load file = .ok text →
    file ∉ c.openFiles → R (c.openFile file) d → R c d.closeFile

namespace ElementEffect

variable {R : Context → Context → Prop} (h : ElementEffect R)
include h

/-- A change of the context is one step of the relation, or none. -/
theorem change (n : Nat) {f : Context → Except Cause Context}
    (hf : ∀ {c d : Context}, f c = .ok d → R c d) (c : Context) :
    R c ((CompileM.change n f).after c) := by
  rw [CompileM.after_change]
  cases hchange : f c with
  | ok d => exact hf hchange
  | error cause => exact h.refl c

/-- So the effect of a run is a property that all readers have. -/
theorem congruence : ElementCongruence fun _ x _ => ∀ c, R c (x.after c) where
  pure _ c := h.refl c
  -- where the first action stops, the second one changes nothing
  bind {α β x y f g} hx hf c := by
    have hfirst := hx c
    rw [CompileM.after_bind]
    cases hrun : x c with
    | error s d => rwa [CompileM.after_of_error hrun] at hfirst
    | ok a d =>
        rw [CompileM.after_of_ok hrun] at hfirst
        exact h.trans hfirst (hf a d)
  look _ hf c := hf c c
  failAt _ _ _ c := h.refl c
  exhausted c := h.refl c
  directive n _ := h.change n h.directive
  addClass n _ _ := h.change n h.addClass
  define n _ _ _ := h.change n h.define
  undefine n _ := h.change n h.undefine
  -- a call that is refused changes nothing, any other is what happens while the template is entered
  expandWith name values n he c := by
    rw [after_expandWith]
    cases hbody : c.bodyOfCall name values with
    | error cause => exact h.refl c
    | ok text => exact h.template (Context.notMem_expanding_of_bodyOfCall hbody) (he _ _)

end ElementEffect

namespace Effect

variable {loader : Loader} {R : Context → Context → Prop} (h : Effect loader R)
include h

/-- The same for sources, which take numbers and open files. -/
theorem congruence : Congruence loader fun _ x _ => ∀ c, R c (x.after c) where
  toElementCongruence := h.toElementEffect.congruence
  -- a section takes one number or two, and the outline says how many
  openSection o heading hasTitle c := by
    obtain ⟨k, hk⟩ := o.openSection_next c.nextId heading hasTitle
    have hafter : (Document.openSection o heading hasTitle).after c =
        { c with nextId := c.nextId + k, hasStructure := true } := by
      rw [← hk]
      rfl
    rw [hafter]
    exact h.opened c k
  openTab o heading c := h.opened c 1
  openAnew {α x y file text} n hload hx c := by
    rw [Document.after_openAnew]
    split
    · exact h.refl c
    · next hfile => exact h.file hload hfile (hx _)

/-! The readers of sources, as they are put together in a compile. -/

/-- Sources with the files they include. -/
theorem readNested (depth nesting : Nat) (base source : Text) (c : Context) :
    R c ((Document.readNested loader (expander depth) nesting base source).after c) :=
  h.congruence.readNested (f := expander depth) (h.congruence.expander depth) nesting base source c

/-- The line of an inclusion. -/
theorem readInclusion (depth nesting : Nat) (base : Text) (l : Line) (c : Context) :
    R c ((Document.readInclusion loader (Document.readNested loader (expander depth) nesting) base
      l).after c) :=
  h.congruence.readInclusion (y := Document.readNested loader (expander depth) nesting)
    (h.readNested depth nesting) base l c

theorem readTopLine (depth nesting : Nat) (base : Text) (o : Outline) (l : Line)
    (ls : List SourceLine) (c : Context) :
    R c ((Document.readLine (expander depth) (Document.readInclusion loader
      (Document.readNested loader (expander depth) nesting) base) o l ls).after c) :=
  h.congruence.readTopLine (f := expander depth) (y := Document.readInclusion loader
    (Document.readNested loader (expander depth) nesting) base) (h.congruence.expander depth)
    (h.readInclusion depth nesting base) o l ls c

theorem readTop (depth nesting : Nat) (base : Text) (most : Nat) (o : Outline)
    (ls : List SourceLine) (c : Context) :
    R c ((Document.readWithin (expander depth) (Document.readInclusion loader
      (Document.readNested loader (expander depth) nesting) base) most o ls).after c) :=
  h.congruence.readTop (f := expander depth) (y := Document.readInclusion loader
    (Document.readNested loader (expander depth) nesting) base) (h.congruence.expander depth)
    (h.readInclusion depth nesting base) most o ls c

end Effect

end IndentMarkup
