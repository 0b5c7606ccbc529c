import IndentMarkup.Document

/-!
What the readers are made of.

All readers are put together from a few small actions: look at the context, change it by one
line of source, number a section or a tab, fail. A property that these have, and that passes
from parts to what is put together from them, is one of all readers. The same goes for a
relation between two actions that are put together alike: it holds of a reader with two
expanders if it holds of what they give. A property of one action is such a relation that does
not look at the other one.

* `ElementCongruence` — such a relation, for the readers of elements.
* `format`, `heading`, `readLine`, `readFragment`, `expander` — it holds of them.
* `Congruence` — such a relation, for the readers of sources.
* `readTopLine`, `readTop`, `readInclusion`, `readNested`, `readAll` — it holds of them.
-/

namespace IndentMarkup

/-- Scanning a line looks at the context and gives the line or fails at the place of the fault. -/
theorem CompileM.scan_eq (l : SourceLine) :
    CompileM.scan l = get >>= fun c => match l.scan c.indentation with
      | .ok m => pure m
      | .error e => .failAt (.indent e.fault) e.line (some e.column) := by
  funext c
  rw [CompileM.get_bind_run, CompileM.scan]
  cases l.scan c.indentation <;> rfl

/-- So does taking the lines of a body. -/
theorem Block.takeBody_eq (depth : Nat) (ls : List SourceLine) :
    Block.takeBody depth ls = get >>= fun c =>
      match Block.takeDeeper c.indentation depth ls with
      | .ok r => pure r
      | .error e => .failAt (.indent e.fault) e.line (some e.column) := by
  funext c
  rw [CompileM.get_bind_run, Block.takeBody]
  cases Block.takeDeeper c.indentation depth ls <;> rfl

/-- Do something while a file is open that an inclusion on line `n` names, unless it is open
already. -/
def Document.openAnew {α : Type} (file : Location) (n : Nat) (act : CompileM α) : CompileM α :=
  get >>= fun c =>
    if file ∈ c.openFiles then .failAt (.inclusion (.circular c.openFiles.reverse file)) n none
    else whileOpen file act

/-! ### Relations of two actions -/

/-- A relation between actions that the smallest actions of the readers of elements have to
themselves and that passes from parts to what is put together from them. What the readers look
at in a context is not its metadata or its numbers. -/
structure ElementCongruence (P : ∀ α : Type, CompileM α → CompileM α → Prop) : Prop where
  pure {α : Type} (a : α) : P α (pure a) (pure a)
  bind {α β : Type} {x y : CompileM α} {f g : α → CompileM β} : P α x y →
    (∀ a, P β (f a) (g a)) → P β (x >>= f) (y >>= g)
  look {α : Type} {f g : Context → CompileM α} :
    (∀ c metadata nextId hasStructure,
      f { c with metadata, nextId, hasStructure } = f c) → (∀ c, P α (f c) (g c)) →
    P α (get >>= f) (get >>= g)
  failAt {α : Type} (cause : Cause) (n : Nat) (column : Option Nat) :
    P α (CompileM.failAt cause n column) (CompileM.failAt cause n column)
  exhausted {α : Type} : P α (fun c => .error .exhausted c) fun c => .error .exhausted c
  directive (n : Nat) (l : Line) :
    P Unit (CompileM.change n (·.readDirective l)) (CompileM.change n (·.readDirective l))
  addClass (n : Nat) (name declarations : Text) :
    P Unit (CompileM.change n (·.addClass name declarations))
      (CompileM.change n (·.addClass name declarations))
  define (n : Nat) (name : Text) (parameters : List Text) (body : Text) :
    P Unit (CompileM.change n (·.defineBody name parameters body))
      (CompileM.change n (·.defineBody name parameters body))
  undefine (n : Nat) (name : Text) :
    P Unit (CompileM.change n (·.undefine name)) (CompileM.change n (·.undefine name))
  expandWith {e e' : Expander} (name : Text) (values : List Text) (n : Nat) :
    (∀ ls, P (List Element) (Block.readFragment e ls) (Block.readFragment e' ls)) →
    P (List Element) (expandWith e name values n) (expandWith e' name values n)

/-- Such a relation for the readers of sources, which open sections, tabs and the files of the
loader, too. -/
structure Congruence (loader : Loader) (P : ∀ α : Type, CompileM α → CompileM α → Prop) : Prop
    extends ElementCongruence P where
  openSection (o : Outline) (heading : Heading) (hasTitle : Bool) :
    P Outline (Document.openSection o heading hasTitle) (Document.openSection o heading hasTitle)
  openTab (o : Outline) (heading : Heading) :
    P Outline (Document.openTab o heading) (Document.openTab o heading)
  openAnew {α : Type} {x y : CompileM α} {file : Location} {text : Text} (n : Nat) :
    loader.load file = .ok text → P α x y →
    P α (Document.openAnew file n x) (Document.openAnew file n y)

namespace ElementCongruence

variable {P : ∀ α : Type, CompileM α → CompileM α → Prop}

theorem ite (_ : ElementCongruence P) {α : Type} {p : Prop} [Decidable p]
    {x y x' y' : CompileM α} (hx : P α x x') (hy : P α y y') :
    P α (if p then x else y) (if p then x' else y') := by
  by_cases hp : p
  · rwa [if_pos hp, if_pos hp]
  · rwa [if_neg hp, if_neg hp]

variable (h : ElementCongruence P)
include h

theorem map {α β : Type} (f : α → β) {x y : CompileM α} (hx : P α x y) :
    P β (do return f (← x)) (do return f (← y)) :=
  h.bind hx fun a => h.pure (f a)

/-! ### Lines -/

/-- A line is scanned by looking at the unit of indentation, which the relation allows for. -/
theorem scan (l : SourceLine) : P Line (CompileM.scan l) (CompileM.scan l) := by
  rw [CompileM.scan_eq]
  refine h.look (fun _ _ _ _ => rfl) ?_
  intro c
  cases l.scan c.indentation with
  | ok m => exact h.pure m
  | error e => exact h.failAt _ _ _

/-- So does the reading of the next line, which may be none. -/
theorem next (ls : List SourceLine) : P _ (Block.next ls) (Block.next ls) := by
  unfold Block.next
  cases skipSilent ls with
  | nil => exact h.pure none
  | cons l rest => exact h.map _ (h.scan l)

theorem takeBody (depth : Nat) (ls : List SourceLine) :
    P _ (Block.takeBody depth ls) (Block.takeBody depth ls) := by
  rw [Block.takeBody_eq]
  refine h.look (fun _ _ _ _ => rfl) ?_
  intro c
  cases Block.takeDeeper c.indentation depth ls with
  | ok r => exact h.pure r
  | error e => exact h.failAt _ _ _

section Expander

variable {e f : Expander}
  (he : ∀ name values n, P (List Element) (e name values n) (f name values n))
include he

/-! ### Formatted text -/

/-- A call looks at its template, fails, or does what the expanders do. -/
theorem callHtml (n last : Nat) (t : Text) :
    P _ (Inline.callHtml e n last t) (Inline.callHtml f n last t) := by
  unfold Inline.callHtml
  refine h.ite (h.failAt _ _ _) (h.look (fun _ _ _ _ => rfl) ?_)
  intro c
  cases c.template? (Inline.Call.name t) with
  | none => exact h.failAt _ _ _
  | some m =>
      dsimp only
      cases Inline.Call.read? m.arity t with
      | none => exact h.failAt _ _ _
      | some call => exact h.map _ (he _ _ _)

omit he in
/-- A span asks a nested formatter for the rest of its body. -/
theorem spanHtml {x y : Text → Nat → CompileM Text} (hx : ∀ t column, P _ (x t column) (y t column))
    (n : Nat) (body : Text) (column : Nat) :
    P _ (Inline.spanHtml x n body column) (Inline.spanHtml y n body column) := by
  unfold Inline.spanHtml
  refine h.ite (h.pure _) ?_
  cases Shorthand.readToken body with
  | error err => exact h.failAt _ _ _
  | ok s => exact h.map _ (hx _ _)

/-- The formatter is put together from calls, spans and characters. -/
theorem formatAfter {x y : Text → Nat → CompileM Text}
    (hx : ∀ t column, P _ (x t column) (y t column)) (n last skip : Nat) (t : Text) :
    P _ (Inline.formatAfter e x n last skip t) (Inline.formatAfter f y n last skip t) := by
  -- on the text, for any number of characters to be skipped; a call or a span is one more step
  induction t generalizing skip with
  | nil => simpa only [Inline.formatAfter] using h.pure []
  | cons c t ih =>
      cases skip with
      | succ skip => simpa only [Inline.formatAfter] using ih skip
      | zero =>
          simp only [Inline.formatAfter]
          cases Inline.escapeAt? (c :: t) with
          | some entity => exact h.map _ (ih 1)
          | none =>
              refine h.ite (h.ite ?_ ?_) (h.ite (h.failAt _ _ _) (h.map _ (ih 0)))
              · exact h.bind (h.callHtml he n last _) fun r => h.map _ (ih (r.2 + 1))
              · cases Inline.takeSpan t with
                | none => exact h.failAt _ _ _
                | some r => exact h.bind (hx _ _) fun html => h.map _ (ih r.2)

/-- A relation that holds of the expanders holds of formatted texts. -/
theorem format (t : Text) (n column : Nat) :
    P _ (Inline.format e t n column) (Inline.format f t n column) := by
  -- on the depth of spans within spans, as the formatter takes itself for what stands in a span
  have within (nesting : Nat) : ∀ t column, P _ (Inline.formatWithin e n nesting t column)
      (Inline.formatWithin f n nesting t column) := by
    induction nesting with
    | zero => exact fun t column => h.formatAfter he (fun _ _ => h.pure []) n _ 0 t
    | succ nesting ih => exact fun t column => h.formatAfter he (h.spanHtml ih n) n _ 0 t
  exact within _ t column

/-- It holds of the names of sections and tabs, too. -/
theorem heading (l : Line) (marker : Nat) :
    P _ (Heading.read e l marker) (Heading.read f l marker) := by
  unfold Heading.read
  dsimp only
  refine h.bind ?_ fun description => h.ite (h.pure _) (h.map _ (h.format he _ _ _))
  unfold Heading.readDescription
  refine h.ite (h.pure none) ?_
  cases Shorthand.readAll _ with
  | error err => exact h.failAt _ _ _
  | ok s => exact h.ite (h.pure _) (h.failAt _ _ _)

/-! ### Lines with elements -/

omit he in
/-- The token and the text of a line are read without a look at the context. -/
theorem readTag (l : Line) : P _ (Block.readTag l) (Block.readTag l) := by
  have tagged : P _ (Block.readTagged l) (Block.readTagged l) := by
    unfold Block.readTagged
    cases Shorthand.readToken l.content with
    | error err => exact h.failAt _ _ _
    | ok s =>
        dsimp only
        split <;> exact h.pure _
  unfold Block.readTag
  -- by the kind of the line, and only the line of a tag has something to read
  split
  · exact h.pure _
  · exact h.ite (h.pure _) (h.pure _)
  · exact h.pure _
  · exact tagged

variable {r r' : Block.Reader}

/-- An element is the text of its line and what the readers find below it. -/
theorem readElement (hr : ∀ depth ls, P _ (r depth ls) (r' depth ls)) (l : Line)
    (head : Block.TagLine) (tag : Text) (ls : List SourceLine) :
    P _ (Block.readElement e r l head tag ls) (Block.readElement f r' l head tag ls) := by
  have image : P _ (Block.readImage l head ls) (Block.readImage l head ls) := by
    unfold Block.readImage
    cases head.attributes.find? "href".toList with
    | none => exact h.failAt _ _ _
    | some source =>
        refine h.bind (h.next ls) fun below => ?_
        cases below with
        | none => exact h.pure _
        | some found => exact h.ite (h.failAt _ _ _) (h.pure _)
  unfold Block.readElement
  refine h.ite image ?_
  -- a line with a text of its own, or one whose text is formatted; both go on with the body
  refine h.ite (h.bind (h.pure _) fun html => ?_) (h.bind (h.format he _ _ _) fun html => ?_)
  all_goals exact h.bind (hr _ _) fun result => h.pure _

/-- The items of a run are read one after the other. -/
theorem readItems (hr : ∀ depth ls, P _ (r depth ls) (r' depth ls)) (token inner : Text)
    (depth most : Nat) (ls : List SourceLine) :
    P _ (Block.readItems e r token inner depth most ls)
      (Block.readItems f r' token inner depth most ls) := by
  -- on the bound for items: one item more is scanned, found to go on and read
  induction most generalizing ls with
  | zero => exact h.pure _
  | succ most ih =>
      rw [Block.readItems, Block.readItems]
      cases skipBlank ls with
      | nil => exact h.pure _
      | cons raw rest =>
          refine h.bind (h.scan raw) fun l => h.ite ?_ (h.pure _)
          refine h.bind (h.readTag l) fun head => ?_
          refine h.bind (h.readElement he hr l head inner rest) fun result => ?_
          exact h.bind (ih _) fun more => h.pure _

/-- The element of a line, and the items that follow if its tag starts a run. -/
theorem readTree (hr : ∀ depth ls, P _ (r depth ls) (r' depth ls)) (l : Line)
    (ls : List SourceLine) : P _ (Block.readTree e r l ls) (Block.readTree f r' l ls) := by
  unfold Block.readTree
  refine h.bind (h.readTag l) fun head => ?_
  cases Block.runs.find? (·.tag = head.tag) with
  | none => exact h.bind (h.readElement he hr l head _ ls) fun result => h.pure _
  | some run =>
      refine h.bind (h.readElement he hr l head _ ls) fun result => ?_
      exact h.bind (h.readItems he hr _ _ _ _ _) fun more => h.pure _

/-! ### Other lines -/

omit he in
/-- Custom classes, definitions and calls of templates are built from the same parts. -/
theorem readClass (l : Line) (ls : List SourceLine) :
    P _ (Block.readClass l ls) (Block.readClass l ls) := by
  unfold Block.readClass
  refine h.ite (h.failAt _ _ _) (h.bind (h.takeBody _ _) fun result => ?_)
  exact h.bind (h.addClass _ _ _) fun _ => h.pure _

omit he in
theorem readDefinition (l : Line) (signature : Text) (ls : List SourceLine) :
    P _ (Block.readDefinition l signature ls) (Block.readDefinition l signature ls) := by
  unfold Block.readDefinition
  cases Text.words signature with
  | nil => exact h.failAt _ _ _
  | cons name parameters =>
      refine h.look (fun _ _ _ _ => rfl) fun c => h.bind (h.takeBody _ _) fun result => ?_
      exact h.bind (h.define _ _ _ _) fun _ => h.pure _

theorem readTemplateLine (l : Line) (ls : List SourceLine) :
    P _ (Block.readTemplateLine e l ls) (Block.readTemplateLine f l ls) := by
  unfold Block.readTemplateLine
  split
  · exact h.map _ (h.readDefinition l _ ls)
  · exact h.bind (h.undefine _ _) fun _ => h.pure _
  · exact h.map _ (he _ _ _)

/-- By the kind of a line, each reader is one of those above. -/
theorem readLineWith (hr : ∀ depth ls, P _ (r depth ls) (r' depth ls)) (l : Line)
    (ls : List SourceLine) :
    P _ (Block.readLineWith e r l ls) (Block.readLineWith f r' l ls) := by
  unfold Block.readLineWith
  cases l.kind with
  | blank => exact h.pure _
  | comment => exact h.pure _
  | sectionStart => exact h.failAt _ _ _
  | tabStart => exact h.failAt _ _ _
  | inclusion => exact h.failAt _ _ _
  | directive =>
      refine h.look (fun _ _ _ _ => rfl) fun c => h.ite ?_ (h.failAt _ _ _)
      exact h.bind (h.directive _ _) fun _ => h.pure _
  | customClass => exact h.map _ (h.readClass l ls)
  | template => exact h.readTemplateLine he l ls
  | margin => exact h.pure _
  | tag => exact h.readTree he hr l ls
  | text => exact h.readTree he hr l ls
  | escaped => exact h.readTree he hr l ls

/-! ### Blocks -/

/-- The relation holds of whole blocks if it holds of the expanders. -/
theorem readBlock (depth : Nat) (ls : List SourceLine) :
    P _ (Block.readBlock e depth ls) (Block.readBlock f depth ls) := by
  -- on the bound for lines, which is smaller for the block below a line and for the lines behind
  have within (most : Nat) : ∀ depth ls,
      P _ (Block.readWithin e most depth ls) (Block.readWithin f most depth ls) := by
    induction most with
    | zero => exact fun depth ls => h.pure _
    | succ most ih =>
        intro depth ls
        rw [Block.readWithin, Block.readWithin]
        refine h.bind (h.next ls) fun found => ?_
        cases found with
        | none => exact h.pure _
        | some found =>
            refine h.ite (h.pure _) (h.ite (h.failAt _ _ _) ?_)
            refine h.bind (h.readLineWith he ih _ _) fun result => ?_
            exact h.bind (ih _ _) fun more => h.pure _
  exact within _ depth ls

theorem readLine (l : Line) (ls : List SourceLine) :
    P _ (Block.readLine e l ls) (Block.readLine f l ls) :=
  h.readLineWith he (h.readBlock he) l ls

/-- A fragment is the block at depth zero. -/
theorem readFragment (ls : List SourceLine) :
    P _ (Block.readFragment e ls) (Block.readFragment f ls) :=
  h.map _ (h.readBlock he 0 ls)

end Expander

/-- It holds of the expanders themselves, for every number of expansions. -/
theorem expander (depth : Nat) (name : Text) (values : List Text) (n : Nat) :
    P _ (expander depth name values n) (expander depth name values n) := by
  -- the fragments of a body are read with one expansion less
  induction depth generalizing name values n with
  | zero => exact h.exhausted
  | succ depth ih => exact h.expandWith name values n (h.readFragment ih)

end ElementCongruence

namespace Congruence

variable {loader : Loader} {P : ∀ α : Type, CompileM α → CompileM α → Prop}
  (h : Congruence loader P)
include h

section Expander

variable {e f : Expander}
  (he : ∀ name values n, P (List Element) (e name values n) (f name values n))
include he

/-! ### Sources -/

/-- Elements go to the open section, or the line fails. -/
theorem readElements (o : Outline) (l : Line) (ls : List SourceLine) :
    P _ (Document.readElements e o l ls) (Document.readElements f o l ls) := by
  unfold Document.readElements
  refine h.bind (h.readLine he l ls) fun result => h.ite (h.pure _) ?_
  cases o.push? result.1 with
  | none => exact h.failAt _ _ _
  | some o' => exact h.pure _

/-- Each kind of line at the top changes the outline by a section, a tab, elements or a file. -/
theorem readTopLine {x y : Line → CompileM (List Tab)} (hx : ∀ l, P _ (x l) (y l))
    (o : Outline) (l : Line) (ls : List SourceLine) :
    P _ (Document.readLine e x o l ls) (Document.readLine f y o l ls) := by
  unfold Document.readLine
  refine h.ite (h.failAt _ _ _) ?_
  cases l.kind with
  | sectionStart =>
      exact h.bind (h.heading he l _) fun heading => h.map _ (h.openSection o heading _)
  | tabStart => exact h.bind (h.heading he l _) fun heading => h.map _ (h.openTab o heading)
  | directive => exact h.bind (h.directive _ _) fun _ => h.pure _
  | inclusion => exact h.map _ (hx l)
  | _ => exact h.readElements he o l ls

/-- The lines at the top are read one after the other. -/
theorem readTop {x y : Line → CompileM (List Tab)} (hx : ∀ l, P _ (x l) (y l)) (most : Nat)
    (o : Outline) (ls : List SourceLine) :
    P _ (Document.readWithin e x most o ls) (Document.readWithin f y most o ls) := by
  induction most generalizing o ls with
  | zero => exact h.pure o
  | succ most ih =>
      rw [Document.readWithin, Document.readWithin]
      refine h.bind (h.next ls) fun found => ?_
      cases found with
      | none => exact h.pure o
      | some found => exact h.bind (h.readTopLine he hx o _ _) fun result => ih _ _

/-- A source is read if the lines at its top are. -/
theorem readSource {x y : Line → CompileM (List Tab)} (hx : ∀ l, P _ (x l) (y l))
    (source : Text) :
    P _ (Document.readSource e x source) (Document.readSource f y source) :=
  h.map _ (h.readTop he hx _ _ _)

omit he in
/-- An inclusion is refused, or it is what is done while the file is open. -/
theorem readInclusion {x y : Text → Text → CompileM (List Tab)}
    (hx : ∀ base source, P _ (x base source) (y base source)) (base : Text) (l : Line) :
    P _ (Document.readInclusion loader x base l) (Document.readInclusion loader y base l) := by
  unfold Document.readInclusion
  refine h.ite (h.failAt _ _ _) ?_
  cases Path.sourceOf (Text.trim (l.content.drop 1)) with
  | error found => exact h.failAt _ _ _
  -- the path is checked, resolved and loaded, and only then the file is opened
  | ok path =>
      dsimp only
      cases loader.resolve (Path.join base path) with
      | error err => exact h.failAt _ _ _
      | ok file =>
          dsimp only
          cases hload : loader.load file with
          | error err =>
              exact h.look (fun _ _ _ _ => rfl) fun c => h.ite (h.failAt _ _ _) (h.failAt _ _ _)
          | ok text => exact h.openAnew l.number hload (hx _ _)

/-- Sources with inclusions are read if the sources they include are. -/
theorem readNested (nesting : Nat) (base source : Text) :
    P _ (Document.readNested loader e nesting base source)
      (Document.readNested loader f nesting base source) := by
  induction nesting generalizing base source with
  | zero => exact h.exhausted
  | succ nesting ih => exact h.readSource he (h.readInclusion ih base) source

/-- The relation holds of a whole compile. -/
theorem readAll (base source : Text) :
    P _ (Document.readAll loader e base source) (Document.readAll loader f base source) :=
  h.readNested he _ base source

end Expander

end Congruence

end IndentMarkup
