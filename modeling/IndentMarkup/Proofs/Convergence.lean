import IndentMarkup.Document
import Mathlib.Order.Filter.AtTopBot.Basic

/-!
Readers as limits of readers.

Everything that reads a source takes the expansion of template calls as an argument. If
the members of a family of expanders come to agree with one expander, the readers that
take them come to agree with the reader that takes that one: a run asks its expander
finitely often.

* `Converges` — almost all members of a family of actions end as one action does.
* `converges_readFragment`, `converges_readAll`, `converges_expandWith` — readers and
  expansions are continuous in the expander that they call.

A limit may be allowed to run out of depth where the members go on. With a single member
the notion is then the order of actions by how far they get. Without this allowance and
with a directed family it is the compactness of runs.
-/

namespace IndentMarkup

variable {ι α β : Type} {l : Filter ι} {patient : Prop}

/-- Almost all actions of the family `x` end as `y` does, from every context; a `patient`
family may go on where `y` runs out of depth. -/
def Converges (l : Filter ι) (patient : Prop) (x : ι → CompileM α) (y : CompileM α) : Prop :=
  ∀ ctx, (patient → ∀ after, y ctx ≠ .error .exhausted after) → ∀ᶠ i in l, x i ctx = y ctx

namespace Converges

/-- What does not depend on the family converges at once. -/
theorem rfl (y : CompileM α) : Converges l patient (fun _ => y) y := by
  intro ctx _
  exact .of_forall fun _ => Eq.refl _

/-- Families that converge one after the other converge: almost all members agree on both. -/
theorem bind {x : ι → CompileM α} {y : CompileM α} {f : ι → α → CompileM β}
    {g : α → CompileM β} (hx : Converges l patient x y)
    (hf : ∀ a, Converges l patient (fun i => f i a) (g a)) :
    Converges l patient (fun i => x i >>= f i) (y >>= g) := by
  intro ctx hctx
  -- if the limit fails in its first part, so do almost all members; else its second part decides
  cases hy : y ctx with
  | error s after =>
      have hgoes : patient → ∀ after', y ctx ≠ .error .exhausted after' := by
        intro hp after' h
        exact hctx hp after' (CompileM.bind_run_error h g)
      filter_upwards [hx ctx hgoes] with i hi
      rw [CompileM.bind_run_error hy, CompileM.bind_run_error (hi.trans hy)]
  | ok a after =>
      have hgoes : patient → ∀ after', y ctx ≠ .error .exhausted after' := by
        intro _ after' h
        rw [hy] at h
        cases h
      rw [CompileM.bind_run_ok hy] at hctx ⊢
      filter_upwards [hx ctx hgoes, hf a after hctx] with i hi hj
      rw [CompileM.bind_run_ok (hi.trans hy), hj]

/-- A family of branches converges if both branches do, each where it is taken. -/
theorem ite {c : Prop} [Decidable c] {x x' : ι → CompileM α} {y y' : CompileM α}
    (h : c → Converges l patient x y) (h' : ¬ c → Converges l patient x' y') :
    Converges l patient (fun i => if c then x i else x' i) (if c then y else y') := by
  by_cases hc : c
  · simpa only [hc, if_true] using h hc
  · simpa only [hc, if_false] using h' hc

end Converges

/-! ### Formatted text -/

section Readers

variable {E : ι → Expander} {e : Expander}

/-- The family of expanders converges, call by call. -/
def ExpanderConverges (l : Filter ι) (patient : Prop) (E : ι → Expander)
    (e : Expander) : Prop :=
  ∀ name values line,
    Converges l patient (fun i => E i name values line) (e name values line)

/-- The family of readers converges, block by block. -/
def ReaderConverges (l : Filter ι) (patient : Prop) (R : ι → Block.Reader)
    (r : Block.Reader) : Prop :=
  ∀ depth ls, Converges l patient (fun i => R i depth ls) (r depth ls)

/-- A call is read in the limit as its expander expands it. -/
theorem converges_callHtml (he : ExpanderConverges l patient E e) (line last : Nat) (t : Text) :
    Converges l patient (fun i => Inline.callHtml (E i) line last t)
      (Inline.callHtml e line last t) := by
  unfold Inline.callHtml
  refine .ite (fun _ => .rfl _) ?_
  intro _
  apply Converges.bind (.rfl _)
  intro ctx
  cases ctx.template? (Inline.Call.name t) with
  | none => exact .rfl _
  | some m =>
      dsimp only
      cases Inline.Call.read? m.arity t with
      | none => exact .rfl _
      | some call => exact .bind (he _ _ _) fun elements => .rfl _

/-- A span is read in the limit as what is in it. -/
theorem converges_spanHtml {X : ι → Text → Nat → CompileM Text} {x : Text → Nat → CompileM Text}
    (hx : ∀ t column, Converges l patient (fun i => X i t column) (x t column))
    (line : Nat) (body : Text) (column : Nat) :
    Converges l patient (fun i => Inline.spanHtml (X i) line body column)
      (Inline.spanHtml x line body column) := by
  unfold Inline.spanHtml
  refine .ite (fun _ => .rfl _) ?_
  intro _
  cases Shorthand.readToken body with
  | error e => exact .rfl _
  | ok s => exact .bind (hx _ _) fun html => .rfl _

/-- A text is formatted in the limit as its calls and its spans are. -/
theorem converges_formatAfter (he : ExpanderConverges l patient E e)
    {X : ι → Text → Nat → CompileM Text} {x : Text → Nat → CompileM Text}
    (hx : ∀ t column, Converges l patient (fun i => X i t column) (x t column))
    (line last : Nat) (skip : Nat) (t : Text) :
    Converges l patient (fun i => Inline.formatAfter (E i) (X i) line last skip t)
      (Inline.formatAfter e x line last skip t) := by
  -- on the text; a call or a span in front converges, and so does the rest by induction
  induction t generalizing skip with
  | nil => simpa only [Inline.formatAfter] using .rfl _
  | cons c t ih =>
      cases skip with
      | succ skip => simpa only [Inline.formatAfter] using ih skip
      | zero =>
          simp only [Inline.formatAfter]
          cases Inline.escapeAt? (c :: t) with
          | some entity => exact .bind (ih 1) fun rest => .rfl _
          | none =>
              dsimp only
              refine .ite (fun _ => .ite (fun _ => ?_) fun _ => ?_) fun _ =>
                .ite (fun _ => .rfl _) fun _ => .bind (ih 0) fun rest => .rfl _
              · apply Converges.bind (converges_callHtml he _ _ _)
                intro r
                exact .bind (ih _) fun rest => .rfl _
              · cases Inline.takeSpan t with
                | none => exact .rfl _
                | some r =>
                    apply Converges.bind (hx _ _)
                    intro html
                    exact .bind (ih _) fun rest => .rfl _

/-- Formatting is continuous in the expander that it calls. -/
theorem converges_format (he : ExpanderConverges l patient E e) (t : Text) (line column : Nat) :
    Converges l patient (fun i => Inline.format (E i) t line column)
      (Inline.format e t line column) := by
  -- on the depth of spans within spans
  have within (nesting : Nat) : ∀ t column,
      Converges l patient (fun i => Inline.formatWithin (E i) line nesting t column)
        (Inline.formatWithin e line nesting t column) := by
    induction nesting with
    | zero =>
        intro t column
        exact converges_formatAfter he (fun _ _ => .rfl _) _ _ _ _
    | succ nesting ih =>
        intro t column
        exact converges_formatAfter he (converges_spanHtml ih line) _ _ _ _
  exact within _ t column

/-- So are the names of sections and tabs. -/
theorem converges_heading (he : ExpanderConverges l patient E e) (m : Line) (marker : Nat) :
    Converges l patient (fun i => Heading.read (E i) m marker) (Heading.read e m marker) := by
  unfold Heading.read
  dsimp only
  generalize Heading.split (Text.trim (m.content.drop marker)) = parts
  obtain ⟨front, groups⟩ := parts
  apply Converges.bind (.rfl _)
  intro description
  refine .ite (fun _ => .rfl _) ?_
  intro _
  exact .bind (converges_format he _ _ _) fun name => .rfl _

/-! ### Blocks of lines -/

/-- An element is read in the limit as its text and its body are. -/
theorem converges_readElement (he : ExpanderConverges l patient E e)
    {R : ι → Block.Reader} {r : Block.Reader} (hr : ReaderConverges l patient R r)
    (m : Line) (head : Block.TagLine) (tag : Text) (rest : List SourceLine) :
    Converges l patient (fun i => Block.readElement (E i) (R i) m head tag rest)
      (Block.readElement e r m head tag rest) := by
  unfold Block.readElement
  refine .ite (fun _ => .rfl _) ?_
  intro _
  apply Converges.ite
  · intro _
    exact .bind (.rfl _) fun html => .bind (hr _ _) fun result => .rfl _
  · intro _
    exact .bind (converges_format he _ _ _) fun html => .bind (hr _ _) fun result => .rfl _

/-- Items are read in the limit one after the other. -/
theorem converges_readItems (he : ExpanderConverges l patient E e)
    {R : ι → Block.Reader} {r : Block.Reader} (hr : ReaderConverges l patient R r)
    (token inner : Text) (depth most : Nat) (ls : List SourceLine) :
    Converges l patient (fun i => Block.readItems (E i) (R i) token inner depth most ls)
      (Block.readItems e r token inner depth most ls) := by
  induction most generalizing ls with
  | zero => exact .rfl _
  | succ most ih =>
      -- scanning and reading the tag do not depend on the family
      simp only [Block.readItems]
      cases skipBlank ls with
      | nil => exact .rfl _
      | cons raw rest =>
          apply Converges.bind (.rfl _)
          intro m
          apply Converges.ite _ (fun _ => .rfl _)
          intro _
          apply Converges.bind (.rfl _)
          intro head
          apply Converges.bind (converges_readElement he hr _ _ _ _)
          intro first
          exact .bind (ih _) fun more => .rfl _

/-- The element of a line with its run is read in the limit as its readers read it. -/
theorem converges_readTree (he : ExpanderConverges l patient E e)
    {R : ι → Block.Reader} {r : Block.Reader} (hr : ReaderConverges l patient R r)
    (m : Line) (rest : List SourceLine) :
    Converges l patient (fun i => Block.readTree (E i) (R i) m rest)
      (Block.readTree e r m rest) := by
  unfold Block.readTree
  apply Converges.bind (.rfl _)
  intro head
  cases Block.runs.find? (·.tag = head.tag) with
  | none => exact .bind (converges_readElement he hr _ _ _ _) fun first => .rfl _
  | some run =>
      apply Converges.bind (converges_readElement he hr _ _ _ _)
      intro first
      exact .bind (converges_readItems he hr _ _ _ _ _) fun more => .rfl _

theorem converges_readTemplateLine (he : ExpanderConverges l patient E e) (m : Line)
    (rest : List SourceLine) :
    Converges l patient (fun i => Block.readTemplateLine (E i) m rest)
      (Block.readTemplateLine e m rest) := by
  unfold Block.readTemplateLine
  split
  · exact .rfl _
  · exact .rfl _
  · exact .bind (he _ _ _) fun elements => .rfl _

/-- Of all lines only calls, tags and texts ask the expander. -/
theorem converges_readLineWith (he : ExpanderConverges l patient E e)
    {R : ι → Block.Reader} {r : Block.Reader} (hr : ReaderConverges l patient R r)
    (m : Line) (rest : List SourceLine) :
    Converges l patient (fun i => Block.readLineWith (E i) (R i) m rest)
      (Block.readLineWith e r m rest) := by
  unfold Block.readLineWith
  cases m.kind with
  | template => exact converges_readTemplateLine he m rest
  | tag => exact converges_readTree he hr m rest
  | text => exact converges_readTree he hr m rest
  | escaped => exact converges_readTree he hr m rest
  | _ => exact .rfl _

/-- Blocks are read in the limit, for any bound on their lines. -/
theorem converges_readWithin (he : ExpanderConverges l patient E e) (most : Nat) :
    ReaderConverges l patient (fun i => Block.readWithin (E i) most) (Block.readWithin e most) := by
  -- on the bound; the block below a line is read with the smaller one
  induction most with
  | zero => exact fun depth ls => .rfl _
  | succ most ih =>
      intro depth ls
      simp only [Block.readWithin]
      apply Converges.bind (.rfl _)
      intro found
      cases found with
      | none => exact .rfl _
      | some found =>
          refine .ite (fun _ => .rfl _) ?_
          intro _
          refine .ite (fun _ => .rfl _) ?_
          intro _
          apply Converges.bind (converges_readLineWith he ih _ _)
          intro first
          exact .bind (ih _ _) fun more => .rfl _

theorem converges_readLine (he : ExpanderConverges l patient E e) (m : Line)
    (rest : List SourceLine) :
    Converges l patient (fun i => Block.readLine (E i) m rest) (Block.readLine e m rest) := by
  apply converges_readLineWith he
  intro depth ls
  exact converges_readWithin he ls.length depth ls

/-- A fragment is read in the limit as its readers read it. -/
theorem converges_readFragment (he : ExpanderConverges l patient E e) (ls : List SourceLine) :
    Converges l patient (fun i => Block.readFragment (E i) ls) (Block.readFragment e ls) :=
  .bind (converges_readWithin he ls.length 0 ls) fun _ => .rfl _

/-! ### Documents -/

theorem converges_readElements (he : ExpanderConverges l patient E e) (o : Outline) (m : Line)
    (rest : List SourceLine) :
    Converges l patient (fun i => Document.readElements (E i) o m rest)
      (Document.readElements e o m rest) := by
  unfold Document.readElements
  exact .bind (converges_readLine he m rest) fun result => .rfl _

/-- Each line at the top is read in the limit as its readers read it. -/
theorem converges_readTopLine (he : ExpanderConverges l patient E e)
    {X : ι → Line → CompileM (List Tab)} {x : Line → CompileM (List Tab)}
    (hx : ∀ m, Converges l patient (fun i => X i m) (x m)) (o : Outline) (m : Line)
    (rest : List SourceLine) :
    Converges l patient (fun i => Document.readLine (E i) (X i) o m rest)
      (Document.readLine e x o m rest) := by
  unfold Document.readLine
  refine .ite (fun _ => .rfl _) ?_
  intro _
  cases m.kind with
  | sectionStart =>
      exact .bind (converges_heading he _ _) fun heading => .rfl _
  | tabStart => exact .bind (converges_heading he _ _) fun heading => .rfl _
  | directive => exact .rfl _
  | inclusion => exact .bind (hx m) fun tabs => .rfl _
  | _ => exact converges_readElements he o m rest

/-- A source is read in the limit as its lines are. -/
theorem converges_readSource (he : ExpanderConverges l patient E e)
    {X : ι → Line → CompileM (List Tab)} {x : Line → CompileM (List Tab)}
    (hx : ∀ m, Converges l patient (fun i => X i m) (x m)) (source : Text) :
    Converges l patient (fun i => Document.readSource (E i) (X i) source)
      (Document.readSource e x source) := by
  -- on the bound for lines at the top
  have within (most : Nat) : ∀ o ls,
      Converges l patient (fun i => Document.readWithin (E i) (X i) most o ls)
        (Document.readWithin e x most o ls) := by
    induction most with
    | zero => exact fun o ls => .rfl _
    | succ most ih =>
        intro o ls
        simp only [Document.readWithin]
        apply Converges.bind (.rfl _)
        intro found
        cases found with
        | none => exact .rfl _
        | some found =>
            apply Converges.bind (converges_readTopLine he hx _ _ _)
            intro result
            exact ih _ _
  exact .bind (within _ _ _) fun o => .rfl _

/-- What is done while a file is open converges with what is done. -/
theorem Converges.whileOpen {x : ι → CompileM α} {y : CompileM α}
    (h : Converges l patient x y) (file : Location) :
    Converges l patient (fun i => Document.whileOpen file (x i)) (Document.whileOpen file y) := by
  intro ctx hctx
  have hgoes : patient → ∀ after, y (ctx.openFile file) ≠ .error .exhausted after := by
    intro hp after hy
    exact hctx hp after.closeFile (by simp only [Document.whileOpen, hy])
  filter_upwards [h (ctx.openFile file) hgoes] with i hi
  simp only [Document.whileOpen, hi]

/-- An inclusion is read in the limit as the included source is. -/
theorem converges_readInclusion (loader : Loader) {X : ι → Text → Text → CompileM (List Tab)}
    {x : Text → Text → CompileM (List Tab)}
    (hx : ∀ base source, Converges l patient (fun i => X i base source) (x base source))
    (base : Text) (m : Line) :
    Converges l patient (fun i => Document.readInclusion loader (X i) base m)
      (Document.readInclusion loader x base m) := by
  unfold Document.readInclusion
  refine .ite (fun _ => .rfl _) ?_
  intro _
  cases Path.sourceOf (Text.trim (m.content.drop 1)) with
  | error found => exact .rfl _
  | ok path =>
      dsimp only
      cases loader.resolve (Path.join base path) with
      | error e => exact .rfl _
      | ok file =>
          apply Converges.bind (.rfl _)
          intro ctx
          refine .ite (fun _ => .rfl _) ?_
          intro _
          cases loader.load file with
          | error e => exact .rfl _
          | ok source => exact (hx _ _).whileOpen file

/-- A source with its inclusions is read in the limit as its readers read it. -/
theorem converges_readAll (loader : Loader) (he : ExpanderConverges l patient E e)
    (base source : Text) :
    Converges l patient (fun i => Document.readAll loader (E i) base source)
      (Document.readAll loader e base source) := by
  -- on the depth of inclusions, with one file less below each
  have nested (nesting : Nat) : ∀ base source,
      Converges l patient (fun i => Document.readNested loader (E i) nesting base source)
        (Document.readNested loader e nesting base source) := by
    induction nesting with
    | zero => exact fun base source => .rfl _
    | succ nesting ih =>
        intro base source
        exact converges_readSource he (fun m => converges_readInclusion loader ih base m) source
  exact nested _ base source

/-! ### Expansions -/

/-- An expansion is in the limit what its readers make of the body. -/
theorem converges_expandWith (he : ExpanderConverges l patient E e) :
    ExpanderConverges l patient (fun i => expandWith (E i)) (expandWith e) := by
  intro name values line ctx hctx
  simp only [expandWith] at hctx ⊢
  -- a call that is refused is refused for all members; the body of any other is read in the limit
  cases hbody : ctx.bodyOfCall name values with
  | error cause => exact .of_forall fun _ => rfl
  | ok source =>
      simp only [hbody] at hctx ⊢
      have hgoes : patient → ∀ after, Block.readFragment e (SourceLine.ofSource source)
          (ctx.enter name) ≠ .error .exhausted after := by
        intro hp after h
        exact hctx hp after.leave (by simp only [h, Stop.inTemplate])
      filter_upwards [converges_readFragment he _ _ hgoes] with i hi
      rw [hi]

end Readers

end IndentMarkup
