import IndentMarkup.Proofs.Effects
import IndentMarkup.Proofs.Places

/-!
The HTML of elements is well nested.

Angle brackets reach the output only as tags: those that the author writes as text are turned
into references or refused, and those of a span are cut out with it and come back around its
HTML. So whatever is written without a call is made of characters, void elements, and elements
that are closed by their own tags.

* `WellNested` — such texts; `WellNested.append` — they can be put side by side.
* `Element.wellNested_html` — an element is, if its text and its children are.
* `yields_format`, `yields_readFragment` — what is read without calls is well nested.
* `CallFree` — a run that does not depend on what calls would give.
* `wellNested_of_callFree` — formatted texts and the elements of a source are well nested, unless
  a template is called.
-/

namespace IndentMarkup

/-! ### Well-nested texts -/

/-- An opening tag with attributes. -/
def openingTag (tag : Text) (attributes : List (Text × Text)) : Text :=
  '<' :: tag ++ attributes.flatMap (fun a => ' ' :: a.1 ++ "=\"".toList ++ a.2 ++ ['"']) ++ ['>']

/-- The text is made of characters other than angle brackets, of void elements, and of elements
that are closed. No value of an attribute has a double quote. -/
inductive WellNested : Text → Prop where
  | nil : WellNested []
  | char {c : Char} {t : Text} : c ≠ '<' → c ≠ '>' → WellNested t → WellNested (c :: t)
  /-- A void element as the author wrote it. -/
  | written {v t : Text} : isVoidTag (Text.trim v) = true → WellNested t →
      WellNested ('<' :: v ++ '>' :: t)
  | void {tag t : Text} {attributes : List (Text × Text)} : (∀ a ∈ attributes, '"' ∉ a.2) →
      isVoidTag tag = true → WellNested t → WellNested (openingTag tag attributes ++ t)
  | closed {tag inner t : Text} {attributes : List (Text × Text)} :
      (∀ a ∈ attributes, '"' ∉ a.2) → isVoidTag tag = false → WellNested inner → WellNested t →
      WellNested (openingTag tag attributes ++ inner ++ Element.closeTag tag ++ t)

namespace WellNested

/-- Well-nested texts can be put side by side. -/
theorem append {s t : Text} (hs : WellNested s) (ht : WellNested t) : WellNested (s ++ t) := by
  -- on how the first text is nested; the other one comes behind the last of its parts
  induction hs with
  | nil => exact ht
  | char hopen hclose _ ih => exact .char hopen hclose ih
  | written hv _ ih =>
      rw [List.append_assoc]
      exact .written hv ih
  | void hvalues hvoid _ ih =>
      rw [List.append_assoc]
      exact .void hvalues hvoid ih
  | closed hvalues hvoid hinner _ _ ih =>
      rw [List.append_assoc]
      exact .closed hvalues hvoid hinner ih

/-- A text without angle brackets is well nested. -/
theorem of_no_angle {t : Text} (hopen : '<' ∉ t) (hclose : '>' ∉ t) : WellNested t := by
  induction t with
  | nil => exact .nil
  | cons c t ih =>
      rw [List.mem_cons, not_or] at hopen hclose
      exact .char (Ne.symm hopen.1) (Ne.symm hclose.1) (ih hopen.2 hclose.2)

/-- So is a text with references in the place of its angle brackets. -/
theorem escapeMarkup (t : Text) : WellNested (Text.escapeMarkup t) := by
  unfold Text.escapeMarkup
  induction t with
  | nil => exact .nil
  | cons c t ih =>
      rw [List.flatMap_cons]
      refine append ?_ ih
      split
      · exact of_no_angle (by decide) (by decide)
      · exact of_no_angle (by decide) (by decide)
      · exact of_no_angle (by decide) (by decide)
      · next hopen hclose => exact .char hopen hclose .nil

/-- So is the reference for an escape. -/
theorem of_escapeAt {t entity : Text} (h : Inline.escapeAt? t = some entity) :
    WellNested entity := by
  unfold Inline.escapeAt? at h
  split at h
  · exact of_no_angle (Text.notMem_of_escapable (by decide) h)
      (Text.notMem_of_escapable (by decide) h)
  · cases h

end WellNested

/-! ### Elements -/

namespace Element

/-- No quote is left in the value of an attribute. -/
theorem notMem_escapeQuotes (t : Text) : '"' ∉ Text.escapeQuotes t := by
  intro h
  obtain ⟨c, -, hc⟩ := List.mem_flatMap.1 h
  split at hc
  · exact absurd hc (by decide)
  · next hquote => exact hquote (List.mem_singleton.1 hc).symm

/-- The opening tag of an element has its values escaped. -/
theorem openTag_eq (tag : Text) (attributes : Table Text) : openTag tag attributes
    = openingTag tag (attributes.entries.map fun a => (a.1, Text.escapeQuotes a.2)) := by
  rw [openTag, openingTag, List.flatMap_map]
  rfl

/-- An element is well nested if its text and its children are. -/
theorem wellNested_html {e : Element} (htext : WellNested e.text)
    (hchildren : WellNested (htmlAll e.children)) : WellNested e.html := by
  obtain ⟨tag, attributes, text, children⟩ := e
  have hvalues : ∀ a ∈ attributes.entries.map fun a => (a.1, Text.escapeQuotes a.2),
      '"' ∉ a.2 := by
    intro a ha
    obtain ⟨b, -, rfl⟩ := List.mem_map.1 ha
    exact notMem_escapeQuotes b.2
  rw [html, openTag_eq]
  split
  · next hvoid =>
      rw [← List.append_nil (openingTag _ _)]
      exact .void hvalues hvoid .nil
  · next hvoid =>
      rw [← List.append_nil (_ ++ closeTag tag), List.append_assoc (openingTag _ _)]
      exact .closed hvalues (Bool.not_eq_true _ ▸ hvoid) (htext.append hchildren) .nil

/-- The text of an element is the one that it is made of. -/
theorem text_ofTag (tag text : Text) (attributes : Table Text) :
    (ofTag tag text attributes).text = text := by
  unfold ofTag
  dsimp only
  split
  · rfl
  · split <;> rfl

/-- An element is made without children. -/
theorem children_ofTag (tag text : Text) (attributes : Table Text) :
    (ofTag tag text attributes).children = [] := by
  unfold ofTag
  dsimp only
  split
  · rfl
  · split <;> rfl

/-- An element without children is well nested if its text is. -/
theorem wellNested_ofTag (tag : Text) {text : Text} (attributes : Table Text)
    (htext : WellNested text) : WellNested (ofTag tag text attributes).html := by
  refine wellNested_html ?_ ?_
  · rwa [text_ofTag]
  · rw [children_ofTag]
    exact .nil

/-- With children, it is if these are, too. -/
theorem wellNested_withChildren (tag : Text) {text : Text} (attributes : Table Text)
    {es : List Element} (htext : WellNested text) (hes : WellNested (htmlAll es)) :
    WellNested ((ofTag tag text attributes).withChildren es).html := by
  refine wellNested_html ?_ hes
  rw [withChildren, text_ofTag]
  exact htext

/-- One element is well nested as a list of elements. -/
theorem wellNested_singleton {e : Element} (h : WellNested e.html) :
    WellNested (htmlAll [e]) := by
  rw [htmlAll, htmlAll, List.append_nil]
  exact h

/-- Elements one after the other have their HTML one after the other. -/
theorem htmlAll_append (es es' : List Element) :
    htmlAll (es ++ es') = htmlAll es ++ htmlAll es' := by
  induction es with
  | nil => rfl
  | cons e es ih => simp only [List.cons_append, htmlAll, ih, List.append_assoc]

end Element

/-! ### Formatted text -/

section Expander

variable {e : Expander} (he : ∀ name values n, Yields (fun _ => False) (e name values n))
include he

/-- A text in which no call ends is written well nested. -/
theorem yields_format (t : Text) (n column : Nat) :
    Yields WellNested (Inline.format e t n column) := by
  -- a call that ends would be made of what the expander gives, and that is nothing
  have call (last : Nat) (t : Text) : Yields (fun _ => False) (Inline.callHtml e n last t) := by
    unfold Inline.callHtml
    refine .ite (fun _ => .failAt _ _ _) fun _ => .look fun c => ?_
    cases c.template? (Inline.Call.name t) with
    | none => exact .failAt _ _ _
    | some m =>
        dsimp only
        cases Inline.Call.read? m.arity t with
        | none => exact .failAt _ _ _
        | some call => exact (he _ _ _).bind fun _ h => h.elim
  have after {span : Text → Nat → CompileM Text}
      (hspan : ∀ body column, Yields WellNested (span body column)) (last skip : Nat) (t : Text) :
      Yields WellNested (Inline.formatAfter e span n last skip t) := by
    -- on the text from a place on; what comes out in front is well nested, and so is the rest
    induction t generalizing skip with
    | nil =>
        simp only [Inline.formatAfter]
        exact .pure .nil
    | cons c t ih =>
        cases skip with
        | succ skip =>
            simp only [Inline.formatAfter]
            exact ih skip
        | zero =>
            simp only [Inline.formatAfter]
            cases hescape : Inline.escapeAt? (c :: t) with
            | some entity =>
                exact (ih 1).bind fun rest hrest =>
                  .pure ((WellNested.of_escapeAt hescape).append hrest)
            | none =>
                -- a call, a span, a closing bracket or another character
                refine .ite (fun _ => .ite (fun _ => ?_) fun _ => ?_) fun hopen =>
                  .ite (fun _ => .failAt _ _ _) fun hclose => ?_
                · exact (call last _).bind fun _ h => h.elim
                · cases Inline.takeSpan t with
                  | none => exact .failAt _ _ _
                  | some r =>
                      exact (hspan _ _).bind fun html hhtml => (ih r.2).bind fun rest hrest =>
                        .pure (hhtml.append hrest)
                · exact (ih 0).bind fun rest hrest => .pure (.char hopen hclose hrest)
  have span {inner : Text → Nat → CompileM Text}
      (hinner : ∀ t column, Yields WellNested (inner t column)) (body : Text) (column : Nat) :
      Yields WellNested (Inline.spanHtml inner n body column) := by
    unfold Inline.spanHtml
    refine .ite (fun hvoid => .pure (.written hvoid .nil)) fun _ => ?_
    cases Shorthand.readToken body with
    | error err => exact .failAt _ _ _
    | ok s =>
        exact (hinner _ _).bind fun html hhtml =>
          .pure (Element.wellNested_ofTag _ _ hhtml)
  -- on the depth of spans within spans
  have within (nesting : Nat) : ∀ t column,
      Yields WellNested (Inline.formatWithin e n nesting t column) := by
    induction nesting with
    | zero => exact fun t column => after (fun _ _ => .pure .nil) _ 0 t
    | succ nesting ih => exact fun t column => after (span ih) _ 0 t
  exact within _ t column

/-! ### Elements of lines -/

/-- Elements that are well nested, and lines that are left. -/
abbrev NestedElements (r : List Element × List SourceLine) : Prop :=
  WellNested (Element.htmlAll r.1)

variable {r : Block.Reader}

/-- The element of a line is well nested if its body is. -/
theorem yields_readElement (hr : ∀ depth ls, Yields NestedElements (r depth ls)) (l : Line)
    (head : Block.TagLine) (tag : Text) (ls : List SourceLine) :
    Yields (fun x => WellNested x.1.html) (Block.readElement e r l head tag ls) := by
  have image (attributes : Table Text) :
      WellNested (Element.ofTag "img".toList [] attributes).html :=
    Element.wellNested_ofTag _ _ .nil
  -- an element is its formatted text, with a break if it has one, and the elements below it
  have element {html : Text} (hhtml : WellNested html) :
      Yields (fun x => WellNested x.1.html) (r (l.depth + 1) ls >>= fun below =>
        pure ((Element.ofTag tag (if head.text = [] then html else html ++ "<br>".toList)
          head.attributes).withChildren below.1, below.2)) := by
    have hbreak : WellNested "<br>".toList := .written (v := "br".toList) (by decide) .nil
    refine (hr _ _).bind fun below hbelow => .pure ?_
    refine Element.wellNested_withChildren _ _ ?_ hbelow
    split
    · exact hhtml
    · exact hhtml.append hbreak
  unfold Block.readElement
  refine .ite (fun _ => ?_) fun _ => .ite (fun _ => ?_) fun _ => ?_
  · unfold Block.readImage
    cases head.attributes.find? "href".toList with
    | none => exact .failAt _ _ _
    | some source =>
        refine .bind_any fun below => ?_
        cases below with
        | none => exact .pure (image _)
        | some found => exact .ite (fun _ => .failAt _ _ _) fun _ => .pure (image _)
  · exact (Yields.pure (WellNested.escapeMarkup head.text)).bind fun _ => element
  · exact (yields_format he _ _ _).bind fun _ => element

/-- So are the items of a run. -/
theorem yields_readItems (hr : ∀ depth ls, Yields NestedElements (r depth ls))
    (token inner : Text) (depth most : Nat) (ls : List SourceLine) :
    Yields NestedElements (Block.readItems e r token inner depth most ls) := by
  -- on the bound for items
  induction most generalizing ls with
  | zero => exact .pure .nil
  | succ most ih =>
      rw [Block.readItems]
      cases skipBlank ls with
      | nil => exact .pure .nil
      | cons raw rest =>
          refine .bind_any fun l => .ite (fun _ => ?_) fun _ => .pure .nil
          refine .bind_any fun head => ?_
          refine (yields_readElement he hr l head inner rest).bind fun item hitem => ?_
          exact (ih _).bind fun more hmore => .pure (hitem.append hmore)

/-- So is a tag with its run. -/
theorem yields_readTree (hr : ∀ depth ls, Yields NestedElements (r depth ls)) (l : Line)
    (ls : List SourceLine) : Yields NestedElements (Block.readTree e r l ls) := by
  unfold Block.readTree
  refine .bind_any fun head => ?_
  cases Block.runs.find? (·.tag = head.tag) with
  | none =>
      exact (yields_readElement he hr l head _ ls).bind fun result hresult =>
        .pure (Element.wellNested_singleton hresult)
  | some run =>
      refine (yields_readElement he hr l head _ ls).bind fun first hfirst => ?_
      refine (yields_readItems he hr _ _ _ _ _).bind fun more hmore => .pure ?_
      exact Element.wellNested_singleton
        (Element.wellNested_withChildren _ _ .nil (hfirst.append hmore))

/-- So is what any line without a call stands for. -/
theorem yields_readLineWith (hr : ∀ depth ls, Yields NestedElements (r depth ls)) (l : Line)
    (ls : List SourceLine) : Yields NestedElements (Block.readLineWith e r l ls) := by
  -- definitions and classes have no elements
  have nothing {x : CompileM (List SourceLine)} :
      Yields NestedElements (do return ([], ← x)) :=
    .bind_any fun _ => .pure .nil
  unfold Block.readLineWith
  cases l.kind with
  | blank => exact .pure .nil
  | comment => exact .pure .nil
  | sectionStart => exact .failAt _ _ _
  | tabStart => exact .failAt _ _ _
  | inclusion => exact .failAt _ _ _
  | directive =>
      refine .look fun c => .ite (fun _ => ?_) fun _ => .failAt _ _ _
      exact .bind_any fun _ => .pure .nil
  | customClass => exact nothing
  | template =>
      dsimp only
      unfold Block.readTemplateLine
      split
      · exact nothing
      · exact .bind_any fun _ => .pure .nil
      · exact (he _ _ _).bind fun _ h => h.elim
  | margin =>
      exact .pure (Element.wellNested_singleton (Element.wellNested_ofTag _ _ .nil))
  | tag => exact yields_readTree he hr l ls
  | text => exact yields_readTree he hr l ls
  | escaped => exact yields_readTree he hr l ls

/-- The elements of a source in which no call ends are well nested. -/
theorem yields_readFragment (ls : List SourceLine) :
    Yields (fun es => WellNested (Element.htmlAll es)) (Block.readFragment e ls) := by
  -- on the bound for lines; the block below a line and the lines behind it are read with less
  have within (most : Nat) : ∀ depth ls,
      Yields NestedElements (Block.readWithin e most depth ls) := by
    induction most with
    | zero => exact fun depth ls => .pure .nil
    | succ most ih =>
        intro depth ls
        rw [Block.readWithin]
        refine .bind_any fun found => ?_
        cases found with
        | none => exact .pure .nil
        | some found =>
            refine .ite (fun _ => .pure .nil) fun _ => .ite (fun _ => .failAt _ _ _) fun _ => ?_
            refine (yields_readLineWith he ih _ _).bind fun result hresult => ?_
            refine (ih _ _).bind fun more hmore => .pure ?_
            rw [NestedElements, Element.htmlAll_append]
            exact hresult.append hmore
  exact (within _ _ _).bind fun result hresult => .pure hresult

end Expander

/-! ### Texts and sources without calls -/

/-- The run calls no template: it is the same whatever calls would give. -/
def CallFree {α : Type} (run : Expander → CompileM α) (c : Context) : Prop :=
  ∀ e e', run e c = run e' c

/-- An expander that fails on every call. -/
def refuseCalls : Expander := fun _ _ _ ctx => .error .exhausted ctx

/-- The invariant of what has no tilde: there is nothing that could be a call. -/
def Invariant.withoutTilde : Invariant :=
  { rigid (fun _ => True) (fun _ => True) (fun _ _ _ _ _ => trivial) fun _ _ _ _ _ => trivial with
    source := fun l => '~' ∉ l.text
    line := fun m => '~' ∉ m.content
    call := fun _ => False
    line_of_source := fun hl hscan hm => hl (content_subset_of_scan hscan hm)
    number_of_source := fun _ => trivial
    number_of_line := fun _ => trivial
    number_of_call := nofun
    call_of_line := fun hm htilde => hm htilde
    directive := fun _ _ _ => trivial
    addClass := fun _ _ _ _ => trivial
    fail := fun _ _ _ _ => trivial }

/-- Without a tilde all expanders do, as none is asked. -/
theorem Invariant.expands_withoutTilde (e e' : Expander) :
    Invariant.withoutTilde.coupling.Expands e e' :=
  fun _ _ _ _ _ hcall => (hcall rfl).elim

/-- A text without a tilde calls no template. -/
theorem callFree_format {t : Text} (h : '~' ∉ t) (n column : Nat) (c : Context) :
    CallFree (fun e => Inline.format e t n column) c := by
  intro e e'
  have hallows : Invariant.withoutTilde.coupling.Allows n t := fun d hd heq => h (heq ▸ hd)
  exact (Invariant.eq_of_couples (Coupling.couples_format (Invariant.expands_withoutTilde e e')
    hallows ⟨rfl, trivial⟩ rfl) trivial).symm

/-- A source without a tilde calls no template. -/
theorem callFree_readFragment {ls : List SourceLine} (h : ∀ l ∈ ls, '~' ∉ l.text) (c : Context) :
    CallFree (fun e => Block.readFragment e ls) c := by
  intro e e'
  exact (Invariant.eq_of_couples (Coupling.couples_readFragment
    (Invariant.expands_withoutTilde e e') rfl (Invariant.lines_self h)) trivial).symm

/-- A formatted text is well nested if no template is called in it, and so are the elements of a
source, written one after the other. -/
theorem wellNested_of_callFree (e : Expander) (c after : Context) :
    (∀ t n column html, CallFree (fun e => Inline.format e t n column) c →
      Inline.format e t n column c = .ok html after → WellNested html) ∧
    ∀ ls es, CallFree (fun e => Block.readFragment e ls) c →
      Block.readFragment e ls c = .ok es after → WellNested (Element.htmlAll es) := by
  -- without calls the expander that never ends one gives the same, and for it all is well nested
  have hrefuse (name : Text) (values : List Text) (n : Nat) :
      Yields (fun _ => False) (refuseCalls name values n) := by
    intro c a d h
    cases h
  constructor
  · intro t n column html hfree hformat
    exact yields_format hrefuse t n column c html after
      ((hfree refuseCalls e).trans hformat)
  · intro ls es hfree hread
    exact yields_readFragment hrefuse ls c es after ((hfree refuseCalls e).trans hread)

/-- Spans in one another, a void element and escapes. -/
def spanText : Text := "a \\< <b(x) c <i\x7b\"\x7d d>> <br>".toList

/-- Elements below one another, an image and items. -/
def nestedSource : Text := ".p[q] a\n\t.b(\") u\n\t.img\x7bs\x7d\n.uli <b c>\n.uli".toList

/-- A run that ends can be taken apart. -/
theorem exists_ok_of_run {α : Type} {x : CompileM α} {c : Context}
    (h : (x.run' c).isSome = true) : ∃ a after, x c = .ok a after := by
  obtain ⟨a, ha⟩ := Option.isSome_iff_exists.1 h
  obtain ⟨after, hrun⟩ := CompileM.exists_of_run' ha
  exact ⟨a, after, hrun⟩

theorem wellNested_of_callFree_spans :
    ∃ html es after after',
      CallFree (fun e => Inline.format e spanText 0 0) .start ∧
      Inline.format (expander 0) spanText 0 0 .start = .ok html after ∧ WellNested html ∧
      CallFree (fun e => Block.readFragment e (SourceLine.ofSource nestedSource)) .start ∧
      Block.readFragment (expander 0) (SourceLine.ofSource nestedSource) .start = .ok es after' ∧
      WellNested (Element.htmlAll es) := by
  have hspans : CallFree (fun e => Inline.format e spanText 0 0) .start :=
    callFree_format (by decide) 0 0 .start
  have hlines : CallFree (fun e => Block.readFragment e (SourceLine.ofSource nestedSource))
      .start := callFree_readFragment (by decide) .start
  obtain ⟨html, after, hformat⟩ := exists_ok_of_run
    (by decide +kernel : ((Inline.format (expander 0) spanText 0 0).run' .start).isSome = true)
  obtain ⟨es, after', hread⟩ := exists_ok_of_run (by decide +kernel :
    ((Block.readFragment (expander 0) (SourceLine.ofSource nestedSource)).run' .start).isSome
      = true)
  exact ⟨html, es, after, after', hspans, hformat,
    (wellNested_of_callFree (expander 0) .start after).1 _ _ _ _ hspans hformat, hlines, hread,
    (wellNested_of_callFree (expander 0) .start after').2 _ _ hlines hread⟩

end IndentMarkup
