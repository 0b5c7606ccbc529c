import IndentMarkup.Element

/-!
Sections and tabs, and how they are gathered.

A document is a list of tabs, a tab a list of sections, a section a list of
elements. They are gathered while the lines come in: a section is open until the next
one, a tab until the next one or until an included file, whose tabs come in between.
Sections outside all tabs stand in a tab without a name, which is opened for them.

* `Outline` — what has been gathered, with the tab and the section that are open.
* `Outline.openSection`, `Outline.openTab`, `Outline.push?`, `Outline.splice`,
  `Outline.finish` — its operations.
-/

namespace IndentMarkup

/-- What the line of a section or tab says: a name, already formatted, and a
description. -/
structure Heading where
  name : Option Text
  description : Option Text
  deriving DecidableEq, Repr

/-- A group of elements with a number that links can lead to. -/
structure Section where
  id : Nat
  heading : Heading
  /-- The name is shown above the elements. -/
  hasTitle : Bool
  elements : List Element

/-- A group of sections that is shown as a page of its own. Without a name it is just
its sections. -/
structure Tab where
  id : Nat
  heading : Heading
  sections : List Section

/-- The tab that is open, and its section that is open. -/
structure OpenTab where
  /-- The tab with the sections that are closed. -/
  tab : Tab
  current : Option Section

/-- The tab with its open section closed. -/
def OpenTab.close (t : OpenTab) : Tab :=
  { t.tab with sections := t.tab.sections ++ t.current.toList }

/-- Tabs that are being gathered. -/
structure Outline where
  /-- The tabs that are closed. -/
  closed : List Tab
  current : Option OpenTab

namespace Outline

/-- Nothing has been gathered. -/
def empty : Outline := ⟨[], none⟩

instance : EmptyCollection Outline := ⟨empty⟩

instance : Inhabited Outline := ⟨empty⟩

/-- The outline without an open tab. -/
def closeTab (o : Outline) : Outline :=
  match o.current with
  | none => o
  | some t => ⟨o.closed ++ [t.close], none⟩

/-- Open a section, and a tab without a name for it if no tab is open. Numbers are
taken upwards from `id`, the tab's first; the next one that is free comes back. -/
def openSection (o : Outline) (id : Nat) (heading : Heading) (hasTitle : Bool) :
    Outline × Nat :=
  match o.current with
  | some t => (⟨o.closed, some ⟨t.close, some ⟨id, heading, hasTitle, []⟩⟩⟩, id + 1)
  | none =>
      (⟨o.closed, some ⟨⟨id, ⟨none, none⟩, []⟩, some ⟨id + 1, heading, hasTitle, []⟩⟩⟩, id + 2)

/-- One number is taken, or two. -/
theorem openSection_next (o : Outline) (id : Nat) (heading : Heading) (hasTitle : Bool) :
    ∃ k, (o.openSection id heading hasTitle).2 = id + k := by
  obtain ⟨closed, current⟩ := o
  cases current with
  | none => exact ⟨2, rfl⟩
  | some t => exact ⟨1, rfl⟩

/-- Open a tab with the number `id`; the next free one comes back. -/
def openTab (o : Outline) (id : Nat) (heading : Heading) : Outline × Nat :=
  (⟨o.closeTab.closed, some ⟨⟨id, heading, []⟩, none⟩⟩, id + 1)

/-- Add elements to the open section, if there is one. -/
def push? (o : Outline) (elements : List Element) : Option Outline :=
  match o.current with
  | some ⟨tab, some s⟩ =>
      some ⟨o.closed, some ⟨tab, some { s with elements := s.elements ++ elements }⟩⟩
  | _ => none

/-- Close the open tab and add the tabs of an included file. -/
def splice (o : Outline) (tabs : List Tab) : Outline := ⟨o.closeTab.closed ++ tabs, none⟩

/-- All tabs, the open one closed. -/
def finish (o : Outline) : List Tab := o.closeTab.closed

end Outline

end IndentMarkup
