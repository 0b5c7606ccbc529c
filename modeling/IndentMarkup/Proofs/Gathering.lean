import IndentMarkup.Outline
import Mathlib.Data.List.Induction

/-!
Nothing is lost and nothing is doubled while sections and tabs are gathered.

A section or tab that is open stands beside the closed ones, and later operations close it. What
comes out in the end can be told from the operations alone, without a look at what has been
gathered: a tab is open if a tab or a section was opened and since then no tabs were spliced in, a
section is open if one was opened and since then neither a tab was opened nor tabs were spliced in,
and what is open is the last there is. So each operation brings its own tabs, sections and elements
to places that are known, and the outline has all of them, in order, and nothing else.

* `Outline.Act` — the operations, and `Outline.gather`, what they make of nothing.
* `Outline.Since` — something happened, and nothing behind it undid it; `Outline.TabOpen`,
  `Outline.TabOpenAt` and `Outline.SectionOpen` say so of what is open.
* `Outline.tabsOf`, `Outline.sectionsOf`, `Outline.elementsOf` — what operations bring, and where.
* `Outline.tabOpen_gather`, `Outline.sectionOpen_gather` — the outline agrees on what is open.
* `Outline.tabs_act`, `Outline.sections_act`, `Outline.elements_act` — what one operation appends.
* `Outline.finish_gather` — what comes out after any operations.
-/

namespace IndentMarkup

/-! ### Parts with their positions -/

/-- The parts of all members of a list, each with the position of its member, the first of
which is `n`. -/
def positioned {α β : Type} (parts : α → List β) : Nat → List α → List (Nat × β)
  | _, [] => []
  | n, a :: as => (parts a).map (n, ·) ++ positioned parts (n + 1) as

section Positioned

variable {α β : Type} (parts : α → List β)

/-- The members behind others have the positions behind theirs. -/
theorem positioned_append (n : Nat) (as bs : List α) :
    positioned parts n (as ++ bs) =
      positioned parts n as ++ positioned parts (n + as.length) bs := by
  induction as generalizing n with
  | nil => rfl
  | cons a as ih =>
      rw [List.cons_append, positioned, ih, positioned, List.append_assoc, List.length_cons,
        Nat.add_right_comm, Nat.add_assoc]

/-- Positions add no parts. -/
theorem length_positioned (n : Nat) (as : List α) :
    (positioned parts n as).length = (as.flatMap parts).length := by
  induction as generalizing n with
  | nil => rfl
  | cons a as ih => rw [positioned, List.length_append, ih, List.length_map, List.flatMap_cons,
      List.length_append]

end Positioned

/-- The section as it is opened. -/
def Section.blank (s : Section) : Section := { s with elements := [] }

/-- The tab as it is opened. -/
def Tab.blank (t : Tab) : Tab := { t with sections := [] }

/-- The sections of the tab as they are opened. -/
def Tab.shelf (t : Tab) : List Section := t.sections.map Section.blank

/-- The elements of tabs, in order. -/
def tabsElements (tabs : List Tab) : List Element :=
  (tabs.flatMap (·.sections)).flatMap (·.elements)

namespace Outline

/-! ### Operations -/

/-- An operation. What it opens has the number that is free at that moment. -/
inductive Act where
  | openSection (id : Nat) (heading : Heading) (hasTitle : Bool)
  | openTab (id : Nat) (heading : Heading)
  | push (elements : List Element)
  | splice (tabs : List Tab)

namespace Act

def opensSection : Act → Bool
  | openSection _ _ _ => true
  | _ => false

def opensTab : Act → Bool
  | openTab _ _ => true
  | _ => false

def splices : Act → Bool
  | splice _ => true
  | _ => false

/-- A tab that is open is closed by the next one and by tabs that are spliced in. -/
def closesTab (a : Act) : Bool := a.opensTab || a.splices

end Act

/-- The outline after an operation; elements that are refused leave it as it is. -/
def act (o : Outline) : Act → Outline
  | .openSection id heading hasTitle => (o.openSection id heading hasTitle).1
  | .openTab id heading => (o.openTab id heading).1
  | .push elements => (o.push? elements).getD o
  | .splice tabs => o.splice tabs

/-- What operations gather from the start. -/
def gather (acts : List Act) : Outline := acts.foldl act ∅

/-- The last operation is done to what the others gather. -/
theorem gather_concat (acts : List Act) (a : Act) :
    gather (acts ++ [a]) = (gather acts).act a :=
  List.foldl_append

/-! ### What has happened -/

/-- Some operation does `p`, with those before it in view, and none behind it does `q`. -/
def Since (p : List Act → Act → Prop) (q : Act → Prop) (acts : List Act) : Prop :=
  ∃ before a after, acts = before ++ a :: after ∧ p before a ∧ ∀ b ∈ after, ¬ q b

section Since

variable {p : List Act → Act → Prop} {q : Act → Prop} {acts : List Act} {a : Act}

/-- Without operations nothing has happened. -/
theorem not_since_nil : ¬ Since p q [] := by
  rintro ⟨before, a, after, heq, -⟩
  exact absurd heq (by simp)

/-- The last operation does it, or it happened before and the last one does not undo it. -/
theorem since_concat : Since p q (acts ++ [a]) ↔ p acts a ∨ ¬ q a ∧ Since p q acts := by
  constructor
  · rintro ⟨before, b, after, heq, hp, hq⟩
    -- is `b` the last operation, or is there one behind it?
    rcases List.eq_nil_or_concat after with rfl | ⟨after, c, rfl⟩
    · obtain ⟨rfl, hab⟩ := List.append_inj' heq rfl
      obtain rfl : a = b := by simpa using hab
      exact .inl hp
    · have heq' : acts ++ [a] = (before ++ b :: after) ++ [c] := by simpa using heq
      obtain ⟨rfl, hac⟩ := List.append_inj' heq' rfl
      obtain rfl : a = c := by simpa using hac
      exact .inr ⟨hq a (by simp), before, b, after, rfl, hp, fun d hd => hq d (by simp [hd])⟩
  · rintro (hp | ⟨hqa, before, b, after, rfl, hp, hq⟩)
    · exact ⟨acts, a, [], rfl, hp, List.forall_mem_nil _⟩
    · refine ⟨before, b, after ++ [a], by simp, hp, fun c hc => ?_⟩
      rcases List.mem_append.1 hc with hc | hc
      · exact hq c hc
      · exact List.mem_singleton.1 hc ▸ hqa

/-- The first operation does it and no other one undoes it, or it happened behind the first one. -/
theorem since_cons : Since p q (a :: acts) ↔
    (p [] a ∧ ∀ b ∈ acts, ¬ q b) ∨ Since (fun before => p (a :: before)) q acts := by
  constructor
  · rintro ⟨_ | ⟨b, before⟩, c, after, heq, hp, hq⟩
    · obtain ⟨rfl, rfl⟩ := List.cons.inj heq
      exact .inl ⟨hp, hq⟩
    · obtain ⟨rfl, rfl⟩ := List.cons.inj heq
      exact .inr ⟨before, c, after, rfl, hp, hq⟩
  · rintro (⟨hp, hq⟩ | ⟨before, c, after, rfl, hp, hq⟩)
    · exact ⟨[], a, acts, rfl, hp, hq⟩
    · exact ⟨a :: before, c, after, rfl, hp, hq⟩

/-- It can be found out from the first operation to the last. -/
instance decidableSince (q : Act → Prop) [DecidablePred q] :
    (p : List Act → Act → Prop) → [∀ before a, Decidable (p before a)] → (acts : List Act) →
      Decidable (Since p q acts)
  | _, _, [] => .isFalse not_since_nil
  | p, _, a :: acts =>
      have := decidableSince q (fun before => p (a :: before)) acts
      decidable_of_iff _ since_cons.symm

end Since

/-- A section is open: one was opened, and since then no tab was opened and none were spliced in. -/
def SectionOpen (acts : List Act) : Prop :=
  Since (fun _ a => a.opensSection = true) (·.closesTab = true) acts

/-- A tab is open: it was opened itself or a section was, and since then none were spliced in. -/
def TabOpen (acts : List Act) : Prop :=
  Since (fun _ a => a.opensSection = true ∨ a.opensTab = true) (·.splices = true) acts

instance (acts : List Act) : Decidable (SectionOpen acts) :=
  inferInstanceAs (Decidable (Since _ _ acts))

instance (acts : List Act) : Decidable (TabOpen acts) :=
  inferInstanceAs (Decidable (Since _ _ acts))

/-- A section opens one, a tab and tabs that are spliced in close it, and elements do neither. -/
theorem sectionOpen_concat {acts : List Act} {a : Act} : SectionOpen (acts ++ [a]) ↔
    a.opensSection = true ∨ ¬ a.closesTab = true ∧ SectionOpen acts := since_concat

/-- A section and a tab open one, tabs that are spliced in close it, and elements do neither. -/
theorem tabOpen_concat {acts : List Act} {a : Act} : TabOpen (acts ++ [a]) ↔
    (a.opensSection = true ∨ a.opensTab = true) ∨ ¬ a.splices = true ∧ TabOpen acts := since_concat

/-! ### What operations bring -/

/-- What operations bring, each of them with those before it in view. -/
def broughtBehind {α : Type} (f : List Act → Act → List α) : List Act → List Act → List α
  | _, [] => []
  | before, a :: after => f before a ++ broughtBehind f (before ++ [a]) after

/-- What operations bring from the start. -/
def brought {α : Type} (f : List Act → Act → List α) (acts : List Act) : List α :=
  broughtBehind f [] acts

/-- The last operation brings what it brings behind all others. -/
theorem brought_concat {α : Type} (f : List Act → Act → List α) (acts : List Act) (a : Act) :
    brought f (acts ++ [a]) = brought f acts ++ f acts a := by
  have behind (before : List Act) : broughtBehind f before (acts ++ [a]) =
      broughtBehind f before acts ++ f (before ++ acts) a := by
    induction acts generalizing before with
    | nil => simp [broughtBehind]
    | cons b acts ih => simp [broughtBehind, ih]
  exact behind []

/-- The tabs that an operation brings, as they are opened. A section brings one if no tab is
open. -/
def Act.tabs (tabOpen : Bool) : Act → List Tab
  | openSection id _ _ => if tabOpen then [] else [⟨id, ⟨none, none⟩, []⟩]
  | openTab id heading => [⟨id, heading, []⟩]
  | splice tabs => tabs.map Tab.blank
  | push _ => []

/-- The tabs that operations bring. -/
def tabsOf (acts : List Act) : List Tab :=
  brought (fun before a => a.tabs (TabOpen before)) acts

/-- The tab at this position is open: it was opened itself, or for a section when none was open,
and since then no other tab was opened and none were spliced in. -/
def TabOpenAt (acts : List Act) (k : Nat) : Prop :=
  Since (fun before a => (a.opensTab = true ∨ a.opensSection = true ∧ ¬ TabOpen before) ∧
    (tabsOf before).length = k) (·.closesTab = true) acts

/-- The sections that an operation brings behind this many tabs, as they are opened, with the
positions of their tabs. A tab that is open is the last one. -/
def Act.sections (tabOpen : Bool) (tabs : Nat) : Act → List (Nat × Section)
  | openSection id heading hasTitle =>
      if tabOpen then [(tabs - 1, ⟨id, heading, hasTitle, []⟩)]
      else [(tabs, ⟨id + 1, heading, hasTitle, []⟩)]
  | splice spliced => positioned Tab.shelf tabs spliced
  | _ => []

/-- The sections that operations bring, with the positions of their tabs. -/
def sectionsOf (acts : List Act) : List (Nat × Section) :=
  brought (fun before a => a.sections (TabOpen before) (tabsOf before).length) acts

/-- The elements that an operation brings behind this many sections, with the positions of their
sections. A section that is open is the last one. -/
def Act.elements (sectionOpen : Bool) (sections : Nat) : Act → List (Nat × Element)
  | push elements => if sectionOpen then elements.map (sections - 1, ·) else []
  | splice spliced => positioned (·.elements) sections (spliced.flatMap (·.sections))
  | _ => []

/-- The elements that operations bring, with the positions of their sections. -/
def elementsOf (acts : List Act) : List (Nat × Element) :=
  brought (fun before a => a.elements (SectionOpen before) (sectionsOf before).length) acts

/-- The last operation brings tabs behind those of all others. -/
theorem tabsOf_concat (acts : List Act) (a : Act) :
    tabsOf (acts ++ [a]) = tabsOf acts ++ a.tabs (TabOpen acts) := brought_concat _ acts a

/-- The last operation brings sections behind those of all others. -/
theorem sectionsOf_concat (acts : List Act) (a : Act) : sectionsOf (acts ++ [a]) =
    sectionsOf acts ++ a.sections (TabOpen acts) (tabsOf acts).length := brought_concat _ acts a

/-- The tab that is open is the last that has been brought. -/
theorem tabOpenAt_iff {acts : List Act} {k : Nat} :
    TabOpenAt acts k ↔ TabOpen acts ∧ k + 1 = (tabsOf acts).length := by
  -- on the operations, from the last one back
  induction acts using List.reverseRecOn with
  | nil => exact iff_of_false not_since_nil fun h => not_since_nil h.1
  | append_singleton acts a ih =>
      have hat : TabOpenAt (acts ++ [a]) k ↔
          ((a.opensTab = true ∨ a.opensSection = true ∧ ¬ TabOpen acts) ∧
            (tabsOf acts).length = k) ∨ ¬ a.closesTab = true ∧ TabOpenAt acts k := since_concat
      rw [hat, tabOpen_concat, ih, tabsOf_concat, List.length_append]
      cases a with
      | openSection id heading hasTitle =>
          -- the section goes to the open tab, or brings one that comes last
          by_cases htab : TabOpen acts <;>
            simp [Act.opensSection, Act.opensTab, Act.splices, Act.closesTab, Act.tabs, htab]
          omega
      | openTab id heading =>
          simp [Act.opensTab, Act.closesTab, Act.tabs]
          omega
      | push elements =>
          simp [Act.opensSection, Act.opensTab, Act.splices, Act.closesTab, Act.tabs]
      | splice tabs =>
          simp [Act.opensSection, Act.opensTab, Act.splices, Act.closesTab]

/-- A section goes to the tab that is open when it has been opened. -/
theorem sectionsOf_openSection {acts : List Act} {id : Nat} {heading : Heading} {hasTitle : Bool}
    {k : Nat} (h : TabOpenAt (acts ++ [.openSection id heading hasTitle]) k) :
    sectionsOf (acts ++ [.openSection id heading hasTitle]) = sectionsOf acts ++
      [(k, ⟨if TabOpen acts then id else id + 1, heading, hasTitle, []⟩)] := by
  obtain ⟨-, hlast⟩ := tabOpenAt_iff.1 h
  rw [tabsOf_concat, List.length_append] at hlast
  rw [sectionsOf_concat]
  by_cases htab : TabOpen acts
  · simp only [Act.tabs, Act.sections, htab, decide_true, if_true, List.length_nil,
      Nat.add_zero] at hlast ⊢
    rw [← hlast, Nat.add_sub_cancel]
  · simp only [Act.tabs, Act.sections, htab, decide_false, if_false, Bool.false_eq_true,
      List.length_singleton] at hlast ⊢
    rw [Nat.add_right_cancel hlast]

/-! ### What is open -/

/-- The section that is open. -/
def section? (o : Outline) : Option Section := o.current.bind (·.current)

/-- Elements are refused just if no section is open. -/
theorem push?_eq_none {o : Outline} {elements : List Element} :
    o.push? elements = none ↔ o.section? = none := by
  obtain ⟨closed, _ | ⟨tab, _ | s⟩⟩ := o <;> simp [push?, section?]

/-- What an operation does to the section that is open does not depend on what has been gathered. -/
theorem section?_act (o : Outline) (a : Act) :
    (o.act a).section?.isSome ↔
      a.opensSection = true ∨ ¬ a.closesTab = true ∧ o.section?.isSome := by
  cases a with
  | openSection id heading hasTitle =>
      obtain ⟨closed, _ | t⟩ := o <;> simp [act, openSection, section?, Act.opensSection]
  | openTab id heading =>
      simp [act, openTab, section?, Act.opensSection, Act.closesTab, Act.opensTab]
  | push elements =>
      obtain ⟨closed, _ | ⟨tab, _ | s⟩⟩ := o <;>
        simp [act, push?, section?, Act.opensSection, Act.closesTab, Act.opensTab, Act.splices]
  | splice tabs =>
      simp [act, splice, section?, Act.opensSection, Act.closesTab, Act.opensTab, Act.splices]

/-- What an operation does to the tab that is open does not depend on what has been gathered. -/
theorem current_act (o : Outline) (a : Act) :
    (o.act a).current.isSome ↔
      (a.opensSection = true ∨ a.opensTab = true) ∨ ¬ a.splices = true ∧ o.current.isSome := by
  cases a with
  | openSection id heading hasTitle =>
      obtain ⟨closed, _ | t⟩ := o <;> simp [act, openSection, Act.opensSection]
  | openTab id heading => simp [act, openTab, Act.opensTab]
  | push elements =>
      obtain ⟨closed, _ | ⟨tab, _ | s⟩⟩ := o <;>
        simp [act, push?, Act.opensSection, Act.opensTab, Act.splices]
  | splice tabs => simp [act, splice, Act.opensSection, Act.opensTab, Act.splices]

/-- The outline has an open section just if the operations leave one open. -/
theorem sectionOpen_gather (acts : List Act) :
    (gather acts).section?.isSome ↔ SectionOpen acts := by
  induction acts using List.reverseRecOn with
  | nil => exact iff_of_false Bool.false_ne_true not_since_nil
  | append_singleton acts a ih =>
      rw [gather_concat, section?_act, ih, sectionOpen_concat]

/-- The outline has an open tab just if the operations leave one open. -/
theorem tabOpen_gather (acts : List Act) : (gather acts).current.isSome ↔ TabOpen acts := by
  induction acts using List.reverseRecOn with
  | nil => exact iff_of_false Bool.false_ne_true not_since_nil
  | append_singleton acts a ih =>
      rw [gather_concat, current_act, ih, tabOpen_concat]

theorem isSome_section?_gather (acts : List Act) :
    (gather acts).section?.isSome = decide (SectionOpen acts) :=
  Bool.eq_iff_iff.2 ((sectionOpen_gather acts).trans decide_eq_true_iff.symm)

theorem isSome_current_gather (acts : List Act) :
    (gather acts).current.isSome = decide (TabOpen acts) :=
  Bool.eq_iff_iff.2 ((tabOpen_gather acts).trans decide_eq_true_iff.symm)

/-! ### What an operation appends -/

@[simp] theorem finish_none (closed : List Tab) : finish ⟨closed, none⟩ = closed := rfl

@[simp] theorem finish_some (closed : List Tab) (t : OpenTab) :
    finish ⟨closed, some t⟩ = closed ++ [t.close] := rfl

@[simp] theorem finish_act_openTab (o : Outline) (id : Nat) (heading : Heading) :
    (o.act (.openTab id heading)).finish = o.finish ++ [⟨id, heading, []⟩] := rfl

@[simp] theorem finish_act_splice (o : Outline) (tabs : List Tab) :
    (o.act (.splice tabs)).finish = o.finish ++ tabs := rfl

/-- Elements that an operation brings into the outline: those of a `push` that is not refused, and
those of tabs that are spliced in. -/
def taken (o : Outline) : Act → List Element
  | .push elements => if (o.push? elements).isSome then elements else []
  | .splice tabs => tabsElements tabs
  | _ => []

/-- An operation loses no elements, and adds none but those that it brings into the outline. -/
theorem taken_act (o : Outline) (a : Act) :
    tabsElements (o.act a).finish = tabsElements o.finish ++ o.taken a := by
  cases a with
  | openSection id heading hasTitle =>
      obtain ⟨closed, _ | t⟩ := o <;>
        simp [act, openSection, OpenTab.close, tabsElements, taken]
  | openTab id heading => simp [tabsElements, taken]
  | push elements =>
      obtain ⟨closed, _ | ⟨tab, _ | s⟩⟩ := o <;>
        simp [act, push?, OpenTab.close, tabsElements, taken]
  | splice tabs => simp [tabsElements, taken]

/-- A tab is appended if the operation opens it, splices it in, or finds none open for a section. -/
theorem tabs_act (o : Outline) (a : Act) :
    (o.act a).finish.map Tab.blank = o.finish.map Tab.blank ++ a.tabs o.current.isSome := by
  cases a with
  | openSection id heading hasTitle =>
      obtain ⟨closed, _ | t⟩ := o <;> simp [act, openSection, OpenTab.close, Act.tabs, Tab.blank]
  | openTab id heading => simp [Act.tabs, Tab.blank]
  | push elements =>
      obtain ⟨closed, _ | ⟨tab, _ | s⟩⟩ := o <;>
        simp [act, push?, OpenTab.close, Act.tabs, Tab.blank]
  | splice tabs => simp [Act.tabs]

/-- A section that is opened stands in the last tab there is. -/
theorem sections_act (o : Outline) (a : Act) :
    positioned Tab.shelf 0 (o.act a).finish =
      positioned Tab.shelf 0 o.finish ++ a.sections o.current.isSome o.finish.length := by
  cases a with
  | openSection id heading hasTitle =>
      obtain ⟨closed, _ | t⟩ := o <;>
        simp [act, openSection, OpenTab.close, Act.sections, positioned_append, positioned,
          Tab.shelf, Section.blank]
  | openTab id heading => simp [Act.sections, positioned_append, positioned, Tab.shelf]
  | push elements =>
      obtain ⟨closed, _ | ⟨tab, _ | s⟩⟩ := o <;>
        simp [act, push?, OpenTab.close, Act.sections, positioned_append, positioned, Tab.shelf,
          Section.blank]
  | splice tabs => simp [Act.sections, positioned_append]

/-- Elements that are pushed stand in the last section there is. -/
theorem elements_act (o : Outline) (a : Act) :
    positioned (·.elements) 0 ((o.act a).finish.flatMap (·.sections)) =
      positioned (·.elements) 0 (o.finish.flatMap (·.sections)) ++
        a.elements o.section?.isSome (o.finish.flatMap (·.sections)).length := by
  cases a with
  | openSection id heading hasTitle =>
      obtain ⟨closed, _ | t⟩ := o <;>
        simp [act, openSection, OpenTab.close, Act.elements, positioned_append, positioned]
  | openTab id heading => simp [Act.elements]
  | push elements =>
      obtain ⟨closed, _ | ⟨tab, _ | s⟩⟩ := o <;>
        simp [act, push?, section?, OpenTab.close, Act.elements, positioned_append, positioned]
  | splice tabs => simp [Act.elements, positioned_append]

/-! ### What comes out -/

/-- What is seen of an outline comes from the operations, if each of them appends what it brings. -/
theorem eq_brought {α : Type} (seen : Outline → List α) {f : List Act → Act → List α}
    (hnil : seen ∅ = [])
    (hact : ∀ acts a, seen ((gather acts).act a) = seen (gather acts) ++ f acts a)
    (acts : List Act) : seen (gather acts) = brought f acts := by
  induction acts using List.reverseRecOn with
  -- each operation appends what it brings behind those before it
  | nil => exact hnil
  | append_singleton acts a ih => rw [gather_concat, hact, ih, brought_concat]

/-- The tabs are those that the operations bring. -/
theorem finish_tabs (acts : List Act) : (gather acts).finish.map Tab.blank = tabsOf acts := by
  refine eq_brought (fun o => o.finish.map Tab.blank) rfl (fun acts a => ?_) acts
  rw [tabs_act, isSome_current_gather]

/-- The sections are those that the operations bring, each in its tab. -/
theorem finish_sections (acts : List Act) :
    positioned Tab.shelf 0 (gather acts).finish = sectionsOf acts := by
  refine eq_brought (fun o => positioned Tab.shelf 0 o.finish) rfl (fun acts a => ?_) acts
  have htabs := congrArg List.length (finish_tabs acts)
  rw [List.length_map] at htabs
  rw [sections_act, isSome_current_gather, htabs]

/-- The elements are those that the operations bring, each in its section. -/
theorem finish_elements (acts : List Act) :
    positioned (·.elements) 0 ((gather acts).finish.flatMap (·.sections)) = elementsOf acts := by
  refine eq_brought (fun o => positioned _ 0 (o.finish.flatMap (·.sections))) rfl
    (fun acts a => ?_) acts
  -- as many sections stand in the tabs as have been brought
  have hsections := congrArg List.length (finish_sections acts)
  rw [length_positioned] at hsections
  have hshelves : ((gather acts).finish.flatMap Tab.shelf).length =
      ((gather acts).finish.flatMap (·.sections)).length := by
    simp [List.length_flatMap, Tab.shelf]
  rw [elements_act, isSome_section?_gather, ← hshelves, hsections]

/-- After any operations a tab stands there for each that was opened or spliced in and for each
section that found no tab open, and no other; the sections are those that were opened or spliced in,
in order, each in the tab that was open then; the elements are those that were pushed into a section
or spliced in, in order, each in the section it was given to; and elements are refused, which
changes nothing, just if no section was opened since the last tab or splice. What is open is told by
the operations, and the outline agrees. -/
theorem finish_gather (acts : List Act) :
    (gather acts).finish.map Tab.blank = tabsOf acts ∧
      positioned Tab.shelf 0 (gather acts).finish = sectionsOf acts ∧
      positioned (·.elements) 0 ((gather acts).finish.flatMap (·.sections)) = elementsOf acts ∧
      tabsElements (gather acts).finish = brought (fun before => taken (gather before)) acts ∧
      ((gather acts).current.isSome ↔ TabOpen acts) ∧
      (∀ k, TabOpenAt acts k ↔ TabOpen acts ∧ k + 1 = (tabsOf acts).length) ∧
      (∀ id heading hasTitle k, TabOpenAt (acts ++ [.openSection id heading hasTitle]) k →
        sectionsOf (acts ++ [.openSection id heading hasTitle]) = sectionsOf acts ++
          [(k, ⟨if TabOpen acts then id else id + 1, heading, hasTitle, []⟩)]) ∧
      ∀ elements,
        ((gather acts).push? elements = none ↔ ¬ SectionOpen acts) ∧
        ((gather acts).push? elements = none →
          gather (acts ++ [.push elements]) = gather acts) := by
  refine ⟨finish_tabs acts, finish_sections acts, finish_elements acts, ?_, tabOpen_gather acts,
    fun k => tabOpenAt_iff, fun id heading hasTitle k => sectionsOf_openSection,
    fun elements => ⟨?_, fun hnone => ?_⟩⟩
  · exact eq_brought (fun o => tabsElements o.finish) rfl (fun acts a => taken_act _ a) acts
  · rw [push?_eq_none, ← sectionOpen_gather, Option.not_isSome_iff_eq_none]
  · rw [gather_concat, act, hnone, Option.getD_none]

/-- A section in a tab, then tabs that are spliced in, and a section in a tab of its own. -/
def splicedActs : List Act :=
  [.openTab 0 ⟨some ['t'], none⟩, .openSection 1 ⟨none, none⟩ true, .push [⟨['b'], ∅, [], []⟩],
    .splice [⟨2, ⟨none, none⟩, []⟩], .openSection 3 ⟨none, none⟩ true, .splice []]

/-- The first section stands in the tab that was opened, the second one in the third tab, and behind
tabs that are spliced in no section is open. -/
theorem finish_gather_splicedActs :
    (tabsOf splicedActs).map (·.id) = [0, 2, 3] ∧
      (gather splicedActs).finish.map (fun t => (t.id, t.sections.map (·.id))) =
        [(0, [1]), (2, []), (3, [4])] ∧
      TabOpenAt (splicedActs.take 2) 0 ∧
      (sectionsOf (splicedActs.take 2)).map (fun s => (s.1, s.2.id)) = [(0, 1)] ∧
      (gather splicedActs).push? [⟨['i'], ∅, [], []⟩] = none ∧
      gather (splicedActs ++ [.push [⟨['i'], ∅, [], []⟩]]) = gather splicedActs := by
  obtain ⟨-, -, -, -, -, hlast, -⟩ := finish_gather (splicedActs.take 2)
  obtain ⟨-, -, -, -, -, -, hsection, -⟩ := finish_gather (splicedActs.take 1)
  obtain ⟨-, -, -, -, -, -, -, hpush⟩ := finish_gather splicedActs
  have hopen : TabOpenAt (splicedActs.take 2) 0 := (hlast 0).2 (by decide)
  have hshelf := hsection 1 ⟨none, none⟩ true 0 hopen
  obtain ⟨hrefused, hsame⟩ := hpush [⟨['i'], ∅, [], []⟩]
  have hnone := hrefused.2 (by decide)
  exact ⟨by decide, rfl, hopen, congrArg (List.map fun s => (s.1, s.2.id)) hshelf, hnone,
    hsame hnone⟩

end Outline

end IndentMarkup
