import IndentMarkup.Proofs.Parts

/-!
The number of spaces in the prologue.

A directive sets the number of spaces, once, and nothing else reads or changes it. So a run
at whose end it is not set goes the same way when it has been set before: it gives the same
value, and the context differs in that number alone.

* `readDirective_withSpaces` — what holds of one directive.
* `congruence_leavesUnset` — what holds of all readers.
-/

namespace IndentMarkup

namespace Context

/-- The context with a number of spaces in its prologue, its lines indented as before. -/
def withSpaces (n : Nat) (c : Context) : Context :=
  { c with metadata := { c.metadata with spaces := some n } }

/-- A directive that leaves the number of spaces unset does not depend on it. -/
theorem readDirective_withSpaces {c after : Context} {l : Line}
    (h : c.readDirective l = .ok after) (hunset : after.metadata.spaces = none) (n : Nat) :
    c.metadata.spaces = none ∧ (c.withSpaces n).readDirective l = .ok (after.withSpaces n) := by
  obtain ⟨hearly, d, metadata, hname, hset, rfl⟩ := readDirective_eq_ok.1 h
  rcases Metadata.spaces_of_set hset with ⟨hd, hspaces⟩ | ⟨-, -, hsome⟩
  · have hset' := Metadata.set_of_ne_spaces hd c.metadata (directiveParts l).2 (some n)
    rw [hset] at hset'
    refine ⟨hspaces.symm.trans hunset, readDirective_eq_ok.2 ⟨hearly, d, _, hname, hset', ?_⟩⟩
    rw [if_neg hd, if_neg hd]
    rfl
  · have hnone : metadata.spaces = none := hunset
    rw [hnone] at hsome
    cases hsome

end Context

/-- A run that leaves the number of spaces unset goes the same way when it is set before. -/
def LeavesUnset (n : Nat) (α : Type) (x : CompileM α) : Prop :=
  ∀ c a after, x c = .ok a after → after.metadata.spaces = none →
    c.metadata.spaces = none ∧ x (c.withSpaces n) = .ok a (after.withSpaces n)

namespace LeavesUnset

variable {n : Nat}

theorem bind {α β : Type} {x : CompileM α} {f : α → CompileM β} (hx : LeavesUnset n α x)
    (hf : ∀ a, LeavesUnset n β (f a)) : LeavesUnset n β (x >>= f) := by
  intro c b after h hunset
  rw [CompileM.bind_run] at h
  cases hrun : x c with
  | error s middle =>
      rw [hrun] at h
      cases h
  | ok a middle =>
      rw [hrun] at h
      obtain ⟨hmiddle, hthen⟩ := hf a middle b after h hunset
      obtain ⟨hbefore, hfirst⟩ := hx c a middle hrun hmiddle
      exact ⟨hbefore, (CompileM.bind_run_ok hfirst f).trans hthen⟩

/-- A change that leaves the number of spaces unset does not depend on it. -/
theorem change {f : Context → Except Cause Context}
    (hf : ∀ c after, f c = .ok after → after.metadata.spaces = none →
      c.metadata.spaces = none ∧ f (c.withSpaces n) = .ok (after.withSpaces n)) (line : Nat) :
    LeavesUnset n Unit (CompileM.change line f) := by
  intro c a after h hunset
  unfold CompileM.change at h ⊢
  cases hc : f c with
  | error cause =>
      rw [hc] at h
      cases h
  | ok c' =>
      rw [hc] at h
      cases h
      obtain ⟨hbefore, hafter⟩ := hf c after hc hunset
      rw [hafter]
      exact ⟨hbefore, rfl⟩

theorem look {α : Type} {f : Context → CompileM α}
    (hf : ∀ c metadata nextId hasStructure,
      f { c with metadata, nextId, hasStructure } = f c)
    (hx : ∀ c, LeavesUnset n α (f c)) : LeavesUnset n α (get >>= f) := by
  intro c a after h hunset
  obtain ⟨hbefore, hafter⟩ := hx c c a after h hunset
  have hsame : f (c.withSpaces n) = f c := hf c _ c.nextId c.hasStructure
  refine ⟨hbefore, ?_⟩
  rw [CompileM.get_bind_run, hsame]
  exact hafter

theorem failAt {α : Type} (cause : Cause) (line : Nat) (column : Option Nat) :
    LeavesUnset n α (CompileM.failAt cause line column) := by
  intro c a after h
  cases h

theorem whileOpen {α : Type} {x : CompileM α} (hx : LeavesUnset n α x) (file : Location) :
    LeavesUnset n α (Document.whileOpen file x) := by
  intro c a after h hunset
  unfold Document.whileOpen at h ⊢
  split at h
  · next b inside hrun =>
      cases h
      obtain ⟨hbefore, hinside⟩ := hx (c.openFile file) a inside hrun hunset
      have hsame : (c.withSpaces n).openFile file = (c.openFile file).withSpaces n := rfl
      rw [hsame, hinside]
      exact ⟨hbefore, rfl⟩
  · cases h

theorem expandWith {e : Expander}
    (he : ∀ ls, LeavesUnset n (List Element) (Block.readFragment e ls)) (name : Text)
    (values : List Text) (line : Nat) :
    LeavesUnset n (List Element) (expandWith e name values line) := by
  intro c es after h hunset
  have hsame : (c.withSpaces n).bodyOfCall name values = c.bodyOfCall name values := rfl
  unfold IndentMarkup.expandWith at h ⊢
  rw [hsame]
  cases hbody : c.bodyOfCall name values with
  | error cause =>
      rw [hbody] at h
      cases h
  | ok source =>
      rw [hbody] at h
      dsimp only at h ⊢
      cases hread : Block.readFragment e (SourceLine.ofSource source) (c.enter name) with
      | error s inside =>
          rw [hread] at h
          cases h
      | ok es' inside =>
          rw [hread] at h
          cases h
          obtain ⟨hbefore, hinside⟩ := he _ _ es inside hread hunset
          have henter : (c.withSpaces n).enter name = (c.enter name).withSpaces n := rfl
          rw [henter, hinside]
          exact ⟨hbefore, rfl⟩

end LeavesUnset

/-- All readers of sources go the same way when the number of spaces is set before, if they
leave it unset. -/
theorem congruence_leavesUnset (loader : Loader) (n : Nat) :
    Congruence loader fun α x _ => LeavesUnset n α x where
  pure a := by
    rintro c _ after h hunset
    cases h
    exact ⟨hunset, rfl⟩
  bind := LeavesUnset.bind
  look := LeavesUnset.look
  failAt := LeavesUnset.failAt
  exhausted := by
    intro α c a after h
    cases h
  directive line l :=
    LeavesUnset.change (fun _ _ h hunset => Context.readDirective_withSpaces h hunset n) line
  addClass line name declarations := by
    refine LeavesUnset.change (fun c after h hunset => ?_) line
    obtain ⟨m, hm, rfl⟩ := Context.addClass_ok h
    obtain ⟨hfree, rfl⟩ := Metadata.addClass_ok hm
    refine ⟨hunset, ?_⟩
    simp [Context.addClass, Metadata.addClass, Context.withSpaces, hfree]
  define line name parameters body := by
    refine LeavesUnset.change (fun c after h hunset => ?_) line
    obtain ⟨m, hm, hfree, rfl⟩ := Context.defineBody_ok h
    refine ⟨hunset, ?_⟩
    simp [Context.defineBody, Context.define, Context.withSpaces, hm, hfree]
  undefine line name := by
    refine LeavesUnset.change (fun c after h hunset => ?_) line
    obtain ⟨htaken, rfl⟩ := Context.undefine_ok h
    exact ⟨hunset, if_pos htaken⟩
  openSection o heading hasTitle := by
    intro c a after h hunset
    cases h
    exact ⟨hunset, rfl⟩
  openTab o heading := by
    intro c a after h hunset
    cases h
    exact ⟨hunset, rfl⟩
  openAnew {α x y file text} line _ hx := by
    refine LeavesUnset.look (fun _ _ _ _ => rfl) fun c => ?_
    split
    · exact .failAt _ _ _
    · exact hx.whileOpen file
  expandWith name values line hread := LeavesUnset.expandWith hread name values line

end IndentMarkup
