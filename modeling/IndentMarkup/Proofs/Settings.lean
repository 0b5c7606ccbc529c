import IndentMarkup.Proofs.Moments

/-!
The prologue of a compile.

Only a directive changes the prologue. It needs a context in which nothing is open yet, sets
one value that was not set, and a directive that fails changes nothing. So along a compile,
wherever its files and templates lead, each value is set at most once, and all of them are
settled as soon as a section or a tab is opened.

* `Metadata.setting?` — the value that a directive has set.
* `SetsBy` — one context follows upon another by a directive.
* `samePrologue_of_steps`, `setting_of_steps` — what the steps of a compile leave as it is.
* `prologue_discipline` — values of the prologue are set once, each by its directive, and none
  when a section or a tab has been opened.
-/

namespace IndentMarkup

/-! ### Values of the prologue -/

/-- A value that a directive can set. -/
inductive Setting where
  | text (t : Text)
  | theme (t : Theme)
  | number (n : Nat)
  /-- The directive takes no value. -/
  | flag
  deriving DecidableEq, Repr

namespace Metadata

/-- What a directive has set, if it has been given. -/
def setting? (m : Metadata) : Directive → Option Setting
  | .title => m.title.map .text
  | .theme => m.theme.map .theme
  | .topText => m.topText.map .text
  | .hideCredit => if m.hideCredit then some .flag else none
  | .spaces => m.spaces.map .number
  | .font => m.font.map .text
  | .favicon => m.favicon.map .text
  | .initialHash => m.initialHash.map .text

theorem newText_ok {d : Directive} {old : Option Text} {value v : Text}
    (h : newText d old value = .ok v) : old = none ∧ v = value := by
  unfold newText at h
  split at h
  · cases h
  · split at h
    · cases h
    · next hfree =>
        cases h
        exact ⟨by simpa using hfree, rfl⟩

theorem map_newText_ok {d : Directive} {old : Option Text} {value : Text} {f : Text → Metadata}
    {after : Metadata} (h : (newText d old value).map f = .ok after) :
    old = none ∧ after = f value := by
  cases hnew : newText d old value with
  | error e =>
      rw [hnew] at h
      cases h
  | ok v =>
      rw [hnew] at h
      cases h
      obtain ⟨hfree, rfl⟩ := newText_ok hnew
      exact ⟨hfree, rfl⟩

/-- A directive sets its value, which was not set, and no other one. -/
theorem setting_of_set {m after : Metadata} {d : Directive} {value : Text}
    (h : m.set d value = .ok after) :
    m.setting? d = none ∧ (after.setting? d).isSome = true ∧
      ∀ d', d' ≠ d → after.setting? d' = m.setting? d' := by
  -- the other fields of `after` are those of `m` by definition
  cases d
  case theme | hideCredit | spaces =>
    simp only [set] at h
    split at h
    · cases h
    · split at h
      · cases h
      · next hfree =>
          cases h
          refine ⟨by simpa [setting?] using hfree, rfl, fun d' hd' => ?_⟩
          cases d' <;> first | rfl | exact absurd rfl hd'
  all_goals
    obtain ⟨hfree, rfl⟩ := map_newText_ok h
    refine ⟨congrArg (Option.map Setting.text) hfree, rfl, fun d' hd' => ?_⟩
    cases d' <;> first | rfl | exact absurd rfl hd'

end Metadata

open Context

/-! ### The prologue -/

/-- The contexts have the same values in the prologue and the same unit of indentation. -/
structure SamePrologue (c d : Context) : Prop where
  setting : ∀ k, d.metadata.setting? k = c.metadata.setting? k
  indentation : d.indentation = c.indentation

/-- The context `d` follows upon a line of `c` with the directive `k`: nothing is open yet, the
value of `k` was not set and now is, and everything else in the prologue is as it was. -/
structure SetsBy (k : Directive) (c d : Context) : Prop where
  line : ∃ l, Directive.ofName? (directiveParts l).1 = some k ∧ c.readDirective l = .ok d
  early : c.hasStructure = false
  unset : c.metadata.setting? k = none
  set : (d.metadata.setting? k).isSome = true
  others : ∀ k', k' ≠ k → d.metadata.setting? k' = c.metadata.setting? k'
  indentation : k ≠ .spaces → d.indentation = c.indentation

theorem setsBy_of_readDirective {c d : Context} {l : Line} (h : c.readDirective l = .ok d) :
    ∃ k, SetsBy k c d := by
  obtain ⟨hearly, k, metadata, hname, hset, hd⟩ := readDirective_eq_ok.1 h
  obtain ⟨hunset, hsome, hothers⟩ := Metadata.setting_of_set hset
  refine ⟨k, ⟨l, hname, h⟩, hearly, hunset, ?_, ?_, fun hk => ?_⟩
  all_goals subst hd
  · exact hsome
  · exact hothers
  · exact if_neg hk

/-- A step changes nothing in the prologue, or it is a directive that sets one value. -/
theorem samePrologue_or_setsBy {loader : Loader} {c d : Context} (h : Step loader c d) :
    SamePrologue c d ∨ ∃ k, SetsBy k c d := by
  cases h with
  | directive l h => exact .inr (setsBy_of_readDirective h)
  | addClass _ _ h =>
      obtain ⟨metadata, hadd, rfl⟩ := addClass_ok h
      obtain ⟨-, rfl⟩ := Metadata.addClass_ok hadd
      exact .inl ⟨fun k => by cases k <;> rfl, rfl⟩
  | define _ _ _ h =>
      obtain ⟨m, -, -, rfl⟩ := defineBody_ok h
      exact .inl ⟨fun _ => rfl, rfl⟩
  | undefine _ h =>
      obtain ⟨-, rfl⟩ := undefine_ok h
      exact .inl ⟨fun _ => rfl, rfl⟩
  | _ => exact .inl ⟨fun _ => rfl, rfl⟩

theorem hasStructure_of_step {loader : Loader} {c d : Context} (h : Step loader c d)
    (hc : c.hasStructure = true) : d.hasStructure = true := by
  cases h with
  | directive l h =>
      rw [(readDirective_ok h).1] at hc
      cases hc
  | addClass _ _ h =>
      obtain ⟨metadata, -, rfl⟩ := addClass_ok h
      exact hc
  | define _ _ _ h =>
      obtain ⟨m, -, -, rfl⟩ := defineBody_ok h
      exact hc
  | undefine _ h =>
      obtain ⟨-, rfl⟩ := undefine_ok h
      exact hc
  | opened => rfl
  | _ => exact hc

/-- When a section or a tab has been opened, the prologue stays as it is. -/
theorem samePrologue_of_steps {loader : Loader} {c d : Context} (h : Steps loader c d)
    (hc : c.hasStructure = true) : d.hasStructure = true ∧ SamePrologue c d := by
  induction h with
  | refl => exact ⟨hc, fun _ => rfl, rfl⟩
  | tail _ hstep ih =>
      obtain ⟨hopen, hsame⟩ := ih
      refine ⟨hasStructure_of_step hstep hopen, ?_⟩
      rcases samePrologue_or_setsBy hstep with hnext | ⟨k, hsets⟩
      · exact ⟨fun k => (hnext.setting k).trans (hsame.setting k),
          hnext.indentation.trans hsame.indentation⟩
      · rw [hsets.early] at hopen
        cases hopen

/-- A value that is set stays as it is, and with the number of spaces the unit of indentation. -/
theorem setting_of_steps {loader : Loader} {c d : Context} (h : Steps loader c d)
    {k : Directive} {v : Setting} (hv : c.metadata.setting? k = some v) :
    d.metadata.setting? k = some v ∧ (k = .spaces → d.indentation = c.indentation) := by
  induction h with
  | refl => exact ⟨hv, fun _ => rfl⟩
  | tail _ hstep ih =>
      obtain ⟨hset, hunit⟩ := ih
      rcases samePrologue_or_setsBy hstep with hnext | ⟨k', hsets⟩
      · exact ⟨(hnext.setting k).trans hset, fun hk => hnext.indentation.trans (hunit hk)⟩
      · have hk : k ≠ k' := by
          rintro rfl
          rw [hsets.unset] at hset
          cases hset
        refine ⟨(hsets.others k hk).trans hset, fun hspaces => ?_⟩
        exact (hsets.indentation (hspaces ▸ hk.symm)).trans (hunit hspaces)

/-! ### Directives that fail -/

/-- If the action fails, its context is as it was. -/
def Undone {α : Type} (x : CompileM α) : Prop := ∀ c s d, x c = .error s d → d = c

theorem undone_change (n : Nat) (f : Context → Except Cause Context) :
    Undone (CompileM.change n f) := by
  intro c s d h
  unfold CompileM.change at h
  split at h <;> cases h
  rfl

theorem undone_failAt {α : Type} (cause : Cause) (n : Nat) (column : Option Nat) :
    Undone (CompileM.failAt cause n column : CompileM α) := by
  intro c s d h
  cases h
  rfl

/-- What follows an action cannot fail. -/
theorem Undone.map {α β : Type} {x : CompileM α} (h : Undone x) (f : α → β) :
    Undone (do return f (← x)) := by
  intro c s d hrun
  rw [CompileM.bind_run] at hrun
  cases hx : x c with
  | ok a after =>
      rw [hx] at hrun
      cases hrun
  | error s' after =>
      rw [hx] at hrun
      cases hrun
      exact h c _ _ hx

/-- A directive within an element or a body fails without effect. -/
theorem undone_block_readLine {l : Line} (hl : l.kind = .directive) (e : Expander)
    (ls : List SourceLine) : Undone (Block.readLine e l ls) := by
  intro c s d h
  rw [Block.readLine, Block.readLineWith, hl] at h
  dsimp only at h
  rw [CompileM.get_bind_run] at h
  split at h
  · exact (undone_change _ _).map _ c s d h
  · exact undone_failAt _ _ _ c s d h

/-- A directive at the top level fails without effect. -/
theorem undone_document_readLine {l : Line} (hl : l.kind = .directive) (e : Expander)
    (x : Line → CompileM (List Tab)) (o : Outline) (ls : List SourceLine) :
    Undone (Document.readLine e x o l ls) := by
  rw [Document.readLine, hl]
  split
  · exact undone_failAt _ _ _
  · exact (undone_change _ _).map _

/-! ### Discipline -/

/-- A compile goes in steps, and all its moments are on its way. When a section or a tab has
been opened, no step changes the prologue. Before, each of its values is set at most once, by
its directive, and with the number of spaces the unit of indentation. A directive that fails
has no effect. -/
theorem prologue_discipline (loader : Loader) (depth : Nat) (base source : Text) (c : Context) :
    (∀ d, Document.Moment loader depth base source c d → Steps loader c d ∧
      Steps loader d ((Document.readAll loader (expander depth) base source).after c)) ∧
    (∀ o heading hasTitle, ((Document.openSection o heading hasTitle).after c).hasStructure) ∧
    (∀ o heading, ((Document.openTab o heading).after c).hasStructure) ∧
    (∀ d, c.hasStructure → Steps loader c d → d.hasStructure ∧ SamePrologue c d) ∧
    (∀ d k v, Steps loader c d → c.metadata.setting? k = some v →
      d.metadata.setting? k = some v ∧ (k = .spaces → d.indentation = c.indentation)) ∧
    (∀ d, Step loader c d → SamePrologue c d ∨ ∃ k, SetsBy k c d) ∧
    (∀ n l, Undone (CompileM.change n (·.readDirective l))) ∧
    (∀ n name value, Undone (CompileM.change n (·.applyDirective name value))) ∧
    ∀ l : Line, l.kind = .directive → ∀ (e : Expander) (ls : List SourceLine),
      Undone (Block.readLine e l ls) ∧ ∀ x o, Undone (Document.readLine e x o l ls) := by
  refine ⟨fun d => Document.steps_of_moment, fun _ _ _ => rfl, fun _ _ => rfl, ?_, ?_, ?_, ?_, ?_,
    ?_⟩
  · exact fun d hopen h => samePrologue_of_steps h hopen
  · exact fun d k v h hv => setting_of_steps h hv
  · exact fun d => samePrologue_or_setsBy
  · exact fun n l => undone_change n _
  · exact fun n name value => undone_change n _
  · exact fun l hl e ls => ⟨undone_block_readLine hl e ls,
      fun x o => undone_document_readLine hl e x o ls⟩

/-- A source with a title, and with a template whose directive comes too late. -/
def lateSource : Text := ":title a\n~+t\n\t:font f\n# s\n~t".toList

/-- Its first line. -/
def titleLine : Line := ⟨0, 0, 0, ":title a".toList⟩

/-- The context that its compile leaves. -/
def lateContext : Context :=
  (Document.readPiece (∅ : Library).loader 1 0 (.source ['.'] lateSource)).after .start

theorem prologue_discipline_late :
    Document.Moment (∅ : Library).loader 1 ['.'] lateSource .start lateContext ∧
      Steps (∅ : Library).loader .start lateContext ∧ lateContext.hasStructure ∧
      SamePrologue lateContext (lateContext.enter ['t']) ∧
      (lateContext.enter ['t']).metadata.setting? .title = some (.text ['a']) ∧
      (∃ titled, Context.start.readDirective titleLine = .ok titled ∧
        (SamePrologue .start titled ∨ ∃ k, SetsBy k .start titled)) ∧
      titleLine.kind = .directive ∧ Undone (Block.readLine (expander 1) titleLine []) := by
  have hopen : lateContext.hasStructure = true := by decide +kernel
  have htitle : lateContext.metadata.setting? .title = some (.text ['a']) := by decide +kernel
  have hname : ['t'] ∉ lateContext.expanding := by decide +kernel
  have hmoment : Document.Moment (∅ : Library).loader 1 ['.'] lateSource .start lateContext :=
    .ends .first
  have henter : Steps (∅ : Library).loader lateContext (lateContext.enter ['t']) :=
    .single (.enter hname)
  obtain ⟨hsteps, -, -, -, -, hstep, -, -, hfail⟩ :=
    prologue_discipline (∅ : Library).loader 1 ['.'] lateSource .start
  obtain ⟨-, -, -, hfrozen, hset, -⟩ :=
    prologue_discipline (∅ : Library).loader 1 ['.'] lateSource lateContext
  refine ⟨hmoment, (hsteps _ hmoment).1, hopen, (hfrozen _ hopen henter).2,
    (hset _ _ _ henter htitle).1, ⟨_, rfl, hstep _ (.directive titleLine rfl)⟩, by decide,
    (hfail titleLine (by decide) _ _).1⟩

end IndentMarkup
