import IndentMarkup.Proofs.Moments
import IndentMarkup.Proofs.Numbering

/-!
The coherence of the context.

One context goes through directives, definitions, expansions and included files, and through
all of their failures. What it says in one place agrees all the time with what it says in
another: the unit of indentation with the number of spaces, a template with the name under
which it is stored, and the next number with the numbers that have been handed out.

* `Context.Coherent` — what agrees.
* `Context.Trace` — what happens to a context in the course of time, and the numbers that are
  handed out meanwhile.
* `Coherent.trace` — coherence outlasts all that happens.
* `way_trace` — readers of sources go by traces, and readers of elements by traces without
  numbers.
* `context_coherent` — so contexts are coherent at all moments.
-/

namespace IndentMarkup

/-! ### Templates as they are stored -/

namespace Template

/-- Nothing stands twice if nothing is found that does. -/
theorem nodup_of_repeated? {before ps : List Text} (h : repeated? before ps = none)
    (hbefore : before.Nodup) : (before ++ ps).Nodup := by
  -- on the parameters that are left; those in front have been found to be different
  induction ps generalizing before with
  | nil => simpa using hbefore
  | cons p ps ih =>
      unfold repeated? at h
      split at h
      · cases h
      · next hnew =>
          have hnext : (before ++ [p]).Nodup := by
            rw [List.nodup_append]
            refine ⟨hbefore, by simp, fun a ha b hb => ?_⟩
            rintro rfl
            rw [List.mem_singleton.1 hb] at ha
            exact hnew (by simpa using ha)
          simpa using ih h hnext

/-- A text that starts with a closing sign does so before it is protected, too. -/
theorem head?_of_protectClosers {t : Text} (h : (protectClosers t).head? = some '>') :
    t.head? = some '>' := by
  induction t using protectClosers.induct with
  | case1 => exact h
  | case2 c => exact h
  | case3 c d u hmatch ih => simp [protectClosers, hmatch] at h
  | case4 c d u hne ih => simpa [protectClosers, hne] using h

/-- No closing sign is behind a backslash after it is protected. -/
theorem no_closer_protectClosers (t : Text) : ¬ ['\\', '>'] <:+: protectClosers t := by
  -- along the recursion of the protection: a pair is replaced, and what is left starts none
  induction t using protectClosers.induct with
  | case1 => simp [protectClosers]
  | case2 c => simp [protectClosers, List.infix_cons_iff]
  | case3 c d u hmatch ih =>
      simpa [protectClosers, hmatch, List.infix_cons_iff, List.cons_prefix_cons] using ih
  | case4 c d u hne ih =>
      simp only [protectClosers, hne, if_false, List.infix_cons_iff, not_or]
      refine ⟨fun hprefix => ?_, ih⟩
      obtain ⟨hc, v, hv⟩ := List.cons_prefix_cons.1 hprefix
      -- The closing sign would be the next character of the source already.
      have hd : (d :: u).head? = some '>' := head?_of_protectClosers (by simp [← hv])
      exact hne ⟨hc.symm, Option.some.inj hd⟩

/-- No parameter stands twice, and no reference is hidden behind a backslash. -/
structure Sound (m : Template) : Prop where
  parameters : m.parameters.Nodup
  content : ¬ ['\\', '>'] <:+: m.content

/-- A template that is made of a body has its own name and is sound. -/
theorem sound_of_ofBody {name body : Text} {parameters : List Text} {m : Template}
    (h : ofBody name parameters body = .ok m) : m.name = name ∧ m.Sound := by
  unfold ofBody at h
  split at h
  · cases h
  · next hnone =>
      cases h
      exact ⟨rfl, nodup_of_repeated? hnone .nil, no_closer_protectClosers body⟩

end Template

namespace Context

/-! ### What happens to a context -/

/-- What changes a context at once, except that it hands out a number. -/
inductive Change : Context → Context → Prop where
  | directive {c d : Context} {name value : Text} :
      c.applyDirective name value = .ok d → Change c d
  | addClass {c d : Context} {name declarations : Text} :
      c.addClass name declarations = .ok d → Change c d
  | define {c d : Context} {name body : Text} {parameters : List Text} :
      c.defineBody name parameters body = .ok d → Change c d
  | undefine {c d : Context} {name : Text} : c.undefine name = .ok d → Change c d
  /-- There are sections or tabs from now on. -/
  | structured (c : Context) : Change c { c with hasStructure := true }
  | openFile (c : Context) (file : Location) : Change c (c.openFile file)
  | closeFile (c : Context) : Change c c.closeFile
  | enter (c : Context) (name : Text) : Change c (c.enter name)
  | leave (c : Context) : Change c c.leave

/-- What happens to a context in the course of time, with the numbers that it hands out
meanwhile. -/
inductive Trace : Context → List Nat → Context → Prop where
  | refl (c : Context) : Trace c [] c
  | change {b c d : Context} {ids : List Nat} : Trace b ids c → Change c d → Trace b ids d
  | number {b c d : Context} {ids : List Nat} {id : Nat} : Trace b ids c →
      CompileM.freshId c = .ok id d → Trace b (ids ++ [id]) d

namespace Trace

variable {b c d : Context} {ids more : List Nat}

/-- One change is a trace without numbers. -/
theorem single (h : Change c d) : Trace c [] d :=
  .change (.refl c) h

/-- Traces can be put one behind the other, with their numbers. -/
theorem trans (h : Trace b ids c) (h' : Trace c more d) : Trace b (ids ++ more) d := by
  induction h' with
  | refl => simpa using h
  | change _ hchange ih => exact ih.change hchange
  | number _ hnumber ih => simpa using ih.number hnumber

/-- Numbers are handed out one by one. -/
theorem numbers (c : Context) (k : Nat) :
    Trace c (List.range' c.nextId k) { c with nextId := c.nextId + k } := by
  induction k with
  | zero => exact .refl c
  | succ k ih =>
      rw [List.range'_concat, Nat.one_mul]
      exact ih.number rfl

/-- No change takes sections and tabs back. -/
theorem hasStructure_of_change (h : Change c d) (hc : c.hasStructure = true) :
    d.hasStructure = true := by
  cases h with
  | directive h =>
      obtain ⟨k, metadata, -, -, rfl⟩ := applyDirective_eq_ok.1 h
      exact hc
  | addClass h =>
      obtain ⟨metadata, -, rfl⟩ := addClass_ok h
      exact hc
  | define h =>
      obtain ⟨m, -, -, rfl⟩ := defineBody_ok h
      exact hc
  | undefine h =>
      obtain ⟨-, rfl⟩ := undefine_ok h
      exact hc
  | structured => rfl
  | _ => exact hc

/-- That there are sections or tabs is never forgotten. -/
theorem hasStructure (h : Trace c ids d) (hc : c.hasStructure = true) :
    d.hasStructure = true := by
  induction h with
  | refl => exact hc
  | change _ hchange ih => exact hasStructure_of_change hchange ih
  | number _ hnumber ih =>
      cases hnumber
      exact ih

end Trace

/-! ### Coherence -/

/-- The parts of the context agree, and the numbers `ids` have been handed out. -/
structure Coherent (ids : List Nat) (c : Context) : Prop where
  /-- Lines are indented as the prologue says. -/
  unit : c.indentation = .ofWidth (c.metadata.spaces.getD 0)
  unit_ne : c.indentation ≠ .spaces 0
  /-- Templates are stored under their names. -/
  stored (key : Text) (m : Template) : c.template? key = some m → m.name = key ∧ m.Sound
  numbers : ids = List.range c.nextId

namespace Coherent

variable {b c d : Context} {ids more : List Nat}

/-- A context is coherent at the start. -/
theorem start : Coherent [] start where
  unit := rfl
  unit_ne := by simp [Context.start]
  stored key m h := by cases h
  numbers := rfl

/-- As many numbers have been handed out as the next one says. -/
theorem nextId (h : Coherent ids c) : c.nextId = ids.length := by
  rw [h.numbers, List.length_range]

/-- A unit of indentation is never empty. -/
theorem ofWidth_ne (n : Nat) : Indentation.ofWidth n ≠ .spaces 0 := by
  unfold Indentation.ofWidth
  split
  · simp
  · next hn => simpa using hn

/-- A directive sets the unit with the number of spaces, or neither. -/
theorem directive {name value : Text} (hc : c.Coherent ids)
    (h : c.applyDirective name value = .ok d) : d.Coherent ids := by
  obtain ⟨k, metadata, -, hset, rfl⟩ := applyDirective_eq_ok.1 h
  rcases Metadata.spaces_of_set hset with ⟨hk, hspaces⟩ | ⟨hk, -⟩
  · simp only [if_neg hk]
    exact ⟨hc.unit.trans (by rw [hspaces]), hc.unit_ne, hc.stored, hc.numbers⟩
  · simp only [if_pos hk]
    exact ⟨rfl, ofWidth_ne _, hc.stored, hc.numbers⟩

/-- Custom classes are not looked at. -/
theorem addClass {name declarations : Text} (hc : c.Coherent ids)
    (h : c.addClass name declarations = .ok d) : d.Coherent ids := by
  obtain ⟨metadata, hadd, rfl⟩ := addClass_ok h
  obtain ⟨-, rfl⟩ := Metadata.addClass_ok hadd
  exact ⟨hc.unit, hc.unit_ne, hc.stored, hc.numbers⟩

/-- A template is stored under its name, and the others stay. -/
theorem define {name body : Text} {parameters : List Text} (hc : c.Coherent ids)
    (h : c.defineBody name parameters body = .ok d) : d.Coherent ids := by
  obtain ⟨m, hm, -, rfl⟩ := defineBody_ok h
  refine ⟨hc.unit, hc.unit_ne, fun key m' hfind => ?_, hc.numbers⟩
  -- is the key the name under which it is stored?
  change (c.templates.insert m.name m).find? key = some m' at hfind
  by_cases hkey : key = m.name
  · rw [hkey, Table.find?_insert_self, Option.some.injEq] at hfind
    exact ⟨hfind ▸ hkey.symm, hfind ▸ (Template.sound_of_ofBody hm).2⟩
  · rw [Table.find?_insert_of_ne _ _ hkey] at hfind
    exact hc.stored key m' hfind

/-- A template that is taken away is not found, and the others stay. -/
theorem undefine {name : Text} (hc : c.Coherent ids) (h : c.undefine name = .ok d) :
    d.Coherent ids := by
  obtain ⟨-, rfl⟩ := undefine_ok h
  refine ⟨hc.unit, hc.unit_ne, fun key m hfind => ?_, hc.numbers⟩
  change (c.templates.erase name).find? key = some m at hfind
  by_cases hkey : key = name
  · simp [hkey] at hfind
  · rw [Table.find?_erase_of_ne _ hkey] at hfind
    exact hc.stored key m hfind

/-- Coherence outlasts every change. -/
theorem change (hc : c.Coherent ids) (h : Change c d) : d.Coherent ids := by
  cases h with
  | directive h => exact hc.directive h
  | addClass h => exact hc.addClass h
  | define h => exact hc.define h
  | undefine h => exact hc.undefine h
  | _ => exact ⟨hc.unit, hc.unit_ne, hc.stored, hc.numbers⟩

/-- A number that is handed out is counted. -/
theorem number {id : Nat} (hc : c.Coherent ids) (h : CompileM.freshId c = .ok id d) :
    d.Coherent (ids ++ [id]) := by
  cases h
  refine ⟨hc.unit, hc.unit_ne, hc.stored, ?_⟩
  rw [hc.numbers, List.range_succ]

/-- Coherence outlasts all that happens. -/
theorem trace (hb : b.Coherent ids) (h : Trace b more c) : c.Coherent (ids ++ more) := by
  induction h with
  | refl => simpa using hb
  | change _ hchange ih => exact ih.change hchange
  | number _ hnumber ih => simpa using ih.number hnumber

/-- A compile starts from a coherent context. -/
theorem of_starts {loader : Loader} {base source : Text}
    (h : Document.Starts loader base source c) : c.Coherent [] := by
  cases h with
  | text => exact start
  | file => exact start.change (.openFile _ _)

end Coherent

end Context

open Context

/-! ### Readers -/

/-- A directive on a line is one of the changes. -/
theorem change_of_readDirective {c d : Context} {l : Line} (h : c.readDirective l = .ok d) :
    Change c d :=
  .directive (applyDirective_eq_ok.2 (readDirective_eq_ok.1 h).2)

/-- Readers of elements hand out no numbers. -/
theorem elementEffect_trace : ElementEffect (Trace · [] ·) where
  refl := .refl
  trans := .trans
  directive h := .single (change_of_readDirective h)
  addClass h := .single (.addClass h)
  define h := .single (.define h)
  undefine h := .single (.undefine h)
  template _ hinside := ((Trace.single (.enter _ _)).trans hinside).change (.leave _)

/-- Readers of sources go by traces. -/
theorem way_trace (loader : Loader) : Way loader fun c d => ∃ ids, Trace c ids d where
  refl c := ⟨[], .refl c⟩
  trans := by
    rintro b c d ⟨ids, h⟩ ⟨more, h'⟩
    exact ⟨ids ++ more, h.trans h'⟩
  directive h := ⟨[], .single (change_of_readDirective h)⟩
  addClass h := ⟨[], .single (.addClass h)⟩
  define h := ⟨[], .single (.define h)⟩
  undefine h := ⟨[], .single (.undefine h)⟩
  opened c k := ⟨_, (Trace.numbers c k).change (.structured _)⟩
  openFile _ _ := ⟨[], .single (.openFile _ _)⟩
  closeFile c := ⟨[], .single (.closeFile c)⟩
  enter _ := ⟨[], .single (.enter _ _)⟩
  leave c := ⟨[], .single (.leave c)⟩

/-! ### Operations -/

namespace Context

/-- What can be asked of a context. -/
inductive Operation where
  | directive (name value : Text)
  | addClass (name declarations : Text)
  | define (name : Text) (parameters : List Text) (body : Text)
  | undefine (name : Text)
  | number
  | format (t : Text) (line column : Nat)
  | expand (name : Text) (values : List Text) (line : Nat)
  | fragment (source : Text)

namespace Operation

/-- The numbers that an operation hands out, and the context behind it, whether it succeeds or
not. Templates are expanded in one another at most `depth` levels deep. -/
def run (depth : Nat) (c : Context) : Operation → List Nat × Context
  | directive name value => ([], (CompileM.change 0 (·.applyDirective name value)).after c)
  | addClass name declarations => ([], (CompileM.change 0 (·.addClass name declarations)).after c)
  | define name parameters body =>
      ([], (CompileM.change 0 (·.defineBody name parameters body)).after c)
  | undefine name => ([], (CompileM.change 0 (·.undefine name)).after c)
  | number => ([c.nextId], CompileM.freshId.after c)
  | format t line column => ([], (Inline.format (expander depth) t line column).after c)
  | expand name values line => ([], (expander depth name values line).after c)
  | fragment source =>
      ([], (Block.readFragment (expander depth) (SourceLine.ofSource source)).after c)

/-- The same for operations one after the other. -/
def runs (depth : Nat) : Context → List Operation → List Nat × Context
  | c, [] => ([], c)
  | c, o :: os =>
      let (ids, d) := run depth c o
      let (more, e) := runs depth d os
      (ids ++ more, e)

variable {depth : Nat}

/-- A change that is refused changes nothing. -/
theorem trace_change {f : Context → Except Cause Context}
    (hf : ∀ {c d : Context}, f c = .ok d → Change c d) (c : Context) :
    Trace c [] ((CompileM.change 0 f).after c) :=
  elementEffect_trace.change 0 (fun h => .single (hf h)) c

/-- An operation is a trace, with the numbers that it hands out. -/
theorem trace_run (o : Operation) (c : Context) :
    Trace c (o.run depth c).1 (o.run depth c).2 := by
  have hparts := elementEffect_trace.congruence
  have hexpand := hparts.expander depth
  cases o with
  | directive name value => exact trace_change .directive c
  | addClass name declarations => exact trace_change .addClass c
  | define name parameters body => exact trace_change .define c
  | undefine name => exact trace_change .undefine c
  | number => exact .number (.refl c) rfl
  | format t line column => exact hparts.format (f := expander depth) hexpand t line column c
  | expand name values line => exact hexpand name values line c
  | fragment source => exact hparts.readFragment (f := expander depth) hexpand _ c

/-- So are operations one after the other. -/
theorem trace_runs (os : List Operation) (c : Context) :
    Trace c (runs depth c os).1 (runs depth c os).2 := by
  induction os generalizing c with
  | nil => exact .refl c
  | cons o os ih => exact (trace_run o c).trans (ih _)

end Operation

end Context

/-! ### Coherence at all moments -/

/-- A moment of a compile has a trace before it and one behind it. If the compile succeeds, the
numbers of both are those of its tabs and sections. -/
theorem trace_of_moment {loader : Loader} {depth : Nat} {base source : Text} {start d : Context}
    (hstarts : Document.Starts loader base source start)
    (hmoment : Document.Moment loader depth base source start d) :
    ∃ ids rest, Trace start ids d ∧
      Trace d rest ((Document.readAll loader (expander depth) base source).after start) ∧
      ∀ tabs e, Document.readAll loader (expander depth) base source start = .ok tabs e →
        tabsIds tabs = ids ++ rest := by
  obtain ⟨⟨ids, hbefore⟩, rest, hbehind⟩ := Document.way_of_moment (way_trace loader) hmoment
  refine ⟨ids, rest, hbefore, hbehind, fun tabs e hrun => ?_⟩
  -- the numbers of the trace are counted by the context at the end, and so are those of the tabs
  have hend := (Coherent.of_starts hstarts).trace (hbefore.trans hbehind)
  rw [CompileM.after_of_ok hrun] at hend
  have hdraws := draws_readAll (counter_expands_expander depth) loader base source
  obtain ⟨n, hnext, htabs⟩ := hdraws start tabs e hrun
  have hzero : start.nextId = 0 := (Coherent.of_starts hstarts).nextId
  have hids : ids ++ rest = List.range e.nextId := hend.numbers
  rw [hids, htabs, hnext, hzero, Nat.zero_add, List.range_eq_range', List.nil_append]

/-- Whatever operations are asked of a fresh context, and at every moment of every compile, the
unit of indentation is the one of the prologue and never none at all, templates are stored under
their names, with different parameters and without hidden references, the next number counts
those that have been handed out, and structure is never forgotten. All of this outlasts every
line that is read, too. -/
theorem context_coherent (loader : Loader) (depth : Nat) :
    (∀ os ids d, Operation.runs depth .start os = (ids, d) →
      d.Coherent ids ∧ d.nextId = ids.length) ∧
    (∀ os (c : Context), c.hasStructure → (Operation.runs depth c os).2.hasStructure) ∧
    (∀ base source start d, Document.Starts loader base source start →
      Document.Moment loader depth base source start d → ∃ ids rest,
        Trace start ids d ∧ d.Coherent ids ∧ d.nextId = ids.length ∧
        Trace d rest ((Document.readAll loader (expander depth) base source).after start) ∧
        ∀ tabs e, Document.readAll loader (expander depth) base source start = .ok tabs e →
          tabsIds tabs = ids ++ rest) ∧
    (∀ b ids c, Trace b ids c → (b.hasStructure → c.hasStructure) ∧
      ∀ before, b.Coherent before → c.Coherent (before ++ ids)) ∧
    ∀ (c : Context) (l : Line) (ls : List SourceLine),
      Trace c [] ((Block.readLine (expander depth) l ls).after c) ∧
      ∀ nesting base o, ∃ ids, Trace c ids ((Document.readLine (expander depth)
        (Document.readInclusion loader (Document.readNested loader (expander depth) nesting) base)
        o l ls).after c) := by
  refine ⟨fun os ids d hruns => ?_, fun os c hc => ?_, ?_, fun b ids c h => ?_, fun c l ls => ?_⟩
  · have htrace : Trace .start (Operation.runs depth .start os).1
        (Operation.runs depth .start os).2 := Operation.trace_runs os .start
    have hd := Coherent.start.trace htrace
    rw [hruns, List.nil_append] at hd
    exact ⟨hd, hd.nextId⟩
  · exact (Operation.trace_runs os c).hasStructure hc
  · intro base source start d hstarts hmoment
    obtain ⟨ids, rest, hbefore, hbehind, hids⟩ := trace_of_moment hstarts hmoment
    have hd := (Coherent.of_starts hstarts).trace hbefore
    exact ⟨ids, rest, hbefore, hd, hd.nextId, hbehind, hids⟩
  · exact ⟨h.hasStructure, fun before hb => hb.trace h⟩
  · have hparts := elementEffect_trace.congruence
    exact ⟨hparts.readLine (f := expander depth) (hparts.expander depth) l ls c,
      fun nesting base o => (way_trace loader).effect.readTopLine depth nesting base o l ls c⟩

/-- Operations on a fresh context, of which the second, the fourth and the sixth fail. -/
def mixedOperations : List Operation :=
  [.directive "spaces".toList ['4'], .directive "spaces".toList ['2'], .number,
    .define ['t'] [['a'], ['a']] [], .define ['t'] [['a']] "\\>>a".toList,
    .fragment "~+s\n    .b x\n~t c\n~s\n~u".toList, .number, .undefine ['s']]

/-- The context behind them. -/
def mixedContext : Context := (Operation.runs 2 .start mixedOperations).2

/-- A source with four spaces, a template and a section, whose last line comes too late. -/
def tooLateSource : Text := ":spaces 4\n~+t a\n    .b >a\\>\n# s\n:font f".toList

/-- The context that its compile leaves. -/
def tooLateContext : Context :=
  (Document.readPiece (∅ : Library).loader 2 0 (.source ['.'] tooLateSource)).after .start

theorem context_coherent_failing :
    (mixedContext.indentation = .spaces 4 ∧
      mixedContext.template? ['t'] = some ⟨['t'], [['a']], "&gt;>a".toList⟩ ∧
      Operation.runs 2 .start mixedOperations = ([0, 1], mixedContext) ∧
      mixedContext.Coherent [0, 1] ∧ mixedContext.nextId = 2) ∧
    Document.Starts (∅ : Library).loader ['.'] tooLateSource .start ∧
    Document.Moment (∅ : Library).loader 2 ['.'] tooLateSource .start tooLateContext ∧
    tooLateContext.nextId = 2 ∧ tooLateContext.hasStructure ∧
    (Operation.runs 2 tooLateContext mixedOperations).2.hasStructure ∧
    ∃ ids, Trace .start ids tooLateContext ∧ Context.start.Coherent [] ∧
      tooLateContext.Coherent ids := by
  obtain ⟨hruns, hkept, hmoments, htraces, -⟩ := context_coherent (∅ : Library).loader 2
  constructor
  · have hids : (Operation.runs 2 .start mixedOperations).1 = [0, 1] := by decide +kernel
    have hd : Operation.runs 2 .start mixedOperations = ([0, 1], mixedContext) := by
      rw [← hids, mixedContext]
    exact ⟨by decide +kernel, by decide +kernel, hd, hruns _ _ _ hd⟩
  · have hstarts : Document.Starts (∅ : Library).loader ['.'] tooLateSource .start := .text _
    have hmoment : Document.Moment (∅ : Library).loader 2 ['.'] tooLateSource .start
        tooLateContext := .ends .first
    have hopen : tooLateContext.hasStructure := by decide +kernel
    obtain ⟨ids, rest, htrace, -, -, -, -⟩ := hmoments _ _ _ _ hstarts hmoment
    exact ⟨hstarts, hmoment, by decide +kernel, hopen, hkept _ _ hopen, ids, htrace, .start,
      (htraces _ _ _ htrace).2 [] .start⟩

end IndentMarkup
