import IndentMarkup.Proofs.Coupling.Documents
import IndentMarkup.Proofs.TemplateLines

/-!
Templates without parameters are transparent.

Lines stand for the same elements whether they are read where they are or stored as the
body of a template that is called on the spot. Between the two lie the indentation of the
body and its removal, the joining and cutting of its lines and a second reading, in which
the lines have other numbers and no blank lines between them.

* `transparency` — what the run on the lines and the run on the stored lines have in
  common; it is lawful.
* `transparent_template` — both give the same elements and the same metadata.
-/

namespace IndentMarkup

/-- A line that can stand in the body of a template without parameters and does not speak
of templates itself. -/
structure Plain (unit : Indentation) (t : Text) : Prop where
  newline : '\n' ∉ t
  carriage : '\r' ∉ t
  /-- Nothing in the line is protected from being taken for a reference. -/
  closer : ¬ ['\\', '>'] <:+: t
  scans : Text.allBlank t = false → ∃ l, unit.scan 0 t = .ok l ∧ l.content.head? ≠ some '~'

/-- The lines that are not blank, as the body of a template that is defined and called. -/
def wrapped (unit : Indentation) (body : List Text) : List Text :=
  ['~', '+', 't'] :: ((body.filter (!Text.allBlank ·)).map unit.indent ++ [['~', 't']])

/-! ### The lines and the stored lines -/

/-- The first run knows no templates and expands none. The second one reads the same lines
with the same metadata; it is compared only if the first one succeeds. -/
def transparency (unit : Indentation) : Coupling where
  context c c' := c.templates = ∅ ∧ c.expanding = [] ∧ c.indentation = unit ∧
    c'.indentation = unit ∧ c'.metadata = c.metadata
  number _ _ := True
  column _ _ := True
  line l l' := l'.text = l.text ∧ l.isBlank = false ∧
    ∃ m, unit.scan 0 l.text = .ok m ∧ m.content.head? ≠ some '~'
  measured m := m.content.head? ≠ some '~'
  stop _ _ _ _ := False
  lax := True
  loose := True
  tail := []

theorem template?_of_transparency {unit : Indentation} {c c' : Context}
    (hc : (transparency unit).context c c') (name : Text) : c.template? name = none := by
  rw [Context.template?, hc.1]
  rfl

instance (unit : Indentation) : (transparency unit).Lawful where
  column_map _ _ _ _ := trivial
  trim_line hl := by rw [hl.1]
  isBlank_line hl := hl.2.1
  closes_tail := .inl rfl
  scan := by
    rintro c c' l l' ⟨-, -, hunit, hunit', -⟩ ⟨htext, -, m, hm, hhead⟩
    rw [SourceLine.scan, SourceLine.scan, htext, hunit, hunit',
      Indentation.scan_renumber hm l.number, Indentation.scan_renumber hm l'.number]
    exact .ok ⟨rfl, rfl, trivial, trivial, hhead⟩
  fail _ _ _ _ := .inl trivial
  template name hc := .inl ⟨trivial, template?_of_transparency hc name⟩
  expanding hc := .inl ⟨trivial, by rw [Context.isExpanding, hc.2.1]; rfl⟩
  directive hc hexpanding _ := by
    rw [Context.isExpanding, hc.2.1] at hexpanding
    cases hexpanding
  addClass := by
    rintro c c' name declarations ⟨htemplates, hexpanding, hunit, hunit', hmetadata⟩ -
    exact agree_addClass hmetadata fun _ _ => ⟨htemplates, hexpanding, hunit, hunit', rfl⟩
  define _ hm hcontent _ _ := absurd (congrArg List.head? hcontent) hm
  undefine _ hm hcontent := absurd (congrArg List.head? hcontent) hm

/-- Where there are no templates every expansion fails. -/
theorem transparency_expands (unit : Indentation) (depth : Nat) (e : Expander) :
    (transparency unit).Expands (expander depth) e := by
  intro name values n n' _ _ _ c c' hc
  cases depth with
  | zero => exact .excused trivial
  | succ depth =>
      have hbody : c.bodyOfCall name values = .error (.template (.unknown name)) := by
        rw [Context.bodyOfCall, template?_of_transparency hc]
      rw [expander, expandWith, hbody]
      exact .excused trivial

/-! ### The body as it is stored -/

section Body

variable {unit : Indentation} {body : List Text}

theorem solid_of_plain (hbody : ∀ t ∈ body, Plain unit t) :
    ∀ t ∈ body.filter (!Text.allBlank ·), Plain unit t ∧ Text.allBlank t = false := by
  intro t ht
  obtain ⟨hmem, hsolid⟩ := List.mem_filter.1 ht
  constructor
  · exact hbody t hmem
  · simpa using hsolid

/-- The text in which the lines are stored. -/
theorem protectClosers_plain (hbody : ∀ t ∈ body, Plain unit t) :
    Template.protectClosers (Text.join ['\n'] body) = Text.join ['\n'] body := by
  by_cases hne : body = []
  · subst hne
    rfl
  · rw [Template.linewise_protectClosers.join hne]
    have hlines : ∀ t ∈ body, Template.protectClosers t = id t := by
      intro t ht
      exact Template.protectClosers_of_no_closer (hbody t ht).closer
    rw [List.map_congr_left hlines, List.map_id]

/-- The stored lines are the lines that are not blank. -/
theorem lines_of_stored (hbody : ∀ t ∈ body, Plain unit t) :
    (transparency unit).Lines (SourceLine.numberFrom 0 body)
      (SourceLine.ofSource (Text.join ['\n'] (body.filter (!Text.allBlank ·)))) := by
  have hsolid := solid_of_plain hbody
  have hcarriage : ∀ t ∈ body.filter (!Text.allBlank ·), t.filter (· ≠ '\r') = id t := by
    intro t ht
    exact SourceLine.filter_carriage_of_notMem (hsolid t ht).1.carriage
  refine Coupling.lines_of_solid trivial rfl id ?_ ?_ 0 0
  · rw [List.map_id, SourceLine.filter_textsOf, Text.solidLines_join_of_solid fun t ht =>
      ⟨(hsolid t ht).1.newline, (hsolid t ht).2⟩, List.map_congr_left hcarriage, List.map_id]
  · intro t ht hsolid n n'
    exact ⟨rfl, hsolid, (hbody t ht).scans hsolid⟩

end Body

/-! ### Definition and call -/

/-- The context after the definition of a template that stores the lines. -/
def Context.storing (ctx : Context) (ts : List Text) : Context :=
  { ctx with
    templates := ctx.templates.insert ['t'] ⟨['t'], [], Text.join ['\n'] ts⟩ }

theorem bodyOfCall_storing {ctx : Context} (hexpanding : ctx.expanding = []) (ts : List Text) :
    (ctx.storing ts).bodyOfCall ['t'] [] = .ok (Text.join ['\n'] ts) := by
  have hfound : (ctx.storing ts).template? ['t']
      = some ⟨['t'], [], Text.join ['\n'] ts⟩ :=
    Table.find?_insert_self _ _ _
  have hopen : (ctx.storing ts).expanding = [] := hexpanding
  simp only [Context.bodyOfCall, hfound, hopen, List.not_mem_nil, if_false]
  rfl

/-- A definition and a call behind it do what the stored lines do. -/
theorem readFragment_wrapped {ctx : Context} (depth : Nat) (htemplates : ctx.templates = ∅)
    (hexpanding : ctx.expanding = []) (hunit : ctx.indentation ≠ .spaces 0) {ts : List Text}
    (hts : ∀ t ∈ ts, Text.allBlank t = false ∧ ∃ l, ctx.indentation.scan 0 t = .ok l)
    (hprotected : Template.protectClosers (Text.join ['\n'] ts) = Text.join ['\n'] ts)
    {es : List Element} {inner : Context}
    (hread : Block.readFragment (expander depth) (SourceLine.ofSource (Text.join ['\n'] ts))
      ((ctx.storing ts).enter ['t']) = .ok es inner) :
    Block.readFragment (expander (depth + 1))
      (SourceLine.numberFrom 0 (['~', '+', 't'] :: (ts.map ctx.indentation.indent ++ [['~', 't']])))
      ctx = .ok es inner.leave := by
  -- the wrapped lines are the definition's line, the body one level deeper, and the call's line
  have hlines : SourceLine.numberFrom 0
      (['~', '+', 't'] :: (ts.map ctx.indentation.indent ++ [['~', 't']]))
      = ⟨0, ['~', '+', 't']⟩ :: (SourceLine.numberFrom 1 (ts.map ctx.indentation.indent)
        ++ [⟨1 + ts.length, ['~', 't']⟩]) := by
    rw [SourceLine.numberFrom, SourceLine.numberFrom_append, List.length_map]
    rfl
  -- the body ends at the call, which stands at the margin
  have hlast : Block.takeDeeper ctx.indentation 0 [⟨1 + ts.length, ['~', 't']⟩]
      = .ok ([], [⟨1 + ts.length, ['~', 't']⟩]) := by
    have hscan := scan_template ctx.indentation (1 + ts.length) ['t']
    simp [Block.takeDeeper, SourceLine.isBlank, Text.allBlank, hscan]
  have hdefine := readDefinition_indent ctx hunit ⟨0, 0, 0, ['~', '+', 't']⟩ rfl ['t'] rfl rfl
    (by rw [Context.template?, htemplates]; rfl) hts 1 _ hlast
  rw [hprotected] at hdefine
  have hcall : expander (depth + 1) ['t'] [] (1 + ts.length) (ctx.storing ts)
      = .ok es inner.leave := by
    simp only [expander, expandWith, bodyOfCall_storing hexpanding, hread]
  have hdefineLine : Block.readTemplateLine (expander (depth + 1))
      ⟨0, 0, 0, Text.trimEnd ['~', '+', 't']⟩
      (SourceLine.numberFrom 1 (ts.map ctx.indentation.indent) ++ [⟨1 + ts.length, ['~', 't']⟩])
      ctx = .ok ([], [⟨1 + ts.length, ['~', 't']⟩]) (ctx.storing ts) :=
    CompileM.bind_run_ok hdefine _
  have hcallLine : Block.readTemplateLine (expander (depth + 1))
      ⟨1 + ts.length, 0, 0, Text.trimEnd ['~', 't']⟩ [] (ctx.storing ts)
      = .ok (es, []) inner.leave :=
    CompileM.bind_run_ok hcall _
  -- the call is the last line, so it is read with any count that is left
  have hend (most : Nat) : Block.readWithin (expander (depth + 1)) most 0 [] inner.leave
      = .ok ([], []) inner.leave := by
    cases most <;> rfl
  have hblock : Block.readBlock (expander (depth + 1)) 0
      (⟨0, ['~', '+', 't']⟩ :: (SourceLine.numberFrom 1 (ts.map ctx.indentation.indent)
        ++ [⟨1 + ts.length, ['~', 't']⟩])) ctx = .ok (es, []) inner.leave := by
    rw [Block.readBlock, List.length_cons, List.length_append, SourceLine.length_numberFrom]
    have hcalled := readWithin_template_ok hcallLine (hend (ts.map ctx.indentation.indent).length)
    rw [List.append_nil] at hcalled
    exact readWithin_template_ok hdefineLine hcalled
  rw [hlines, Block.readFragment, CompileM.bind_run_ok hblock]
  rfl

/-- Lines that do not speak of templates stand for the same elements, and leave the same
metadata, when they are defined as a template and the template is called. -/
theorem transparent_template {ctx after : Context} {body : List Text} {es : List Element}
    (depth depth' : Nat) (htemplates : ctx.templates = ∅) (hexpanding : ctx.expanding = [])
    (hunit : ctx.indentation ≠ .spaces 0) (hbody : ∀ t ∈ body, Plain ctx.indentation t)
    (hrun : Block.readFragment (expander depth) (SourceLine.numberFrom 0 body) ctx
      = .ok es after) :
    ∃ after', Block.readFragment (expander (depth' + 1))
        (SourceLine.numberFrom 0 (wrapped ctx.indentation body)) ctx = .ok es after' ∧
      after'.metadata = after.metadata := by
  have hsolid := solid_of_plain hbody
  have hcontext : (transparency ctx.indentation).context ctx
      ((ctx.storing (body.filter (!Text.allBlank ·))).enter ['t']) :=
    ⟨htemplates, hexpanding, rfl, rfl, rfl⟩
  have hstored := Coupling.couples_readFragment
    (transparency_expands ctx.indentation depth (expander depth')) rfl (lines_of_stored hbody)
    _ _ hcontext
  rw [hrun] at hstored
  generalize hread : Block.readFragment (expander depth') _ _ = r at hstored
  cases hstored with
  | @ok _ es' _ inner hes hinner =>
      subst hes
      have hprotected := protectClosers_plain fun t ht => (hsolid t ht).1
      have hscans : ∀ t ∈ body.filter (!Text.allBlank ·),
          Text.allBlank t = false ∧ ∃ l, ctx.indentation.scan 0 t = .ok l := by
        intro t ht
        obtain ⟨hplain, hmark⟩ := hsolid t ht
        obtain ⟨l, hl, -⟩ := hplain.scans hmark
        exact ⟨hmark, l, hl⟩
      refine ⟨inner.leave, ?_, hinner.2.2.2.2⟩
      exact readFragment_wrapped depth' htemplates hexpanding hunit hscans hprotected hread

/-- Lines with children, a custom class, a comment and a blank line, indented by two
spaces. -/
def plainLines : List Text :=
  [".div".toList, "  .b x".toList, [], "$note".toList, "  color: red".toList, "> c".toList]

theorem transparent_template_plainLines : ∃ es after after',
    Block.readFragment (expander 0) (SourceLine.numberFrom 0 plainLines)
        { Context.start with indentation := .spaces 2 } = .ok es after ∧
      Block.readFragment (expander 1)
        (SourceLine.numberFrom 0 (wrapped (.spaces 2) plainLines))
        { Context.start with indentation := .spaces 2 } = .ok es after' ∧
      after'.metadata = after.metadata := by
  have hplain : ∀ t ∈ plainLines, Plain (.spaces 2) t := by
    have hcheck : ∀ t ∈ plainLines, '\n' ∉ t ∧ '\r' ∉ t ∧ ¬ ['\\', '>'] <:+: t ∧
        (Indentation.scan (.spaces 2) 0 t).toOption.any (·.content.head? ≠ some '~') = true := by
      decide +kernel
    intro t ht
    obtain ⟨hnewline, hcarriage, hcloser, hscan⟩ := hcheck t ht
    refine ⟨hnewline, hcarriage, hcloser, ?_⟩
    intro _
    cases hl : Indentation.scan (.spaces 2) 0 t with
    | error err => simp [hl, Except.toOption] at hscan
    | ok l =>
        rw [hl] at hscan
        exact ⟨l, rfl, of_decide_eq_true hscan⟩
  cases hrun : Block.readFragment (expander 0) (SourceLine.numberFrom 0 plainLines)
      { Context.start with indentation := .spaces 2 } with
  | error s after =>
      have hends : ((Block.readFragment (expander 0) (SourceLine.numberFrom 0 plainLines)).run'
          { Context.start with indentation := .spaces 2 }).isSome = true := by
        decide +kernel
      delta EStateM.run' EStateM.run at hends
      rw [hrun] at hends
      cases hends
  | ok es after =>
      obtain ⟨after', hrun', hmetadata⟩ := transparent_template 0 0 rfl rfl
        (by decide) hplain hrun
      exact ⟨es, after, after', rfl, hrun', hmetadata⟩

end IndentMarkup
