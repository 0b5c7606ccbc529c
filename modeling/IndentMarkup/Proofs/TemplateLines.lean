import IndentMarkup.Document
import IndentMarkup.Proofs.Linewise

/-!
What the lines of templates do.

A definition at the margin stores the lines below it without their first level of
indentation, so what a call of the template reads is what stood there before it was
indented.

* `takeDeeper_indent` — the lines below a line are taken as they stand.
* `readDefinition_indent` — a definition stores its lines without one level.
* `readWithin_template` — a block goes on behind a line of a template.
-/

namespace IndentMarkup

/-! ### Lines that start with a tilde -/

theorem isSilent_template (n : Nat) (t : Text) : SourceLine.isSilent ⟨n, '~' :: t⟩ = false :=
  SourceLine.isSilent_of_head (by decide) (by decide) n t

theorem scan_template (unit : Indentation) (n : Nat) (t : Text) :
    SourceLine.scan unit ⟨n, '~' :: t⟩ = .ok ⟨n, 0, 0, Text.trimEnd ('~' :: t)⟩ :=
  Indentation.scan_of_head (by decide) unit n t

theorem next_template (n : Nat) (t : Text) (rest : List SourceLine) (ctx : Context) :
    Block.next (⟨n, '~' :: t⟩ :: rest) ctx
      = .ok (some (⟨n, 0, 0, Text.trimEnd ('~' :: t)⟩, rest)) ctx := by
  have hskip : skipSilent (⟨n, '~' :: t⟩ :: rest) = ⟨n, '~' :: t⟩ :: rest :=
    List.dropWhile_cons_of_neg (by simp [isSilent_template])
  have hrun := CompileM.scan_of_head (by decide : Text.isBlank '~' = false) n t ctx
  simp only [Block.next, hskip, CompileM.bind_run_ok hrun, CompileM.pure_run]

theorem kind_template (n : Nat) (t : Text) :
    Line.kind ⟨n, 0, 0, Text.trimEnd ('~' :: t)⟩ = .template :=
  Line.kind_of_head (by decide) (fun _ => rfl) n t

/-- A block at the margin goes on behind a line of a template. -/
theorem readWithin_template (e : Expander) (most n : Nat) (t : Text) (rest : List SourceLine)
    (ctx : Context) :
    Block.readWithin e (most + 1) 0 (⟨n, '~' :: t⟩ :: rest) ctx
      = (do
          let (es, rest) ← Block.readTemplateLine e ⟨n, 0, 0, Text.trimEnd ('~' :: t)⟩ rest
          let (more, rest) ← Block.readWithin e most 0 rest
          return (es ++ more, rest)) ctx := by
  rw [Block.readWithin, CompileM.bind_run_ok (next_template n t rest ctx)]
  simp only [Nat.lt_irrefl, if_false, Block.readLineWith, kind_template]

theorem readWithin_template_ok {e : Expander} {most n : Nat} {t : Text}
    {rest left last : List SourceLine} {ctx middle after : Context} {es more : List Element}
    (hline : Block.readTemplateLine e ⟨n, 0, 0, Text.trimEnd ('~' :: t)⟩ rest ctx
      = .ok (es, left) middle)
    (hmore : Block.readWithin e most 0 left middle = .ok (more, last) after) :
    Block.readWithin e (most + 1) 0 (⟨n, '~' :: t⟩ :: rest) ctx = .ok (es ++ more, last) after := by
  rw [readWithin_template, CompileM.bind_run_ok hline]
  dsimp only
  rw [CompileM.bind_run_ok hmore]
  rfl

theorem readWithin_template_error {e : Expander} {most n : Nat} {t : Text}
    {rest : List SourceLine} {ctx after : Context} {s : Stop}
    (hline : Block.readTemplateLine e ⟨n, 0, 0, Text.trimEnd ('~' :: t)⟩ rest ctx
      = .error s after) :
    Block.readWithin e (most + 1) 0 (⟨n, '~' :: t⟩ :: rest) ctx = .error s after := by
  rw [readWithin_template, CompileM.bind_run_error hline]

theorem readFragment_template_ok {e : Expander} {n : Nat} {t : Text}
    {rest left last : List SourceLine} {ctx middle after : Context} {es more : List Element}
    (hline : Block.readTemplateLine e ⟨n, 0, 0, Text.trimEnd ('~' :: t)⟩ rest ctx
      = .ok (es, left) middle)
    (hmore : Block.readWithin e rest.length 0 left middle = .ok (more, last) after) :
    Block.readFragment e (⟨n, '~' :: t⟩ :: rest) ctx = .ok (es ++ more) after :=
  CompileM.bind_run_ok (readWithin_template_ok hline hmore) _

/-- A line with a tilde and a name is a call. -/
theorem readTemplateLine_call {e : Expander} {m : Line} {c : Char} {t : Text}
    (hplus : c ≠ '+') (hminus : c ≠ '-') (hcontent : m.content = '~' :: c :: t)
    (rest : List SourceLine) :
    Block.readTemplateLine e m rest = do
      return (← e (m.token.drop 1) (Template.valuesOf m.afterToken) m.number, rest) := by
  unfold Block.readTemplateLine
  split
  · next signature hdefinition =>
      rw [hcontent] at hdefinition
      cases hdefinition
      exact absurd rfl hplus
  · next name hremoval =>
      rw [hcontent] at hremoval
      cases hremoval
      exact absurd rfl hminus
  · rfl

/-! ### Definitions -/

/-- Lines of one level more are the lines below a line, up to lines of which it owns
none. -/
theorem takeDeeper_indent {unit : Indentation} (hunit : unit ≠ .spaces 0) {ts : List Text}
    (hts : ∀ t ∈ ts, Text.allBlank t = false ∧ ∃ l, unit.scan 0 t = .ok l)
    {rest : List SourceLine} (hrest : Block.takeDeeper unit 0 rest = .ok ([], rest)) (n : Nat) :
    Block.takeDeeper unit 0 (SourceLine.numberFrom n (ts.map unit.indent) ++ rest)
      = .ok (ts.map unit.indent, rest) := by
  induction ts generalizing n with
  | nil => exact hrest
  | cons t ts ih =>
      obtain ⟨hsolid, l, hl⟩ := hts t List.mem_cons_self
      have hscan := Indentation.scan_indent hunit hsolid hl n
      have hmore := ih (fun u hu => hts u (List.mem_cons_of_mem t hu)) (n + 1)
      rw [List.map_cons, SourceLine.numberFrom, List.cons_append, Block.takeDeeper]
      simp only [SourceLine.isBlank, SourceLine.scan, Indentation.allBlank_indent, hsolid, hscan,
        hmore, Bool.false_eq_true, if_false]
      simp only [if_neg (Nat.not_succ_le_zero l.depth)]

/-- A definition at the margin stores the lines below it without the level that they are
indented by. -/
theorem readDefinition_indent (ctx : Context) (hunit : ctx.indentation ≠ .spaces 0) (m : Line)
    (hdepth : m.depth = 0) (signature : Text) {name : Text} {parameters : List Text}
    (hwords : Text.words signature = name :: parameters)
    (hrepeated : Template.repeated? [] parameters = none) (hfree : ctx.template? name = none)
    {ts : List Text}
    (hts : ∀ t ∈ ts, Text.allBlank t = false ∧ ∃ l, ctx.indentation.scan 0 t = .ok l)
    (n : Nat) (rest : List SourceLine)
    (hrest : Block.takeDeeper ctx.indentation 0 rest = .ok ([], rest)) :
    Block.readDefinition m signature
        (SourceLine.numberFrom n (ts.map ctx.indentation.indent) ++ rest) ctx
      = .ok rest { ctx with
          templates := ctx.templates.insert name
            ⟨name, parameters, Template.protectClosers (Text.join ['\n'] ts)⟩ } := by
  have htake : Block.takeBody m.depth
      (SourceLine.numberFrom n (ts.map ctx.indentation.indent) ++ rest) ctx
        = .ok (ts.map ctx.indentation.indent, rest) ctx := by
    rw [Block.takeBody, hdepth, takeDeeper_indent hunit hts hrest]
  have hbody : Block.dedent ctx.indentation m.depth (ts.map ctx.indentation.indent)
      = Text.join ['\n'] ts := by
    have hdrop : Text.dropBytes ctx.indentation.unitLength ∘ ctx.indentation.indent = id := by
      funext t
      exact Indentation.dropBytes_indent _ t
    rw [Block.dedent, hdepth, Nat.zero_add, Nat.mul_one, List.map_map, hdrop, List.map_id]
  have hdefine : ctx.defineBody name parameters (Text.join ['\n'] ts)
      = .ok { ctx with
          templates := ctx.templates.insert name
            ⟨name, parameters, Template.protectClosers (Text.join ['\n'] ts)⟩ } := by
    rw [Context.template?] at hfree
    simp [Context.defineBody, Template.ofBody, hrepeated, Context.define, Table.contains, hfree]
  simp only [Block.readDefinition, hwords]
  rw [CompileM.get_bind_run, CompileM.bind_run_ok htake]
  dsimp only
  rw [hbody, CompileM.bind_run, CompileM.change, hdefine]
  rfl

/-! ### The top level of a source -/

section TopLevel

variable {e : Expander} {x : Line → CompileM (List Tab)} {most n : Nat} {o : Outline} {t : Text}
  {rest : List SourceLine} {ctx : Context}

theorem readTop_template_ok {left : List SourceLine} {middle : Context}
    (hline : Block.readTemplateLine e ⟨n, 0, 0, Text.trimEnd ('~' :: t)⟩ rest ctx
      = .ok ([], left) middle) :
    Document.readWithin e x (most + 1) o (⟨n, '~' :: t⟩ :: rest) ctx
      = Document.readWithin e x most o left middle := by
  have hread : Document.readLine e x o ⟨n, 0, 0, Text.trimEnd ('~' :: t)⟩ rest ctx
      = .ok (o, left) middle := by
    simp only [Document.readLine, Document.readElements, Nat.lt_irrefl, if_false, kind_template,
      Block.readLine, Block.readLineWith, CompileM.bind_run_ok hline]
    rfl
  rw [Document.readWithin, CompileM.bind_run_ok (next_template n t rest ctx)]
  exact CompileM.bind_run_ok hread _

theorem readTop_template_error {s : Stop} {after : Context}
    (hline : Block.readTemplateLine e ⟨n, 0, 0, Text.trimEnd ('~' :: t)⟩ rest ctx
      = .error s after) :
    Document.readWithin e x (most + 1) o (⟨n, '~' :: t⟩ :: rest) ctx = .error s after := by
  have hread : Document.readLine e x o ⟨n, 0, 0, Text.trimEnd ('~' :: t)⟩ rest ctx
      = .error s after := by
    simp only [Document.readLine, Document.readElements, Nat.lt_irrefl, if_false, kind_template,
      Block.readLine, Block.readLineWith, CompileM.bind_run_error hline]
  rw [Document.readWithin, CompileM.bind_run_ok (next_template n t rest ctx)]
  exact CompileM.bind_run_error hread _

end TopLevel

end IndentMarkup
