import IndentMarkup.Document

/-!
Two runs side by side.

Many laws compare two runs of the same readers: on lines with and without blank ones in
between, from contexts that differ in a field, with another unit of indentation. A
coupling says once how the contexts, the lines and the errors of two such runs go
together; that the readers then keep in step is proved for all couplings at once.

* `agree_readDirective`, `agree_addClass` — metadata of two contexts changes alike.
* `Coupling`, `Coupling.Lawful` — what is held side by side, and what makes the readers
  keep it so.
* `Coupling.Couples` — two actions keep in step.
* `Coupling.Lines` — the lines that two runs have before them.
* `couples_next`, `agree_takeDeeper` — the two ways of looking ahead keep in step.

The second run may have lines behind the end of the first one: blank ones, and from the line
of a section, a tab or an inclusion on any others. A reader of elements stops at such a line
as it does at the end.
-/

namespace IndentMarkup

/-! ### Results that go together -/

/-- Two computations that can fail: both succeed, with related values, or both fail,
with related errors. If the relation is `lax`, a failure of the first one allows the
second one anything. -/
inductive Agree {ε ε' α α' : Type} (lax : Prop) (errors : ε → ε' → Prop)
    (values : α → α' → Prop) : Except ε α → Except ε' α' → Prop where
  | ok {a : α} {a' : α'} : values a a' → Agree lax errors values (.ok a) (.ok a')
  | error {e : ε} {e' : ε'} : errors e e' → Agree lax errors values (.error e) (.error e')
  | excused {e : ε} {x : Except ε' α'} : lax → Agree lax errors values (.error e) x

/-- A weaker relation between values or errors holds, too. -/
theorem Agree.imp {ε ε' α α' : Type} {lax lax' : Prop} {errors errors' : ε → ε' → Prop}
    {values values' : α → α' → Prop} {x : Except ε α} {x' : Except ε' α'}
    (h : Agree lax errors values x x') (hlax : lax → lax')
    (herrors : ∀ e e', errors e e' → errors' e e') (hvalues : ∀ a a', values a a' → values' a a') :
    Agree lax' errors' values' x x' := by
  cases h with
  | ok h => exact .ok (hvalues _ _ h)
  | error h => exact .error (herrors _ _ h)
  | excused h => exact .excused (hlax h)

/-- A computation agrees with itself. -/
theorem Agree.refl {ε α : Type} {lax : Prop} {errors : ε → ε → Prop} {values : α → α → Prop}
    {x : Except ε α} (herrors : ∀ e, errors e e) (hvalues : ∀ a, values a a) :
    Agree lax errors values x x := by
  cases x with
  | ok a => exact .ok (hvalues a)
  | error e => exact .error (herrors e)

/-! ### Changes of metadata -/

section Metadata

variable {lax : Prop} {contexts : Context → Context → Prop} {c c' : Context}

/-- A directive does the same to two contexts that are alike where it reads them. -/
theorem agree_readDirective {m m' : Line} (hmetadata : c'.metadata = c.metadata)
    (hearly : c'.hasStructure = c.hasStructure) (hunit : c'.indentation = c.indentation)
    (hcontent : m'.content = m.content)
    (h : ∀ metadata indentation,
      contexts { c with metadata, indentation } { c' with metadata, indentation }) :
    Agree lax Eq contexts (c.readDirective m) (c'.readDirective m') := by
  have hparts : Context.directiveParts m' = Context.directiveParts m := by
    rw [Context.directiveParts, Context.directiveParts, hcontent]
  unfold Context.readDirective Context.applyDirective
  rw [hparts, hmetadata, hunit]
  by_cases hlate : c.hasStructure = true
  · rw [if_pos hlate, if_pos (hearly.trans hlate)]
    exact .error rfl
  · rw [if_neg hlate, if_neg (hearly ▸ hlate)]
    cases c.metadata.applyDirective _ _ with
    | error f => exact .error rfl
    | ok metadata => exact .ok (h metadata _)

/-- A custom class does the same to two contexts with the same metadata. -/
theorem agree_addClass {name declarations : Text} (hmetadata : c'.metadata = c.metadata)
    (h : ∀ metadata, c.metadata.addClass name declarations = .ok metadata →
      contexts { c with metadata } { c' with metadata }) :
    Agree lax Eq contexts (c.addClass name declarations) (c'.addClass name declarations) := by
  unfold Context.addClass
  rw [hmetadata]
  cases hadd : c.metadata.addClass name declarations with
  | error f => exact .error rfl
  | ok metadata => exact .ok (h metadata hadd)

end Metadata

/-! ### Two runs -/

/-- The line of a section, a tab or an inclusion at the margin. No line above it owns it. -/
def SourceLine.IsBoundary (l : SourceLine) : Prop :=
  l.text.head? = some '#' ∨ l.text.head? = some '@' ∨ l.text.head? = some '!'

/-- The line opens a section or a tab or includes a file. -/
def LineKind.isBoundary : LineKind → Bool
  | sectionStart | tabStart | inclusion => true
  | _ => false

/-- The lines are blank or start behind blank ones with a line that nothing owns. -/
def Closes (ls : List SourceLine) : Prop :=
  skipBlank ls = [] ∨ ∃ head rest, skipBlank ls = head :: rest ∧ head.IsBoundary

/-- What two runs have in common. -/
structure Coupling where
  /-- The contexts of the two runs. -/
  context : Context → Context → Prop
  /-- The numbers of their lines. -/
  number : Nat → Nat → Prop
  /-- The columns of their errors. -/
  column : Nat → Nat → Prop
  /-- Their lines that are not blank. -/
  line : SourceLine → SourceLine → Prop
  /-- The measured lines of the first run. -/
  measured : Line → Prop
  /-- The ends of two runs that stop. -/
  stop : Stop → Context → Stop → Context → Prop
  /-- Nothing is claimed of the second run if the first one stops. -/
  lax : Prop
  /-- Blank lines may stand in one of the runs alone. -/
  loose : Prop
  /-- The lines of the second run behind the end of the first one. -/
  tail : List SourceLine
  /-- The characters that such lines have, by their numbers, and that are written for them. -/
  char : Nat → Char → Prop := fun _ _ => True

namespace Coupling

/-- Two measured lines say the same. -/
structure Measured (K : Coupling) (m m' : Line) : Prop where
  depth : m'.depth = m.depth
  content : m'.content = m.content
  number : K.number m.number m'.number
  width : K.column m.width m'.width
  allowed : K.measured m

/-- Lines that say the same are of one kind. -/
theorem Measured.kind {K : Coupling} {m m' : Line} (h : K.Measured m m') : m'.kind = m.kind := by
  simp only [Line.kind, h.content]

/-- The lines that two runs have before them: related, but for blank lines, which say the
same or, in a loose coupling, stand anywhere, and for the tail of the second run. -/
inductive Lines (K : Coupling) : List SourceLine → List SourceLine → Prop where
  | tail : Lines K [] K.tail
  | both {l l' : SourceLine} {ls ls' : List SourceLine} :
      K.line l l' → Lines K ls ls' → Lines K (l :: ls) (l' :: ls')
  | blank {l l' : SourceLine} {ls ls' : List SourceLine} :
      l.isBlank = true → l'.text = l.text → K.number l.number l'.number → Lines K ls ls' →
      Lines K (l :: ls) (l' :: ls')
  | first {l : SourceLine} {ls ls' : List SourceLine} :
      K.loose → l.isBlank = true → Lines K ls ls' → Lines K (l :: ls) ls'
  | second {l' : SourceLine} {ls ls' : List SourceLine} :
      K.loose → l'.isBlank = true → Lines K ls ls' → Lines K ls (l' :: ls')

/-- In a loose coupling blank lines may stand in front of the second run's. -/
theorem lines_blanks_append {K : Coupling} (hloose : K.loose) {blanks rest : List Text}
    (hblanks : ∀ t ∈ blanks, Text.allBlank t = true) {ls : List SourceLine}
    (hrest : ∀ n, K.Lines ls (SourceLine.numberFrom n rest)) (n : Nat) :
    K.Lines ls (SourceLine.numberFrom n (blanks ++ rest)) := by
  induction blanks generalizing n with
  | nil => exact hrest n
  | cons t blanks ih =>
      exact .second hloose (hblanks t List.mem_cons_self)
        (ih (fun u hu => hblanks u (List.mem_cons_of_mem t hu)) (n + 1))

/-- In a loose coupling two sources go together if their lines do but for blank ones. -/
theorem lines_of_solid {K : Coupling} (hloose : K.loose) (htail : K.tail = [])
    {ts ts' : List Text} (f : Text → Text)
    (h : ts'.filter (!Text.allBlank ·) = (ts.filter (!Text.allBlank ·)).map f)
    (hline : ∀ t ∈ ts, Text.allBlank t = false → ∀ n n', K.line ⟨n, t⟩ ⟨n', f t⟩) (n n' : Nat) :
    K.Lines (SourceLine.numberFrom n ts) (SourceLine.numberFrom n' ts') := by
  -- on the lines of the first run; those of the second one are cut where its next line comes from
  induction ts generalizing ts' n n' with
  | nil =>
      have hblank : ∀ t ∈ ts', Text.allBlank t = true := by simpa using h
      have hend : ∀ n, K.Lines [] (SourceLine.numberFrom n []) := by
        intro n
        have htail' := Lines.tail (K := K)
        rwa [htail] at htail'
      rw [← List.append_nil ts']
      exact lines_blanks_append hloose hblank hend n'
  | cons t ts ih =>
      have hline' := fun u hu => hline u (List.mem_cons_of_mem t hu)
      -- a blank line of the first run may stand alone, any other has its own in the second run
      cases ht : Text.allBlank t with
      | true => exact .first hloose ht (ih (by simpa [ht] using h) hline' (n + 1) n')
      | false =>
          rw [List.filter_cons_of_pos (by simp [ht]), List.map_cons, List.filter_eq_cons_iff] at h
          obtain ⟨blanks, rest, rfl, hblanks, -, hrest⟩ := h
          have hmore : ∀ n', K.Lines (SourceLine.numberFrom n (t :: ts))
              (SourceLine.numberFrom n' (f t :: rest)) := by
            intro n'
            exact .both (hline t List.mem_cons_self ht n n') (ih hrest hline' (n + 1) (n' + 1))
          exact lines_blanks_append hloose (by simpa using hblanks) hmore n'

/-- The lines below two lines of one depth, each measured in its own unit. -/
inductive Bodies (K : Coupling) (unit unit' : Indentation) (depth : Nat) :
    List Text → List Text → Prop where
  | nil : Bodies K unit unit' depth [] []
  | both {l l' : SourceLine} {m m' : Line} {ts ts' : List Text} :
      K.line l l' → l.scan unit = .ok m → l'.scan unit' = .ok m' → K.Measured m m' →
        depth < m.depth → Bodies K unit unit' depth ts ts' →
        Bodies K unit unit' depth (l.text :: ts) (l'.text :: ts')
  | blank {t : Text} {ts ts' : List Text} : Text.allBlank t = true →
      Bodies K unit unit' depth ts ts' → Bodies K unit unit' depth (t :: ts) (t :: ts')
  | first {t : Text} {ts ts' : List Text} : K.loose → Text.allBlank t = true →
      Bodies K unit unit' depth ts ts' → Bodies K unit unit' depth (t :: ts) ts'
  | second {t' : Text} {ts ts' : List Text} : K.loose → Text.allBlank t' = true →
      Bodies K unit unit' depth ts ts' → Bodies K unit unit' depth ts (t' :: ts')

/-- Only in a loose coupling one of two bodies is empty alone. -/
theorem Bodies.nil_iff {K : Coupling} {unit unit' : Indentation} {depth : Nat}
    {body body' : List Text} (h : K.Bodies unit unit' depth body body') :
    K.loose ∨ (body = [] ↔ body' = []) := by
  cases h with
  | nil => exact .inr Iff.rfl
  | both => simp
  | blank => simp
  | first hloose => exact .inl hloose
  | second hloose => exact .inl hloose

/-- Related lines that say the same make the same bodies. -/
theorem Bodies.eq {K : Coupling} {unit unit' : Indentation} {depth : Nat}
    {body body' : List Text} (h : K.Bodies unit unit' depth body body') (hloose : ¬ K.loose)
    (htext : ∀ l l', K.line l l' → l'.text = l.text) : body' = body := by
  induction h with
  | nil => rfl
  | both hl _ _ _ _ _ ih => rw [htext _ _ hl, ih]
  | blank _ _ ih => rw [ih]
  | first h => exact absurd h hloose
  | second h => exact absurd h hloose

/-- The declarations that a custom class has from lines of the first run. -/
def Declared (K : Coupling) (declarations : Text) : Prop :=
  ∃ ls : List SourceLine, (∀ l ∈ ls, ∃ l', K.line l l') ∧
    declarations = Text.join ['\n'] (ls.map fun l => Text.trim l.text)

/-- What a coupling owes for the readers to keep it. -/
class Lawful (K : Coupling) : Prop where
  column_map (f : Nat → Nat) {n n' : Nat} : K.column n n' → K.column (f n) (f n')
  /-- Related lines differ at most in the blank characters at their ends. -/
  trim_line {l l' : SourceLine} : K.line l l' → Text.trim l'.text = Text.trim l.text
  isBlank_line {l l' : SourceLine} : K.line l l' → l.isBlank = false
  closes_tail : Closes K.tail
  char_of_measured {m : Line} : K.measured m → ∀ c ∈ m.content, K.char m.number c := by
    intros
    trivial
  char_of_escape {n : Nat} {c : Char} {reference : Text} : Text.escapable? c = some reference →
    ∀ d ∈ reference, K.char n d := by
    intros
    trivial
  scan {c c' : Context} {l l' : SourceLine} : K.context c c' → K.line l l' →
    Agree K.lax
      (fun e e' => e'.fault = e.fault ∧ K.number e.line e'.line ∧ K.column e.column e'.column)
      K.Measured (l.scan c.indentation) (l'.scan c'.indentation)
  fail {c c' : Context} {n n' : Nat} {col col' : Option Nat} {cause : Cause} :
    cause.isOwn = true → K.context c c' → K.number n n' → Option.Rel K.column col col' →
      K.lax ∨ K.stop (.error (c.errorAt cause n col)) c (.error (c'.errorAt cause n' col')) c'
  template {c c' : Context} (name : Text) : K.context c c' →
    (K.lax ∧ c.template? name = none) ∨
      (c'.template? name).map Template.arity = (c.template? name).map Template.arity
  expanding {c c' : Context} : K.context c c' →
    (K.lax ∧ c.isExpanding = false) ∨ c'.isExpanding = c.isExpanding
  directive {c c' : Context} {m m' : Line} : K.context c c' → c.isExpanding = true →
    K.Measured m m' → Agree K.lax Eq K.context (c.readDirective m) (c'.readDirective m')
  addClass {c c' : Context} (name : Text) {declarations : Text} : K.context c c' →
    K.Declared declarations →
      Agree K.lax Eq K.context (c.addClass name declarations) (c'.addClass name declarations)
  define {c c' : Context} {m : Line} {signature name : Text}
    {parameters body body' : List Text} {depth : Nat} : K.context c c' → K.measured m →
      m.content = '~' :: '+' :: signature → Text.words signature = name :: parameters →
      K.Bodies c.indentation c'.indentation depth body body' →
      Agree K.lax Eq K.context
        (c.defineBody name parameters (Block.dedent c.indentation depth body))
        (c'.defineBody name parameters (Block.dedent c'.indentation depth body'))
  undefine {c c' : Context} {m : Line} {name : Text} : K.context c c' → K.measured m →
    m.content = '~' :: '-' :: name →
    Agree K.lax Eq K.context (c.undefine (Text.trim name)) (c'.undefine (Text.trim name))

/-! ### Actions that keep in step -/

/-- Two results of actions: both values, or two stops, in related contexts. -/
inductive Outcome (K : Coupling) {α α' : Type} (values : α → α' → Prop) :
    EStateM.Result Stop Context α → EStateM.Result Stop Context α' → Prop where
  | ok {a : α} {a' : α'} {c c' : Context} :
      values a a' → K.context c c' → Outcome K values (.ok a c) (.ok a' c')
  | error {s s' : Stop} {c c' : Context} :
      K.stop s c s' c' → Outcome K values (.error s c) (.error s' c')
  | excused {s : Stop} {c : Context} {r : EStateM.Result Stop Context α'} :
      K.lax → Outcome K values (.error s c) r

/-- Two actions keep in step: from related contexts they come to related results. -/
def Couples (K : Coupling) {α α' : Type} (values : α → α' → Prop) (x : CompileM α)
    (x' : CompileM α') : Prop :=
  ∀ c c', K.context c c' → K.Outcome values (x c) (x' c')

variable {K : Coupling} {α α' β β' : Type}

/-- An outcome and two actions that keep in step behind it. -/
theorem Outcome.bind {values : α → α' → Prop} {values' : β → β' → Prop} {x : CompileM α}
    {x' : CompileM α'} {f : α → CompileM β} {f' : α' → CompileM β'} {c c' : Context}
    (h : K.Outcome values (x c) (x' c'))
    (hf : ∀ a a', values a a' → K.Couples values' (f a) (f' a')) :
    K.Outcome values' ((x >>= f) c) ((x' >>= f') c') := by
  simp only [CompileM.bind_run]
  generalize x c = r at h
  generalize x' c' = r' at h
  cases h with
  | ok hv hc => exact hf _ _ hv _ _ hc
  | error hs => exact .error hs
  | excused hlax => exact .excused hlax

/-- A weaker relation between the values holds, too. -/
theorem Outcome.imp {values values' : α → α' → Prop} {r : EStateM.Result Stop Context α}
    {r' : EStateM.Result Stop Context α'} (h : K.Outcome values r r')
    (hvalues : ∀ a a', values a a' → values' a a') : K.Outcome values' r r' := by
  cases h with
  | ok hv hc => exact .ok (hvalues _ _ hv) hc
  | error hs => exact .error hs
  | excused hlax => exact .excused hlax

namespace Couples

/-- Actions that do nothing keep in step. -/
theorem pure {R : α → α' → Prop} {a : α} {a' : α'} (h : R a a') :
    K.Couples R (Pure.pure a) (Pure.pure a') := by
  intro c c' hc
  exact .ok h hc

/-- Actions one after the other keep in step if the second ones do for related values. -/
theorem bind {R : α → α' → Prop} {S : β → β' → Prop} {x : CompileM α}
    {x' : CompileM α'} {f : α → CompileM β} {f' : α' → CompileM β'}
    (hx : K.Couples R x x')
    (hf : ∀ a a', R a a' → K.Couples S (f a) (f' a')) :
    K.Couples S (x >>= f) (x' >>= f') := by
  intro c c' hc
  exact (hx c c' hc).bind hf

/-- What is made of related values is related. -/
theorem map {R : α → α' → Prop} {S : β → β' → Prop} {x : CompileM α} {x' : CompileM α'}
    (hx : K.Couples R x x') {f : α → β} {f' : α' → β'} (hf : ∀ a a', R a a' → S (f a) (f' a')) :
    K.Couples S (f <$> x) (f' <$> x') := by
  rw [map_eq_pure_bind, map_eq_pure_bind]
  exact hx.bind fun a a' h => .pure (hf a a' h)

/-- Branches keep in step if both do. -/
theorem ite {R : α → α' → Prop} {p : Prop} [Decidable p] {x y : CompileM α}
    {x' y' : CompileM α'} (h : p → K.Couples R x x') (h' : ¬ p → K.Couples R y y') :
    K.Couples R (if p then x else y) (if p then x' else y') := by
  by_cases hp : p
  · simpa only [hp, if_true] using h hp
  · simpa only [hp, if_false] using h' hp

/-- An action that looks at the context may use how the contexts are related. -/
theorem get_bind {R : α → α' → Prop} {f : Context → CompileM α}
    {f' : Context → CompileM α'}
    (h : ∀ c c', K.context c c' → K.Outcome R (f c c) (f' c' c')) :
    K.Couples R (get >>= f) (get >>= f') := by
  intro c c' hc
  exact h c c' hc

end Couples

/-! ### What is left -/

/-- What two readers leave of the lines that they were given. -/
structure Left (K : Coupling) (ls ls' rest rest' : List SourceLine) : Prop where
  lines : K.Lines rest rest'
  first : rest <:+ ls
  second : rest' <:+ ls'

/-- Nothing has been read yet. -/
theorem Lines.left {ls ls' : List SourceLine} (h : K.Lines ls ls') : K.Left ls ls' ls ls' :=
  ⟨h, List.suffix_rfl, List.suffix_rfl⟩

/-- What is left of what was left. -/
theorem Left.trans {ls ls' rest rest' last last' : List SourceLine}
    (h : K.Left ls ls' rest rest') (h' : K.Left rest rest' last last') :
    K.Left ls ls' last last' :=
  ⟨h'.lines, h'.first.trans h.first, h'.second.trans h.second⟩

/-- The rest behind a line that has been skipped to is left of the lines before. -/
theorem left_of_suffix {l l' : SourceLine} {ls ls' rest rest' : List SourceLine}
    (h : K.Lines rest rest') (hfirst : l :: rest <:+ ls) (hsecond : l' :: rest' <:+ ls') :
    K.Left ls ls' rest rest' ∧ rest.length < ls.length ∧ rest'.length < ls'.length :=
  ⟨⟨h, (List.suffix_cons l rest).trans hfirst, (List.suffix_cons l' rest').trans hsecond⟩,
    hfirst.length_le, hsecond.length_le⟩

section Laws

variable [K.Lawful]

/-- Two runs that fail for the same reason, in places that go together, keep in step. -/
theorem couples_failAt {values : α → α' → Prop} (cause : Cause) {n n' : Nat}
    {col col' : Option Nat} (hn : K.number n n') (hcol : Option.Rel K.column col col')
    (hown : cause.isOwn = true := by rfl) :
    K.Couples values (CompileM.failAt cause n col) (CompileM.failAt cause n' col') := by
  intro c c' hc
  rcases Lawful.fail hown hc hn hcol with hlax | hs
  · exact .excused hlax
  · exact .error hs

/-- A change keeps two runs in step if both take it or both refuse it. -/
theorem couples_change {f f' : Context → Except Cause Context} {n n' : Nat}
    (hn : K.number n n') {c c' : Context} (hc : K.context c c')
    (h : Agree K.lax Eq K.context (f c) (f' c'))
    (hown : ∀ cause, f c = .error cause → cause.isOwn = true) :
    K.Outcome Eq (CompileM.change n f c) (CompileM.change n' f' c') := by
  unfold CompileM.change
  generalize f c = x at h hown
  generalize f' c' = x' at h
  cases h with
  | ok hc₁ => exact .ok rfl hc₁
  | @error cause _ he =>
      subst he
      exact couples_failAt cause hn .none (hown cause rfl) c c' hc
  | excused hlax => exact .excused hlax

/-- Related lines are scanned alike. -/
theorem couples_scan {l l' : SourceLine} (hl : K.line l l') :
    K.Couples K.Measured (CompileM.scan l) (CompileM.scan l') := by
  intro c c' hc
  have h := Lawful.scan hc hl
  unfold CompileM.scan
  generalize l.scan c.indentation = x at h
  generalize l'.scan c'.indentation = x' at h
  cases h with
  | ok hm => exact .ok hm hc
  | error he =>
      obtain ⟨hfault, hn, hcol⟩ := he
      dsimp only
      rw [hfault]
      exact (couples_failAt _ hn (.some hcol)) c c' hc
  | excused hlax => exact .excused hlax

/-! ### Lines ahead -/

/-- No line that is related to another one is blank. -/
theorem isBlank_line_right {l l' : SourceLine} (hl : K.line l l') : l'.isBlank = false := by
  have hblank := Lawful.isBlank_line hl
  rw [SourceLine.isBlank, Bool.eq_false_iff, ne_eq, ← Text.trim_eq_nil_iff] at hblank ⊢
  rwa [Lawful.trim_line hl]

/-- Comments go together with comments. -/
theorem isSilent_line {l l' : SourceLine} (hl : K.line l l') : l'.isSilent = l.isSilent := by
  simp only [SourceLine.isSilent, Lawful.trim_line hl]

theorem isBlank_of_text {l l' : SourceLine} (h : l.isBlank = true) (htext : l'.text = l.text) :
    l'.isBlank = true := by
  rwa [SourceLine.isBlank, htext]

/-- What is skipped in front of a line includes blank lines. -/
theorem isSilent_of_isBlank {l : SourceLine} (h : l.isBlank = true) : l.isSilent = true := by
  rw [SourceLine.isSilent, Text.trim_eq_nil_iff.2 h]

/-- A line that nothing owns is measured alike in all units. -/
theorem scan_boundary {l : SourceLine} (h : l.IsBoundary) :
    l.isSilent = false ∧ l.isBlank = false ∧
      ∀ unit, ∃ m, l.scan unit = .ok m ∧ m.depth = 0 ∧ m.kind.isBoundary = true := by
  -- All three markers are read alike: none is blank, and none is that of a comment.
  have marked : ∀ c : Char, Text.isBlank c = false → c ≠ '>' →
      (∀ t, (LineKind.ofContent (c :: t)).isBoundary = true) → l.text.head? = some c →
      l.isSilent = false ∧ l.isBlank = false ∧
        ∀ unit, ∃ m, l.scan unit = .ok m ∧ m.depth = 0 ∧ m.kind.isBoundary = true := by
    intro c hblank hcomment hkind hc
    obtain ⟨n, text⟩ := l
    obtain ⟨t, rfl⟩ := List.head?_eq_some_iff.1 hc
    refine ⟨SourceLine.isSilent_of_head hblank hcomment n t, ?_, fun unit => ?_⟩
    · simp [SourceLine.isBlank, Text.allBlank, hblank]
    · obtain ⟨u, hu⟩ := Text.trimEnd_cons_of_not_isBlank hblank t
      refine ⟨⟨n, 0, 0, Text.trimEnd (c :: t)⟩, Indentation.scan_of_head hblank unit n t, rfl, ?_⟩
      rw [Line.kind, hu, hkind]
  rcases h with hc | hc | hc
  · exact marked '#' (by decide) (by decide) (fun _ => rfl) hc
  · exact marked '@' (by decide) (by decide) (fun _ => rfl) hc
  · exact marked '!' (by decide) (by decide) (fun _ => rfl) hc

/-- The first line of the tail that is not blank belongs to nobody. -/
theorem tail_head {head : SourceLine} {rest : List SourceLine}
    (h : skipBlank K.tail = head :: rest) : head.IsBoundary := by
  rcases Lawful.closes_tail (K := K) with hnil | ⟨head', rest', heq, hhead⟩
  · rw [hnil] at h
    cases h
  · obtain ⟨rfl, rfl⟩ := List.cons.inj (heq.symm.trans h)
    exact hhead

/-- The lines that two runs have before them when the first of each says something. -/
inductive Heads (K : Coupling) : List SourceLine → List SourceLine → Prop where
  | tail : Heads K [] (skipBlank K.tail)
  | both {l l' : SourceLine} {ls ls' : List SourceLine} :
      K.line l l' → K.Lines ls ls' → Heads K (l :: ls) (l' :: ls')

/-- Blank lines are skipped. -/
theorem skipSilent_of_isBlank {ls : List SourceLine} (h : ∀ l ∈ ls, l.isBlank = true)
    (rest : List SourceLine) : skipSilent (ls ++ rest) = skipSilent rest :=
  List.dropWhile_append_of_pos fun l hl => isSilent_of_isBlank (h l hl)

/-- A tail has no comments in front. -/
theorem skipSilent_tail : skipSilent K.tail = skipBlank K.tail := by
  have hblank : ∀ l ∈ K.tail.takeWhile (·.isBlank), l.isBlank = true :=
    List.all_eq_true.1 List.all_takeWhile
  have hsplit : K.tail = K.tail.takeWhile (·.isBlank) ++ skipBlank K.tail :=
    List.takeWhile_append_dropWhile.symm
  rw [hsplit, skipSilent_of_isBlank hblank, ← hsplit]
  cases h : skipBlank K.tail with
  | nil => rfl
  | cons head rest => simp [skipSilent, (scan_boundary (tail_head h)).1]

/-- What is left when lines are skipped: the lines that say something go together. -/
theorem Lines.skipSilent {ls ls' : List SourceLine} (h : K.Lines ls ls') :
    K.Heads (skipSilent ls) (skipSilent ls') := by
  -- on how the lines go together; each kind of pair is skipped in both runs, in one, or in none
  induction h with
  | tail =>
      rw [skipSilent_tail]
      exact .tail
  | @both l l' ls ls' hl hls ih =>
      cases hsilent : l.isSilent with
      | true =>
          have hsilent' : l'.isSilent = true := (isSilent_line hl).trans hsilent
          simpa [IndentMarkup.skipSilent, List.dropWhile_cons, hsilent, hsilent'] using ih
      | false =>
          have hsilent' : l'.isSilent = false := (isSilent_line hl).trans hsilent
          simpa [IndentMarkup.skipSilent, List.dropWhile_cons, hsilent, hsilent'] using .both hl hls
  | blank hblank htext _ _ ih =>
      have hblank' := isBlank_of_text hblank htext
      simpa [IndentMarkup.skipSilent, List.dropWhile_cons, isSilent_of_isBlank hblank,
        isSilent_of_isBlank hblank'] using ih
  | first _ hblank _ ih =>
      simpa [IndentMarkup.skipSilent, List.dropWhile_cons, isSilent_of_isBlank hblank] using ih
  | second _ hblank _ ih =>
      simpa [IndentMarkup.skipSilent, List.dropWhile_cons, isSilent_of_isBlank hblank] using ih

/-- The same goes for blank lines alone. -/
theorem Lines.skipBlank {ls ls' : List SourceLine} (h : K.Lines ls ls') :
    K.Heads (skipBlank ls) (skipBlank ls') := by
  -- the tail stays as it is, and a line that is not blank stops both runs
  induction h with
  | tail => exact .tail
  | both hl hls =>
      simpa [IndentMarkup.skipBlank, List.dropWhile_cons, Lawful.isBlank_line hl,
        isBlank_line_right hl] using .both hl hls
  | blank hblank htext _ _ ih =>
      have hblank' := isBlank_of_text hblank htext
      simpa [IndentMarkup.skipBlank, List.dropWhile_cons, hblank, hblank'] using ih
  | first _ hblank _ ih =>
      simpa [IndentMarkup.skipBlank, List.dropWhile_cons, hblank] using ih
  | second _ hblank _ ih =>
      simpa [IndentMarkup.skipBlank, List.dropWhile_cons, hblank] using ih

/-- The next lines of two runs: none, or measured alike; the second run may have come to
its tail. -/
inductive Ahead (K : Coupling) (ls ls' : List SourceLine) :
    Option (Line × List SourceLine) → Option (Line × List SourceLine) → Prop where
  | none : skipBlank K.tail = [] → Ahead K ls ls' none none
  | heading {m' : Line} {rest' : List SourceLine} : skipBlank K.tail ≠ [] → m'.depth = 0 →
      Ahead K ls ls' none (some (m', rest'))
  | some {m m' : Line} {rest rest' : List SourceLine} : K.Measured m m' →
      K.Left ls ls' rest rest' → rest.length < ls.length → rest'.length < ls'.length →
      Ahead K ls ls' (some (m, rest)) (some (m', rest'))

/-- The next lines of two runs keep in step. -/
theorem couples_next {ls ls' : List SourceLine} (h : K.Lines ls ls') :
    K.Couples (K.Ahead ls ls') (Block.next ls) (Block.next ls') := by
  have hfirst : skipSilent ls <:+ ls := List.dropWhile_suffix _
  have hsecond : skipSilent ls' <:+ ls' := List.dropWhile_suffix _
  have hheads := h.skipSilent
  unfold Block.next
  generalize skipSilent ls = heads at hheads hfirst
  generalize skipSilent ls' = heads' at hheads hsecond
  cases hheads with
  -- the first run is at its end, and the second one may have a heading before it
  | tail =>
      intro c c' hc
      cases htail : skipBlank K.tail with
      | nil => exact .ok (.none htail) hc
      | cons head rest =>
          obtain ⟨m, hm, hdepth, -⟩ := (scan_boundary (tail_head htail)).2.2 c'.indentation
          have hrun : CompileM.scan head c' = .ok m c' := by rw [CompileM.scan, hm]
          dsimp only
          rw [CompileM.bind_run_ok hrun]
          exact .ok (.heading (by simp [htail]) hdepth) hc
  | both hl hls =>
      -- both runs scan their lines, and what is behind these is left
      obtain ⟨hleft, hlt, hlt'⟩ := left_of_suffix hls hfirst hsecond
      refine .bind (couples_scan hl) ?_
      intro m m' hm
      exact .pure (.some hm hleft hlt hlt')

/-! ### Lines below a line -/

/-- Nothing of a tail lies below a line. -/
theorem takeDeeper_tail (unit : Indentation) (depth : Nat) :
    Block.takeDeeper unit depth K.tail = .ok ([], K.tail) := by
  -- on the tail: blank lines are taken back, and the first other line is at the margin
  have hbehind : ∀ ls, skipBlank ls = skipBlank K.tail →
      Block.takeDeeper unit depth ls = .ok ([], ls) := by
    intro ls
    induction ls with
    | nil => exact fun _ => rfl
    | cons l ls ih =>
        intro hskip
        cases hblank : l.isBlank with
        | true =>
            simp only [skipBlank, List.dropWhile_cons, hblank, if_true] at hskip
            simp [Block.takeDeeper, hblank, ih hskip]
        | false =>
            simp only [skipBlank, List.dropWhile_cons, hblank, Bool.false_eq_true,
              if_false] at hskip
            obtain ⟨m, hm, hdepth, -⟩ := (scan_boundary (tail_head hskip.symm)).2.2 unit
            simp [Block.takeDeeper, hblank, hm, hdepth]
  exact hbehind K.tail rfl

/-- What two runs take below their lines, and what they leave. -/
theorem agree_takeDeeper {c c' : Context} (hc : K.context c c') {ls ls' : List SourceLine}
    (h : K.Lines ls ls') (depth : Nat) :
    Agree K.lax
      (fun e e' => e'.fault = e.fault ∧ K.number e.line e'.line ∧ K.column e.column e'.column)
      (fun r r' => K.Bodies c.indentation c'.indentation depth r.1 r'.1 ∧
        K.Left ls ls' r.2 r'.2)
      (Block.takeDeeper c.indentation depth ls) (Block.takeDeeper c'.indentation depth ls') := by
  -- on how the lines go together; where both runs have a line, both take it or both stop there
  induction h with
  | tail =>
      rw [takeDeeper_tail]
      exact .ok ⟨.nil, Lines.tail.left⟩
  | @both l l' ls ls' hl hls ih =>
      have hscan := Lawful.scan hc hl
      simp only [Block.takeDeeper, Lawful.isBlank_line hl, isBlank_line_right hl,
        -- both lines are measured alike, so both are deeper or neither is
        Bool.false_eq_true, if_false]
      generalize hx : l.scan c.indentation = x at hscan
      generalize hx' : l'.scan c'.indentation = x' at hscan
      cases hscan with
      | error he => exact .error he
      | excused hlax => exact .excused hlax
      | @ok m m' hm =>
          by_cases hdepth : m.depth ≤ depth
          · have hdepth' : m'.depth ≤ depth := hm.depth ▸ hdepth
            simp only [hdepth, hdepth', if_true]
            exact .ok ⟨.nil, (Lines.both hl hls).left⟩
          · have hdepth' : ¬ m'.depth ≤ depth := hm.depth ▸ hdepth
            simp only [hdepth, hdepth', if_false]
            generalize Block.takeDeeper c.indentation depth ls = y at ih
            generalize Block.takeDeeper c'.indentation depth ls' = y' at ih
            cases ih with
            | error he => exact .error he
            | excused hlax => exact .excused hlax
            | ok hr =>
                obtain ⟨hbodies, hleft⟩ := hr
                exact .ok ⟨.both hl hx hx' hm (Nat.lt_of_not_le hdepth) hbodies,
                  hleft.lines, hleft.first.trans (List.suffix_cons _ _),
                  hleft.second.trans (List.suffix_cons _ _)⟩
  | @blank l l' ls ls' hblank htext hnumber hls ih =>
      have hblank' := isBlank_of_text hblank htext
      -- a blank line counts only if something of the body comes behind it
      simp only [Block.takeDeeper, hblank, hblank', htext, if_true]
      generalize hy : Block.takeDeeper c.indentation depth ls = y at ih
      generalize hy' : Block.takeDeeper c'.indentation depth ls' = y' at ih
      cases ih with
      | error he => exact .error he
      | excused hlax => exact .excused hlax
      | @ok r r' hr =>
          obtain ⟨body, rest⟩ := r
          obtain ⟨body', rest'⟩ := r'
          obtain ⟨hbodies, hleft⟩ := hr
          by_cases hbody : body = [] <;> by_cases hbody' : body' = []
          · subst hbody hbody'
            obtain rfl := Block.takeDeeper_nil hy
            obtain rfl := Block.takeDeeper_nil hy'
            exact .ok ⟨.nil, (Lines.blank hblank htext hnumber hls).left⟩
          · have hloose : K.loose := hbodies.nil_iff.resolve_right fun h => hbody' (h.1 hbody)
            subst hbody
            obtain rfl := Block.takeDeeper_nil hy
            simp only [if_true, hbody', if_false]
            exact .ok ⟨.second hloose hblank hbodies, .first hloose hblank hleft.lines,
              List.suffix_rfl, hleft.second.trans (List.suffix_cons _ _)⟩
          · have hloose : K.loose := hbodies.nil_iff.resolve_right fun h => hbody (h.2 hbody')
            subst hbody'
            obtain rfl := Block.takeDeeper_nil hy'
            simp only [if_true, hbody, if_false]
            exact .ok ⟨.first hloose hblank hbodies, .second hloose hblank' hleft.lines,
              hleft.first.trans (List.suffix_cons _ _), List.suffix_rfl⟩
          · simp only [hbody, hbody', if_false]
            exact .ok ⟨.blank hblank hbodies, hleft.lines,
              hleft.first.trans (List.suffix_cons _ _), hleft.second.trans (List.suffix_cons _ _)⟩
  -- a blank line of one run alone belongs to its body, or is left with the rest
  | @first l ls ls' hloose hblank hls ih =>
      simp only [Block.takeDeeper, hblank, if_true]
      generalize hy : Block.takeDeeper c.indentation depth ls = y at ih
      generalize Block.takeDeeper c'.indentation depth ls' = y' at ih
      cases ih with
      | error he => exact .error he
      | excused hlax => exact .excused hlax
      | @ok r r' hr =>
          obtain ⟨body, rest⟩ := r
          obtain ⟨hbodies, hleft⟩ := hr
          by_cases hbody : body = []
          · subst hbody
            obtain rfl := Block.takeDeeper_nil hy
            simp only [if_true]
            exact .ok ⟨hbodies, .first hloose hblank hleft.lines, List.suffix_rfl, hleft.second⟩
          · simp only [hbody, if_false]
            exact .ok ⟨.first hloose hblank hbodies, hleft.lines,
              hleft.first.trans (List.suffix_cons _ _), hleft.second⟩
  | @second l' ls ls' hloose hblank hls ih =>
      simp only [Block.takeDeeper, hblank, if_true]
      generalize Block.takeDeeper c.indentation depth ls = y at ih
      generalize hy' : Block.takeDeeper c'.indentation depth ls' = y' at ih
      cases ih with
      | error he => exact .error he
      | excused hlax => exact .excused hlax
      | @ok r r' hr =>
          obtain ⟨body', rest'⟩ := r'
          obtain ⟨hbodies, hleft⟩ := hr
          by_cases hbody : body' = []
          · subst hbody
            obtain rfl := Block.takeDeeper_nil hy'
            simp only [if_true]
            exact .ok ⟨hbodies, .second hloose hblank hleft.lines, hleft.first, List.suffix_rfl⟩
          · simp only [hbody, if_false]
            exact .ok ⟨.second hloose hblank hbodies, hleft.lines, hleft.first,
              hleft.second.trans (List.suffix_cons _ _)⟩

end Laws

end Coupling

end IndentMarkup
