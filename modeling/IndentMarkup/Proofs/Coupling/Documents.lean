import IndentMarkup.Proofs.Coupling.Readers

/-!
Sources, inclusions and expansions keep two runs in step.

The top level of a source, the files that it includes and the templates that it expands
change what two runs have in common: inside a template another line number counts, inside
a file another file is open. Each statement here takes the coupling outside and the one
inside, and says what has to lead from one to the other.

* `couples_readSource` — the lines of a source.
* `couples_readInclusion` — an included file.
* `couples_expandWith` — an expansion.
-/

namespace IndentMarkup

/-- The target on the line of an inclusion leads from `base` to the file. -/
def Loader.Names (loader : Loader) (base : Text) (l : Line) (file : Location) : Prop :=
  ∃ path, Path.sourceOf (Text.trim (l.content.drop 1)) = .ok path ∧
    loader.resolve (Path.join base path) = .ok file

/-- The line is one that includes a file at the top level of a source. -/
def Line.IsInclusion (l : Line) : Prop := l.depth = 0 ∧ l.kind = .inclusion

namespace Coupling

variable {K : Coupling} {e e' : Expander}

/-- What a coupling owes besides for the lines of the top level. -/
class TopLevel (K : Coupling) : Prop where
  nextId {c c' : Context} : K.context c c' → c'.nextId = c.nextId
  opened {c c' : Context} (n : Nat) : K.context c c' →
    K.context { c with nextId := n, hasStructure := true }
      { c' with nextId := n, hasStructure := true }
  topDirective {c c' : Context} {m m' : Line} : K.context c c' → K.Measured m m' →
    Agree K.lax Eq K.context (c.readDirective m) (c'.readDirective m')

/-! ### The top level of a source -/

section Source

variable [K.Lawful] [K.TopLevel] {x x' : Line → CompileM (List Tab)}

omit [K.Lawful] in
/-- Sections take the same numbers in both runs. -/
theorem couples_openSection (o : Outline) (heading : Heading) (hasTitle : Bool) :
    K.Couples Eq (Document.openSection o heading hasTitle)
      (Document.openSection o heading hasTitle) := by
  intro c c' hc
  unfold Document.openSection
  rw [TopLevel.nextId hc]
  exact .ok rfl (TopLevel.opened _ hc)

omit [K.Lawful] in
/-- So do tabs. -/
theorem couples_openTab (o : Outline) (heading : Heading) :
    K.Couples Eq (Document.openTab o heading) (Document.openTab o heading) := by
  intro c c' hc
  unfold Document.openTab
  rw [TopLevel.nextId hc]
  exact .ok rfl (TopLevel.opened _ hc)

omit [K.TopLevel] in
/-- Elements go to the open section in both runs, or to none. -/
theorem couples_readElements (he : K.Expands e e') (o : Outline) {m m' : Line}
    (hm : K.Measured m m') {ls ls' : List SourceLine} (hls : K.Lines ls ls') :
    K.Couples (K.Read ls ls') (Document.readElements e o m ls)
      (Document.readElements e' o m' ls') := by
  unfold Document.readElements
  refine .bind (couples_readLine he hm hls) ?_
  intro result result' hresult
  obtain ⟨es, rest⟩ := result
  obtain ⟨es', rest'⟩ := result'
  obtain ⟨rfl, hleft⟩ := hresult
  refine .ite (fun _ => .pure ⟨rfl, hleft⟩) ?_
  intro _
  dsimp only
  cases o.push? es' with
  | none => exact couples_failAt _ hm.number .none
  | some o' => exact .pure ⟨rfl, hleft⟩

/-- Each kind of line at the top keeps two runs in step. -/
theorem couples_readTopLine (he : K.Expands e e')
    (hx : ∀ m m', K.Measured m m' → m.IsInclusion → K.Couples Eq (x m) (x' m')) (o : Outline)
    {m m' : Line} (hm : K.Measured m m') {ls ls' : List SourceLine} (hls : K.Lines ls ls') :
    K.Couples (K.Read ls ls') (Document.readLine e x o m ls)
      (Document.readLine e' x' o m' ls') := by
  unfold Document.readLine
  rw [hm.depth, hm.kind, hm.content]
  refine .ite (fun _ => couples_failAt _ hm.number .none) ?_
  intro hmargin
  cases hkind : m.kind with
  | sectionStart =>
      refine .bind (couples_heading he hm _) ?_
      intro heading heading' h
      subst h
      refine .bind (couples_openSection o heading _) ?_
      intro o₁ o₁' h
      exact .pure ⟨h.symm, hls.left⟩
  | tabStart =>
      refine .bind (couples_heading he hm _) ?_
      intro heading heading' h
      subst h
      refine .bind (couples_openTab o heading) ?_
      intro o₁ o₁' h
      exact .pure ⟨h.symm, hls.left⟩
  | directive =>
      apply Couples.bind (R := Eq) _ (fun _ _ _ => .pure ⟨rfl, hls.left⟩)
      intro c c' hc
      exact couples_change hm.number hc (TopLevel.topDirective hc hm)
        fun _ => Context.isOwn_of_readDirective
  | inclusion =>
      refine .bind (hx m m' hm ⟨Nat.eq_zero_of_not_pos hmargin, hkind⟩) ?_
      intro tabs tabs' h
      exact .pure ⟨by rw [h], hls.left⟩
  | _ => exact couples_readElements he o hm hls

/-- The lines of two sources that go together give the same outline. -/
theorem couples_readTop (htail : K.tail = []) (he : K.Expands e e')
    (hx : ∀ m m', K.Measured m m' → m.IsInclusion → K.Couples Eq (x m) (x' m'))
    {most most' : Nat} {ls ls' : List SourceLine} (hmost : ls.length ≤ most)
    (hmost' : ls'.length ≤ most') :
    ∀ o, K.Lines ls ls' → K.Couples Eq (Document.readWithin e x most o ls)
      (Document.readWithin e' x' most' o ls') := by
  -- without lines a source is read to its end, whatever the bound
  have nothing {e : Expander} {x : Line → CompileM (List Tab)} (most : Nat) (o : Outline) :
      Document.readWithin e x most o [] = pure o := by
    cases most <;> rfl
  refine bounded_induction (f := fun most ls o => Document.readWithin e x most o ls)
    (g := fun most ls o => Document.readWithin e' x' most o ls)
    (motive := fun ls ls' y y' => ∀ o, K.Lines ls ls' → K.Couples Eq (y o) (y' o))
    ?_ ?_ ?_ hmost hmost'
  · funext o
    simp only [nothing]
  · funext o
    simp only [nothing]
  · intro most most' ls ls' ih o hls
    simp only [Document.readWithin]
    refine .bind (couples_next hls) ?_
    intro found found' hfound
    cases hfound with
    | none => exact .pure rfl
    | heading hne _ => exact absurd (by rw [htail]; rfl) hne
    -- without a tail both runs have a line or none has
    | some hm hrest hlt hlt' =>
        refine .bind (couples_readTopLine he hx o hm hrest.lines) ?_
        intro result result' hresult
        obtain ⟨houtline, hleft⟩ := hresult
        have hsize := hleft.first.length_le
        have hsize' := hleft.second.length_le
        rw [houtline]
        exact ih _ _ (by omega) (by omega) _ hleft.lines

/-- Two sources are read alike if their lines go together and their inclusions are read alike. -/
theorem couples_readSource_of_inclusions (htail : K.tail = []) (he : K.Expands e e')
    (hx : ∀ m m', K.Measured m m' → m.IsInclusion → K.Couples Eq (x m) (x' m'))
    {source source' : Text}
    (hls : K.Lines (SourceLine.ofSource source) (SourceLine.ofSource source')) :
    K.Couples Eq (Document.readSource e x source) (Document.readSource e' x' source') := by
  refine .bind (couples_readTop htail he hx (Nat.le_refl _) (Nat.le_refl _) ∅ hls) ?_
  intro o o' h
  rw [h]
  exact .pure rfl

/-- The inclusions may be given for all lines. -/
theorem couples_readSource (htail : K.tail = []) (he : K.Expands e e')
    (hx : ∀ m m', K.Measured m m' → K.Couples Eq (x m) (x' m')) {source source' : Text}
    (hls : K.Lines (SourceLine.ofSource source) (SourceLine.ofSource source')) :
    K.Couples Eq (Document.readSource e x source) (Document.readSource e' x' source') :=
  couples_readSource_of_inclusions htail he (fun m m' hm _ => hx m m' hm) hls

end Source

/-! ### Files -/

/-- The coupling `J` holds while a file is open where `K` holds before and after. -/
structure Opens (K J : Coupling) (file : Location) : Prop where
  enter {c c' : Context} : K.context c c' → file ∉ c.openFiles →
    J.context (c.openFile file) (c'.openFile file)
  leave {c c' : Context} : J.context c c' → K.context c.closeFile c'.closeFile
  stop {s s' : Stop} {c c' : Context} : J.stop s c s' c' →
    K.stop s c.closeFile s' c'.closeFile
  lax : J.lax → K.lax

/-- What is done while the same file is open in both runs keeps them in step. -/
theorem Opens.couples_whileOpen {J : Coupling} {file : Location} (h : Opens K J file)
    {α : Type} {values : α → α → Prop} {x x' : CompileM α} (hx : J.Couples values x x')
    {c c' : Context} (hc : K.context c c') (hfile : file ∉ c.openFiles) :
    K.Outcome values (Document.whileOpen file x c) (Document.whileOpen file x' c') := by
  have hx := hx _ _ (h.enter hc hfile)
  unfold Document.whileOpen
  generalize x (c.openFile file) = r at hx
  generalize x' (c'.openFile file) = r' at hx
  cases hx with
  | ok hv hc => exact .ok hv (h.leave hc)
  | error hs => exact .error (h.stop hs)
  | excused hlax => exact .excused (h.lax hlax)

/-- Two runs read an included file alike if their loaders find the same files and these
have sources that are read alike. A run that is excused when it fails may have the file open
alone. -/
theorem couples_readInclusion_between [K.Lawful] {J : Location → Coupling}
    {loader loader' : Loader} (hresolve : ∀ path, loader'.resolve path = loader.resolve path)
    {base : Text} {m m' : Line} (hm : K.Measured m m')
    (hopened : ∀ c c' file, K.context c c' → loader.Names base m file →
      c'.openFiles = c.openFiles ∨ K.lax ∧ (file ∈ c'.openFiles → file ∈ c.openFiles))
    (hopens : ∀ file, loader.Names base m file → Opens K (J file) file)
    {x x' : Text → Text → CompileM (List Tab)}
    (hload : ∀ c c' file, K.context c c' → loader.Names base m file → file ∉ c.openFiles →
      Agree K.lax Eq (fun source source' =>
          (J file).Couples Eq (x file.parent.text source) (x' file.parent.text source'))
        (loader.load file) (loader'.load file)) :
    K.Couples Eq (Document.readInclusion loader x base m)
      (Document.readInclusion loader' x' base m') := by
  unfold Document.readInclusion
  rw [hm.content]
  refine .ite (fun _ => couples_failAt _ hm.number .none) ?_
  intro _
  -- the target of both lines is the same, so it is refused in both runs or leads both to one file
  cases hpath : Path.sourceOf (Text.trim (m.content.drop 1)) with
  | error found => exact couples_failAt _ hm.number .none
  | ok path =>
      dsimp only
      rw [hresolve]
      cases hfile : loader.resolve (Path.join base path) with
      | error err => exact couples_failAt _ hm.number .none
      | ok file =>
          have hnames : loader.Names base m file := ⟨path, hpath, hfile⟩
          apply Couples.get_bind
          intro c c' hc
          -- is the file open already? if both runs agree on that, both refuse it
          by_cases hmem : file ∈ c.openFiles
          · simp only [if_pos hmem]
            rcases hopened c c' file hc hnames with heq | ⟨hlax, -⟩
            · rw [heq]
              simp only [if_pos hmem]
              exact (couples_failAt _ hm.number .none) c c' hc
            · exact .excused hlax
          -- a file that is not open in the first run is not open in the second one either
          · have hmem' : file ∉ c'.openFiles := by
              rcases hopened c c' file hc hnames with heq | ⟨-, hless⟩
              · rwa [heq]
              · exact fun hin => hmem (hless hin)
            simp only [if_neg hmem, if_neg hmem']
            have hsource := hload c c' file hc hnames hmem
            generalize loader.load file = found at hsource
            generalize loader'.load file = found' at hsource
            cases hsource with
            | error herr =>
                subst herr
                exact (couples_failAt _ hm.number .none) c c' hc
            | excused hlax => exact .excused hlax
            | ok hread => exact (hopens file hnames).couples_whileOpen hread hc hmem

/-- Two runs that have the same files open read an included file alike. -/
theorem couples_readInclusion [K.Lawful] {J : Location → Coupling}
    (hopened : ∀ c c', K.context c c' → c'.openFiles = c.openFiles)
    (hopens : ∀ file, Opens K (J file) file) (loader : Loader)
    {x x' : Text → Text → CompileM (List Tab)}
    (hx : ∀ file source, loader.load file = .ok source →
      (J file).Couples Eq (x file.parent.text source) (x' file.parent.text source))
    (base : Text) {m m' : Line} (hm : K.Measured m m') :
    K.Couples Eq (Document.readInclusion loader x base m)
      (Document.readInclusion loader x' base m') := by
  apply couples_readInclusion_between (fun _ => rfl) hm
    (fun c c' _ hc _ => .inl (hopened c c' hc)) fun file _ => hopens file
  intro c c' file _ _ _
  cases hload : loader.load file with
  | error err => exact .error rfl
  | ok source => exact .ok (hx file source hload)

/-! ### Expansions -/

/-- The coupling `J` holds while a template is expanded where `K` holds before and after:
the same calls have bodies, and the bodies go together. -/
structure Expanding (K J : Coupling) (name : Text) : Prop where
  enter {c c' : Context} {n : Nat} (values : List Text) :
    (∀ v ∈ values, K.Allows n v) → K.context c c' →
    Agree K.lax Eq
      (fun source source' => J.context (c.enter name) (c'.enter name) ∧
        J.Lines (SourceLine.ofSource source) (SourceLine.ofSource source'))
      (c.bodyOfCall name values) (c'.bodyOfCall name values)
  leave {c c' : Context} : J.context c c' → K.context c.leave c'.leave
  stop {s s' : Stop} {c c' : Context} {n n' : Nat} : J.stop s c s' c' → K.number n n' →
    K.char n '~' → K.stop (s.inTemplate name n) c.leave (s'.inTemplate name n') c'.leave
  lax : J.lax → K.lax

/-- Two expansions keep in step if the runs inside the template do. -/
theorem couples_expandWith [K.Lawful] {J : Coupling} [J.Lawful] {name : Text}
    (htail : J.tail = []) (hexpanding : Expanding K J name) (he : J.Expands e e')
    {n n' : Nat} (hn : K.number n n') (hcall : K.char n '~') {values : List Text}
    (hvalues : ∀ v ∈ values, K.Allows n v) :
    K.Couples Eq (expandWith e name values n) (expandWith e' name values n') := by
  intro c c' hc
  have h := hexpanding.enter values hvalues hc
  unfold expandWith
  generalize hbody : c.bodyOfCall name values = body at h
  generalize c'.bodyOfCall name values = body' at h
  -- the call is refused in both runs alike, or both read the body
  cases h with
  | error hcause =>
      subst hcause
      exact couples_failAt _ hn .none (Context.isOwn_of_bodyOfCall hbody) c c' hc
  | excused hlax => exact .excused hlax
  | ok hbodies =>
      obtain ⟨hinside, hlines⟩ := hbodies
      have hread := couples_readFragment he htail hlines _ _ hinside
      dsimp only
      generalize Block.readFragment e _ (c.enter name) = r at hread
      generalize Block.readFragment e' _ (c'.enter name) = r' at hread
      cases hread with
      | ok hv hc₁ => exact .ok hv (hexpanding.leave hc₁)
      | error hs => exact .error (hexpanding.stop hs hn hcall)
      | excused hlax => exact .excused (hexpanding.lax hlax)

end Coupling

end IndentMarkup
