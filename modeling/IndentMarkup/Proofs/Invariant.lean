import IndentMarkup.Proofs.Coupling.Documents

/-!
What readers keep.

An invariant is a property of contexts that survives the changes a line of source can ask
for, together with what it promises of a run that stops. A run coupled with itself shows
that the readers keep it, so the readers are not walked through again.

* `Invariant` — the property and the few changes that it has to survive.
* `Invariant.Keeps` — an action keeps the invariant.
* `Invariant.rigid` — the invariants of what only the lines of the top level change.
* `keeps_heading`, `keeps_readLine` — the readers of elements do.
* `keeps_readSource`, `keeps_readInclusion` — the readers of files do.
* `keeps_expandWith` — an expansion does if the readers of the body do.
-/

namespace IndentMarkup

open Coupling

/-- A property of contexts, and what is promised of runs that stop. -/
structure Invariant where
  context : Context → Prop
  /-- The lines that are read. -/
  source : SourceLine → Prop
  /-- These lines when they are measured. -/
  line : Line → Prop
  /-- Their numbers. -/
  number : Nat → Prop
  /-- The numbers of those that can call a template. -/
  call : Nat → Prop
  stop : Stop → Context → Prop
  line_of_source {unit : Indentation} {l : SourceLine} {m : Line} : source l →
    l.scan unit = .ok m → line m
  number_of_source {l : SourceLine} : source l → number l.number
  number_of_line {m : Line} : line m → number m.number
  number_of_call {n : Nat} : call n → number n
  call_of_line {m : Line} : line m → '~' ∈ m.content → call m.number
  fail {c : Context} {n : Nat} {cause : Cause} (column : Option Nat) : cause.isOwn = true →
    context c → number n → stop (.error (c.errorAt cause n column)) c
  directive {c after : Context} {m : Line} : context c → line m →
    c.readDirective m = .ok after → context after
  addClass {c after : Context} {name declarations : Text} {ls : List SourceLine} : context c →
    (∀ l ∈ ls, l.isBlank = false ∧ source l) →
    declarations = Text.join ['\n'] (ls.map fun l => Text.trim l.text) →
    c.addClass name declarations = .ok after → context after
  define {c after : Context} {signature name body : Text} {parameters : List Text} :
    context c → Text.words signature = name :: parameters →
    c.defineBody name parameters body = .ok after → context after
  undefine {c after : Context} {name : Text} : context c → c.undefine name = .ok after →
    context after

namespace Invariant

/-- The action keeps the invariant, gives only such values, and makes good the promise
where it stops. -/
def Keeps {α : Type} (I : Invariant) (values : α → Prop) (x : CompileM α) : Prop :=
  ∀ c, I.context c → match x c with
    | .ok a after => values a ∧ I.context after
    | .error s after => I.stop s after

/-- The expander keeps the invariant on calls from lines that can call a template. -/
def Expands (I : Invariant) (e : Expander) : Prop :=
  ∀ name values n, I.call n → I.Keeps (fun _ => True) (e name values n)

/-- A property of what no line of an element changes is an invariant, together with a
promise that all errors on such contexts make good. -/
def rigid (p : Context → Prop) (promise : Stop → Prop)
    (hp : ∀ c metadata templates indentation, p c →
      p { c with metadata, templates, indentation })
    (hpromise : ∀ c cause n column, p c → promise (.error (c.errorAt cause n column))) :
    Invariant where
  context := p
  source _ := True
  line _ := True
  number _ := True
  call _ := True
  stop s _ := promise s
  line_of_source _ _ := trivial
  number_of_source _ := trivial
  number_of_line _ := trivial
  number_of_call _ := trivial
  call_of_line _ _ := trivial
  fail _ _ hc _ := hpromise _ _ _ _ hc
  directive hc _ h := by
    obtain ⟨-, metadata, indentation, rfl⟩ := Context.readDirective_ok h
    exact hp _ _ _ _ hc
  addClass hc _ _ h := by
    obtain ⟨metadata, -, rfl⟩ := Context.addClass_ok h
    exact hp _ _ _ _ hc
  define hc _ h := by
    obtain ⟨m, -, -, rfl⟩ := Context.defineBody_ok h
    exact hp _ _ _ _ hc
  undefine hc h := by
    obtain ⟨-, rfl⟩ := Context.undefine_ok h
    exact hp _ _ _ _ hc

/-! ### A run beside itself -/

/-- A run beside itself. -/
def coupling (I : Invariant) : Coupling where
  context c c' := c' = c ∧ I.context c
  number n n' := n' = n ∧ I.number n
  column c c' := c' = c
  line l l' := l' = l ∧ l.isBlank = false ∧ I.source l
  measured := I.line
  stop s c s' c' := s' = s ∧ c' = c ∧ I.stop s c
  lax := False
  loose := False
  tail := []
  char n c := c = '~' → I.call n

variable {I : Invariant} {α : Type} {e : Expander}

/-- An action that keeps in step with itself keeps the invariant. -/
theorem keeps_of_couples {values : α → α → Prop} {post : α → Prop} {x : CompileM α}
    (h : I.coupling.Couples values x x) (hpost : ∀ a, values a a → post a) :
    I.Keeps post x := by
  intro c hc
  have hself := h c c ⟨rfl, hc⟩
  -- the second run is the first one, so what is said of both ends is said of one
  generalize hr : x c = r at hself
  cases r with
  | ok a after =>
      cases hself with
      | ok hv hafter =>
          constructor
          · exact hpost a hv
          · exact hafter.2
  | error s after =>
      cases hself with
      | error hs => exact hs.2.2
      | excused hlax => exact hlax.elim

/-- An action that keeps the invariant keeps in step with itself. -/
theorem couples_of_keeps {post : α → Prop} {x : CompileM α} (h : I.Keeps post x) :
    I.coupling.Couples Eq x x := by
  rintro _ c ⟨rfl, hc⟩
  have hself := h c hc
  generalize x c = r at hself
  cases r with
  | ok a after => exact .ok rfl ⟨rfl, hself.2⟩
  | error s after => exact .error ⟨rfl, rfl, hself⟩

/-- Two actions that keep in step are the same where the invariant holds. -/
theorem eq_of_couples {x x' : CompileM α} (h : I.coupling.Couples Eq x x')
    {c : Context} (hc : I.context c) : x' c = x c := by
  have hrun := h c c ⟨rfl, hc⟩
  generalize x c = r at hrun ⊢
  generalize x' c = r' at hrun ⊢
  cases hrun with
  | ok hv hafter =>
      cases hv
      cases hafter.1
      rfl
  | error hs =>
      obtain ⟨rfl, rfl, -⟩ := hs
      rfl
  | excused hlax => exact hlax.elim

/-- Expanders that keep the invariant may be asked by the readers. -/
theorem Expands.coupled (he : I.Expands e) : I.coupling.Expands e e := by
  rintro name values _ n ⟨rfl, -⟩ hcall -
  exact couples_of_keeps (he name values n (hcall rfl))

/-- A change that keeps the invariant keeps in step with itself. -/
theorem agree_self {x : Except Cause Context}
    (h : ∀ after, x = .ok after → I.context after) :
    Agree I.coupling.lax Eq I.coupling.context x x := by
  cases x with
  | error cause => exact .error rfl
  | ok after => exact .ok ⟨rfl, h after rfl⟩

/-- A line goes together with no other one. -/
theorem measured_eq {m m' : Line} (h : I.coupling.Measured m m') : m' = m := by
  obtain ⟨hdepth, hcontent, ⟨hnumber, -⟩, hwidth, -⟩ := h
  cases m
  cases m'
  simp_all [coupling]

/-- All lines of a source go together with themselves. -/
theorem lines_self {ls : List SourceLine} (h : ∀ l ∈ ls, I.source l) :
    I.coupling.Lines ls ls := by
  induction ls with
  | nil => exact .tail
  | cons l ls ih =>
      have hls := ih fun l' hl' => h l' (List.mem_cons_of_mem l hl')
      cases hblank : l.isBlank with
      | true => exact .blank hblank rfl ⟨rfl, I.number_of_source (h l List.mem_cons_self)⟩ hls
      | false => exact .both ⟨rfl, hblank, h l List.mem_cons_self⟩ hls

/-- So does a line that is measured. -/
theorem measured_self {m : Line} (h : I.line m) : I.coupling.Measured m m :=
  ⟨rfl, rfl, ⟨rfl, I.number_of_line h⟩, rfl, h⟩

instance : I.coupling.Lawful where
  column_map f := by
    rintro _ n rfl
    rfl
  trim_line hl := by rw [hl.1]
  isBlank_line hl := hl.2.1
  closes_tail := .inl rfl
  char_of_measured hm c hc heq := I.call_of_line hm (heq ▸ hc)
  char_of_escape := by
    rintro n c reference hreference d hd rfl
    exact absurd hd (Text.notMem_of_escapable (by decide) hreference)
  scan := by
    rintro _ c _ l ⟨rfl, hc⟩ ⟨rfl, -, hl⟩
    cases hscan : l.scan c.indentation with
    | error err =>
        have hn := Indentation.line_of_scan hscan ▸ I.number_of_source hl
        exact .error ⟨rfl, ⟨rfl, hn⟩, rfl⟩
    | ok m => exact .ok (measured_self (I.line_of_source hl hscan))
  fail := by
    rintro _ c _ n col col' cause hown ⟨rfl, hc⟩ ⟨rfl, hn⟩ hcol
    cases hcol with
    | none => exact .inr ⟨rfl, rfl, I.fail _ hown hc hn⟩
    | some hcol =>
        cases hcol
        exact .inr ⟨rfl, rfl, I.fail _ hown hc hn⟩
  template name hc := .inr (by rw [hc.1])
  expanding hc := .inr (by rw [hc.1])
  directive := by
    rintro _ c m m' ⟨rfl, hc⟩ - hm
    rw [measured_eq hm]
    exact agree_self fun after h => I.directive hc hm.allowed h
  addClass name declarations := by
    rintro ⟨rfl, hc⟩ ⟨ls, hls, hdeclarations⟩
    refine agree_self fun after h => I.addClass hc (fun l hl => ?_) hdeclarations h
    obtain ⟨_, _, hsolid, hsource⟩ := hls l hl
    exact ⟨hsolid, hsource⟩
  define := by
    rintro _ c m signature name parameters body body' depth ⟨rfl, hc⟩ - - hwords hbody
    rw [hbody.eq id fun _ _ hl => congrArg SourceLine.text hl.1]
    exact agree_self fun after h => I.define hc hwords h
  undefine := by
    rintro _ c m name ⟨rfl, hc⟩ - -
    exact agree_self fun after h => I.undefine hc h

/-! ### Elements -/

/-- The next line is one of the source. -/
theorem keeps_next {ls : List SourceLine} (hls : ∀ l ∈ ls, I.source l) :
    I.Keeps (fun _ => True) (Block.next ls) :=
  keeps_of_couples (couples_next (lines_self hls)) fun _ _ => trivial

/-- Names and descriptions keep the invariant. -/
theorem keeps_heading (he : I.Expands e) {m : Line} (hm : I.line m) (marker : Nat) :
    I.Keeps (fun _ => True) (Heading.read e m marker) :=
  keeps_of_couples (couples_heading he.coupled (measured_self hm) marker) fun _ _ => trivial

/-- A line keeps the invariant and leaves lines that it was given. -/
theorem keeps_readLine (he : I.Expands e) {m : Line} (hm : I.line m)
    {ls : List SourceLine} (hls : ∀ l ∈ ls, I.source l) :
    I.Keeps (fun r => r.2 <:+ ls) (Block.readLine e m ls) :=
  keeps_of_couples (couples_readLine he.coupled (measured_self hm) (lines_self hls))
    fun _ h => h.2.first

/-! ### Files -/

section Files

variable {x : Line → CompileM (List Tab)}

/-- The invariant survives what the lines of the top level change besides. -/
class Outer (I : Invariant) : Prop where
  opened {c : Context} (n : Nat) : I.context c →
    I.context { c with nextId := n, hasStructure := true }

instance [I.Outer] : I.coupling.TopLevel where
  nextId hc := by rw [hc.1]
  opened n := by
    rintro ⟨rfl, hc⟩
    exact ⟨rfl, Outer.opened n hc⟩
  topDirective := by
    rintro _ c m m' ⟨rfl, hc⟩ hm
    rw [measured_eq hm]
    exact agree_self fun after h => I.directive hc hm.allowed h

/-- A source keeps the invariant if its lines are of the kind that it asks for. -/
theorem keeps_readSource [I.Outer] (he : I.Expands e)
    (hx : ∀ m, I.line m → m.IsInclusion → I.Keeps (fun _ => True) (x m)) {source : Text}
    (hls : ∀ l ∈ SourceLine.ofSource source, I.source l) :
    I.Keeps (fun _ => True) (Document.readSource e x source) := by
  refine keeps_of_couples (couples_readSource_of_inclusions rfl he.coupled ?_ (lines_self hls))
    fun _ _ => trivial
  intro m m' hm hincludes
  rw [measured_eq hm]
  exact couples_of_keeps (hx m hm.allowed hincludes)

/-- The invariant `J` holds while a file is open where `I` holds before and after. -/
structure Opens (I J : Invariant) (file : Location) : Prop where
  enter {c : Context} : I.context c → file ∉ c.openFiles → J.context (c.openFile file)
  leave {c : Context} : J.context c → I.context c.closeFile
  stop {s : Stop} {c : Context} : J.stop s c → I.stop s c.closeFile

/-- A file that keeps the invariant does so for a run beside itself. -/
theorem Opens.coupled {J : Invariant} {file : Location} (h : Opens I J file) :
    Coupling.Opens I.coupling J.coupling file where
  enter := by
    rintro _ c ⟨rfl, hc⟩ hfile
    exact ⟨rfl, h.enter hc hfile⟩
  leave := by
    rintro _ c ⟨rfl, hc⟩
    exact ⟨rfl, h.leave hc⟩
  stop := by
    rintro _ s _ c ⟨rfl, rfl, hs⟩
    exact ⟨rfl, rfl, h.stop hs⟩
  lax := id

/-- An inclusion keeps the invariant if the included source keeps the one inside. -/
theorem keeps_readInclusion {J : Location → Invariant} {loader : Loader} {base : Text}
    {m : Line} (hm : I.line m)
    (hopens : ∀ file, loader.Names base m file → Opens I (J file) file)
    {x : Text → Text → CompileM (List Tab)}
    (hx : ∀ file source, loader.Names base m file → loader.load file = .ok source →
      (J file).Keeps (fun _ => True) (x file.parent.text source)) :
    I.Keeps (fun _ => True) (Document.readInclusion loader x base m) := by
  refine keeps_of_couples (couples_readInclusion_between (J := fun file => (J file).coupling)
    (fun _ => rfl) (measured_self hm) ?_ (fun file h => (hopens file h).coupled) ?_)
    fun _ _ => trivial
  · rintro _ c _ ⟨rfl, -⟩ -
    exact .inl rfl
  · intro _ _ file _ hnames _
    -- a file that cannot be loaded fails in both runs alike
    cases hload : loader.load file with
    | error err => exact .error rfl
    | ok source => exact .ok (couples_of_keeps (hx file source hnames hload))

end Files

/-! ### Expansions -/

/-- The invariant `J` holds while a template is expanded where `I` holds before and
after. -/
structure Expanding (I J : Invariant) (name : Text) : Prop where
  enter {c : Context} : I.context c → name ∉ c.expanding → J.context (c.enter name)
  leave {c : Context} : J.context c → I.context c.leave
  stop {s : Stop} {c : Context} {n : Nat} : J.stop s c → I.call n →
    I.stop (s.inTemplate name n) c.leave
  source {text : Text} {l : SourceLine} : l ∈ SourceLine.ofSource text → J.source l

/-- A template that keeps the invariant does so for a run beside itself. -/
theorem Expanding.coupled {J : Invariant} {name : Text} (h : Expanding I J name) :
    Coupling.Expanding I.coupling J.coupling name where
  enter := by
    rintro _ c n values - ⟨rfl, hc⟩
    cases hbody : c.bodyOfCall name values with
    | error cause => exact .error rfl
    | ok source =>
        have hname := Context.notMem_expanding_of_bodyOfCall hbody
        exact .ok ⟨⟨rfl, h.enter hc hname⟩, lines_self fun _ => h.source⟩
  leave := by
    rintro _ c ⟨rfl, hc⟩
    exact ⟨rfl, h.leave hc⟩
  stop := by
    rintro _ s _ c _ n ⟨rfl, rfl, hs⟩ ⟨rfl, -⟩ hcall
    exact ⟨rfl, rfl, h.stop hs (hcall rfl)⟩
  lax := id

/-- An expansion keeps the invariant if its body keeps the one inside. -/
theorem keeps_expandWith {J : Invariant} {name : Text} (hexpanding : Expanding I J name)
    (he : J.Expands e) (values : List Text) {n : Nat} (hn : I.call n) :
    I.Keeps (fun _ => True) (expandWith e name values n) := by
  have hvalues : ∀ v ∈ values, I.coupling.Allows n v := fun _ _ _ _ _ => hn
  exact keeps_of_couples (couples_expandWith rfl hexpanding.coupled he.coupled
    ⟨rfl, I.number_of_call hn⟩ (fun _ => hn) hvalues) fun _ _ => trivial

end Invariant

end IndentMarkup
