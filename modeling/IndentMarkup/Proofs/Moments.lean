import IndentMarkup.Proofs.Steps

/-!
The moments of a compile.

The readers take what they cannot do themselves as an argument: the expansion of calls, and
the reading of the files that are included. So a run can be watched from outside. It asks for
something in a context if another answer there would make it another run; what it asks for is
then read in turn, as a piece of the compile. In this way all pieces are found that a compile
comes to, with the contexts in which they are begun, and nothing else is assumed of how the
readers go about it.

* `Asks` — what a run asks for, and in which context.
* `Piece`, `Document.Reading`, `Document.Moment` — what a compile reads, and when.
* `way_of_asks_call`, `way_of_asks_source` — a question is asked on the way of a run.
* `way_of_moment` — a moment is on the way of the compile.
-/

namespace IndentMarkup

/-! ### Questions -/

/-- The run that starts in `c` asks for `i` in the context `d`: there is another answer to this
one question that makes it another run. -/
def Asks {ι α β : Type} (run : (ι → CompileM β) → CompileM α) (x : ι → CompileM β) (c : Context)
    (i : ι) (d : Context) : Prop :=
  ∃ x' : ι → CompileM β, (∀ j d', (j, d') ≠ (i, d) → x' j d' = x j d') ∧ run x' c ≠ run x c

/-! ### Pieces -/

/-- What a compile reads: a source, whose inclusions start from `base`, or the body of a
template. -/
inductive Piece where
  | source (base text : Text)
  | body (text : Text)

/-- Read the piece; `expand` expands a call, by its name, its values and its line, and `open'`
reads the source of an included file, with the folder that its own inclusions start from. -/
def Piece.read (loader : Loader) (expand : Text × List Text × Nat → CompileM (List Element))
    (open' : Text × Text → CompileM (List Tab)) : Piece → CompileM Unit
  | source base text => do
      let _ ← Document.readSource (fun name values n => expand (name, values, n))
        (Document.readInclusion loader (fun base text => open' (base, text)) base) text
  | body text => do
      let _ ← Block.readFragment (fun name values n => expand (name, values, n))
        (SourceLine.ofSource text)

namespace Document

/-- The expansion of calls that are nested at most `depth` levels deep. -/
def callsWithin (depth : Nat) : Text × List Text × Nat → CompileM (List Element) :=
  fun q => expander depth q.1 q.2.1 q.2.2

/-- The reading of sources with at most `nesting` of them open in one another. -/
def sourcesWithin (loader : Loader) (depth nesting : Nat) : Text × Text → CompileM (List Tab) :=
  fun q => readNested loader (expander depth) nesting q.1 q.2

/-- Read a piece of a compile. -/
def readPiece (loader : Loader) (depth nesting : Nat) (p : Piece) : CompileM Unit :=
  p.read loader (callsWithin depth) (sourcesWithin loader depth nesting)

/-- How a compile starts: with a source, or with the file that a path leads to. -/
inductive Starts (loader : Loader) : (base source : Text) → Context → Prop where
  | text (source : Text) : Starts loader ['.'] source .start
  | file {path source : Text} {file : Location} : loader.resolve path = .ok file →
      loader.load file = .ok source →
      Starts loader file.parent.text source (Context.start.openFile file)

section Moments

variable (loader : Loader) (depth : Nat) (base source : Text) (start : Context)

/-- A compile of the source comes to read a piece, from a context on: the source itself, the
sources of files that a piece asks for, and the bodies of the calls that a piece asks for. The
numbers say how deep calls and inclusions in the piece may be nested. -/
inductive Reading : Nat → Nat → Piece → Context → Prop where
  | first : Reading depth loader.locations.length (.source base source) start
  | inclusion {depth nesting : Nat} {p : Piece} {c d : Context} {base text : Text} :
      Reading depth (nesting + 1) p c →
      Asks (p.read loader (callsWithin depth)) (sourcesWithin loader depth (nesting + 1)) c
        (base, text) d →
      Reading depth nesting (.source base text) d
  | expansion {depth nesting n : Nat} {p : Piece} {c d : Context} {name text : Text}
      {values : List Text} :
      Reading (depth + 1) nesting p c →
      Asks (p.read loader · (sourcesWithin loader (depth + 1) nesting)) (callsWithin (depth + 1))
        c (name, values, n) d →
      d.bodyOfCall name values = .ok text → Reading depth nesting (.body text) (d.enter name)

/-- The contexts in which a compile begins to read a piece, asks for a call, or is through with
a piece. Nothing is opened and nothing is closed in between. -/
inductive Moment : Context → Prop where
  | begins {depth' nesting : Nat} {p : Piece} {c : Context} :
      Reading loader depth base source start depth' nesting p c → Moment c
  | calls {depth' nesting : Nat} {p : Piece} {c d : Context} {q : Text × List Text × Nat} :
      Reading loader depth base source start depth' nesting p c →
      Asks (p.read loader · (sourcesWithin loader depth' nesting)) (callsWithin depth') c q d →
      Moment d
  | ends {depth' nesting : Nat} {p : Piece} {c : Context} :
      Reading loader depth base source start depth' nesting p c →
      Moment ((readPiece loader depth' nesting p).after c)

end Moments

end Document

/-! ### The way of a compile -/

open Context

variable {loader : Loader}

/-- A run comes to its question step by step, and goes on step by step from the answer. -/
theorem Asks.way {R : Context → Context → Prop} (h : Way loader R) {ι α β : Type}
    {run : (ι → CompileM β) → CompileM α} {x : ι → CompileM β} {c d : Context} {i : ι}
    (hasks : Asks run x c i d) (hx : ∀ j c', R c' ((x j).after c'))
    (hrun : ∀ x', (∀ j, Alike R d ((x i).after d) β (x j) (x' j)) →
      Alike R d ((x i).after d) α (run x) (run x')) :
    R c d ∧ R ((x i).after d) ((run x).after c) := by
  obtain ⟨x', hx', hne⟩ := hasks
  have halike (j : ι) : Alike R d ((x i).after d) β (x j) (x' j) := by
    intro c'
    refine ⟨hx j c', ?_⟩
    by_cases hasked : (j, c') = (i, d)
    · cases hasked
      exact .inr ⟨h.refl d, h.refl _⟩
    · exact .inl (hx' j c' hasked)
  exact ((hrun x' halike) c).2.resolve_left hne

/-- A relation that holds of what pieces ask for holds of pieces. -/
theorem Congruence.piece {P : ∀ α : Type, CompileM α → CompileM α → Prop}
    (h : Congruence loader P) {expand f : Text × List Text × Nat → CompileM (List Element)}
    {read g : Text × Text → CompileM (List Tab)} (hexpand : ∀ q, P _ (expand q) (f q))
    (hread : ∀ q, P _ (read q) (g q)) (p : Piece) :
    P _ (p.read loader expand read) (p.read loader f g) := by
  have he (name : Text) (values : List Text) (n : Nat) :
      P _ (expand (name, values, n)) (f (name, values, n)) := hexpand _
  cases p with
  | body text => exact h.bind (h.readFragment he _) fun _ => h.pure ()
  | source base text =>
      refine h.bind (h.readSource he ?_ text) fun _ => h.pure ()
      exact h.readInclusion (fun base text => hread (base, text)) base

namespace Document

variable {depth depth' nesting : Nat} {p : Piece} {c d : Context}

section Way

variable {R : Context → Context → Prop} (h : Way loader R)
include h

theorem way_callsWithin (q : Text × List Text × Nat) (c : Context) :
    R c ((callsWithin depth q).after c) :=
  h.effect.congruence.expander depth q.1 q.2.1 q.2.2 c

theorem way_sourcesWithin (q : Text × Text) (c : Context) :
    R c ((sourcesWithin loader depth nesting q).after c) :=
  h.effect.readNested depth nesting q.1 q.2 c

theorem way_of_asks_call {q : Text × List Text × Nat}
    (hasks : Asks (p.read loader · (sourcesWithin loader depth nesting)) (callsWithin depth) c q
      d) :
    R c d ∧ R ((callsWithin depth q).after d) ((readPiece loader depth nesting p).after c) :=
  hasks.way h (way_callsWithin h) fun _ halike =>
    (h.congruence_alike _ _).piece halike (fun q => .of_eq (way_sourcesWithin h q)) p

theorem way_of_asks_source {q : Text × Text}
    (hasks : Asks (p.read loader (callsWithin depth)) (sourcesWithin loader depth nesting) c q
      d) :
    R c d ∧ R ((sourcesWithin loader depth nesting q).after d)
      ((readPiece loader depth nesting p).after c) :=
  hasks.way h (way_sourcesWithin h) fun _ halike =>
    (h.congruence_alike _ _).piece (fun q => .of_eq (way_callsWithin h q)) halike p

theorem way_readPiece (p : Piece) (c : Context) :
    R c ((readPiece loader depth nesting p).after c) :=
  h.effect.congruence.piece (f := callsWithin depth) (g := sourcesWithin loader depth nesting)
    (way_callsWithin h) (way_sourcesWithin h) p c

end Way

/-! ### Moments on the way -/

/-- An included source is read as a piece. -/
theorem after_readPiece_source (base text : Text) (c : Context) :
    (readPiece loader depth nesting (.source base text)).after c =
      (sourcesWithin loader depth (nesting + 1) (base, text)).after c :=
  CompileM.after_forget (readNested loader (expander depth) (nesting + 1) base text) c

/-- The body of a call is read as a piece while the template is being expanded. -/
theorem after_callsWithin {name text : Text} {values : List Text} {c : Context}
    (hbody : c.bodyOfCall name values = .ok text) (n : Nat) :
    (callsWithin (depth + 1) (name, values, n)).after c =
      ((readPiece loader depth nesting (.body text)).after (c.enter name)).leave := by
  change (expandWith (expander depth) name values n).after c =
    ((Block.readFragment (expander depth) (SourceLine.ofSource text) >>= fun _ => pure ()).after
      (c.enter name)).leave
  rw [after_expandWith, hbody, CompileM.after_forget]

variable {base source : Text} {start : Context}

section Way

variable {R : Context → Context → Prop} (h : Way loader R)
include h

/-- The pieces of a compile are read on its way. -/
theorem way_of_reading (hreading : Reading loader depth base source start depth' nesting p c) :
    R start c ∧ R ((readPiece loader depth' nesting p).after c)
      ((readPiece loader depth loader.locations.length (.source base source)).after start) := by
  induction hreading with
  | first => exact ⟨h.refl _, h.refl _⟩
  | inclusion _ hasks ih =>
      obtain ⟨hbefore, hbehind⟩ := way_of_asks_source h hasks
      refine ⟨h.trans ih.1 hbefore, ?_⟩
      rw [after_readPiece_source]
      exact h.trans hbehind ih.2
  | expansion _ hasks hbody ih =>
      obtain ⟨hbefore, hbehind⟩ := way_of_asks_call h hasks
      have henter := h.enter (Context.notMem_expanding_of_bodyOfCall hbody)
      refine ⟨h.trans (h.trans ih.1 hbefore) henter, ?_⟩
      rw [after_callsWithin hbody] at hbehind
      exact h.trans (h.leave _) (h.trans hbehind ih.2)

/-- Every moment of a compile is on its way. -/
theorem way_of_moment (hmoment : Moment loader depth base source start d) :
    R start d ∧ R d ((readAll loader (expander depth) base source).after start) := by
  have hend : (readAll loader (expander depth) base source).after start =
      (readPiece loader depth loader.locations.length (.source base source)).after start :=
    (after_readPiece_source base source start).symm
  rw [hend]
  cases hmoment with
  | begins hreading =>
      obtain ⟨hbefore, hbehind⟩ := way_of_reading h hreading
      exact ⟨hbefore, h.trans (way_readPiece h _ _) hbehind⟩
  | calls hreading hasks =>
      obtain ⟨hbefore, hbehind⟩ := way_of_reading h hreading
      obtain ⟨hasked, hanswered⟩ := way_of_asks_call h hasks
      exact ⟨h.trans hbefore hasked, h.trans (way_callsWithin h _ _) (h.trans hanswered hbehind)⟩
  | ends hreading =>
      obtain ⟨hbefore, hbehind⟩ := way_of_reading h hreading
      exact ⟨h.trans hbefore (way_readPiece h _ _), hbehind⟩

end Way

/-- Every moment of a compile is reached in steps, and left in steps. -/
theorem steps_of_moment (h : Moment loader depth base source start d) :
    Steps loader start d ∧
      Steps loader d ((readAll loader (expander depth) base source).after start) :=
  way_of_moment (way_steps loader) h

end Document

end IndentMarkup
