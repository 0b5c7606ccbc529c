import IndentMarkup.Proofs.Characters
import IndentMarkup.Proofs.Linewise
import IndentMarkup.Proofs.Places
import IndentMarkup.Proofs.Settings
import Mathlib.Data.List.DropRight

/-!
What the prologue of a compiled document can hold.

Lines are cut at line feeds and have no carriage returns, whether they stand in a file or in the
body of a template. So the value of a directive is one line, and the declarations of a custom
class are lines. Whatever such values cannot break holds of the prologue of every compiled
document.

* `OneLine` — texts without line breaks.
* `Declarations` — what custom classes declare.
* `Invariant.prologue` — a property of prologues that lasts through a compile.
* `metadata_of_compile` — it holds at the end.
-/

namespace IndentMarkup

/-! ### Lines and declarations -/

/-- The text has no line feed and no carriage return. -/
def OneLine (t : Text) : Prop := '\n' ∉ t ∧ '\r' ∉ t

/-- A text that has only characters of one line is one line. -/
theorem OneLine.subset {s t : Text} (ht : OneLine t) (h : s ⊆ t) : OneLine s :=
  ⟨fun hmem => ht.1 (h hmem), fun hmem => ht.2 (h hmem)⟩

/-- The lines of a source have no line breaks. -/
theorem oneLine_ofSource {text : Text} {l : SourceLine} (h : l ∈ SourceLine.ofSource text) :
    OneLine l.text :=
  SourceLine.notMem_of_mem_textsOf (List.mem_of_getElem? (SourceLine.getElem?_of_mem_ofSource h))

/-- Trimming twice is trimming once. -/
theorem Text.trim_trim (t : Text) : trim (trim t) = trim t := by
  obtain ⟨blanks, hblanks, hstart⟩ := exists_eq_trimEnd_append (trimStart t)
  calc trim (trim t) = trim (trim t ++ blanks) := (trim_append_of_allBlank _ hblanks).symm
    _ = trim (trimStart t) := congrArg trim hstart.symm
    _ = trim t := by simp only [trim, trimStart, List.dropWhile_idempotent]

/-- The text can be a line of declarations, or the value of a directive: there is something in it,
it is trimmed, and it is one line. -/
structure Solid (t : Text) : Prop where
  nonempty : t ≠ []
  trimmed : Text.trim t = t
  oneLine : OneLine t

/-- A line that is not blank is such a line when it is trimmed. -/
theorem solid_trim {t : Text} (hsolid : Text.allBlank t = false) (hlines : OneLine t) :
    Solid (Text.trim t) where
  nonempty h := by rw [Text.trim_eq_nil_iff.1 h] at hsolid; cases hsolid
  trimmed := Text.trim_trim t
  oneLine := hlines.subset (Text.trim_subset t)

/-- The text is made of such lines. -/
def Declarations (t : Text) : Prop :=
  ∃ ls : List Text, (∀ l ∈ ls, Solid l) ∧ t = Text.join ['\n'] ls

/-! ### Prologues -/

/-- What holds before a directive with a value on one line, trimmed, and before a custom class
whose declarations are made of lines, holds behind them. -/
structure Metadata.Lasting (p : Metadata → Prop) : Prop where
  set {m after : Metadata} {d : Directive} {value : Text} : p m → Text.trim value = value →
    OneLine value → m.set d value = .ok after → p after
  addClass {m after : Metadata} {name declarations : Text} : p m → Declarations declarations →
    m.addClass name declarations = .ok after → p after

/-- A property that lasts is an invariant of compiles. -/
def Invariant.prologue {p : Metadata → Prop} (hp : Metadata.Lasting p) : Invariant where
  context c := p c.metadata
  source l := OneLine l.text
  line m := OneLine m.content
  number _ := True
  call _ := True
  stop _ _ := True
  line_of_source hl hscan := hl.subset (content_subset_of_scan hscan)
  number_of_source _ := trivial
  number_of_line _ := trivial
  number_of_call _ := trivial
  call_of_line _ _ := trivial
  fail _ _ _ _ := trivial
  directive := by
    intro c after m hc hm h
    obtain ⟨-, d, metadata, -, hset, rfl⟩ := Context.readDirective_eq_ok.1 h
    -- the value is a part of the line of the directive
    refine hp.set hc (Text.trim_trim _) (hm.subset ?_) hset
    exact List.Subset.trans (Text.trim_subset _)
      (List.Subset.trans (List.dropWhile_subset _) (List.drop_subset 1 _))
  addClass := by
    intro c after name declarations ls hc hls hdeclarations h
    obtain ⟨metadata, hadd, rfl⟩ := Context.addClass_ok h
    refine hp.addClass hc ⟨ls.map fun l => Text.trim l.text, ?_, hdeclarations⟩ hadd
    intro line hline
    obtain ⟨l, hl, rfl⟩ := List.mem_map.1 hline
    exact solid_trim (hls l hl).1 (hls l hl).2
  define hc _ h := by
    obtain ⟨m, -, -, rfl⟩ := Context.defineBody_ok h
    exact hc
  undefine hc h := by
    obtain ⟨-, rfl⟩ := Context.undefine_ok h
    exact hc

section Compiles

variable {p : Metadata → Prop} (hp : Metadata.Lasting p)
include hp

instance : (Invariant.prologue hp).Outer where
  opened _ hc := hc

/-- Expansions keep the property, since bodies are read as lines, too. -/
theorem prologue_expander (depth : Nat) : (Invariant.prologue hp).Expands (expander depth) := by
  induction depth with
  | zero => exact fun name values line _ c hc => trivial
  | succ depth ih =>
      intro name values line hline
      exact Invariant.keeps_expandWith ⟨fun hc _ => hc, id, fun _ _ => trivial, oneLine_ofSource⟩
        ih values hline

/-- Sources with inclusions keep it. -/
theorem prologue_readNested (loader : Loader) (depth nesting : Nat) (base source : Text) :
    (Invariant.prologue hp).Keeps (fun _ => True)
      (Document.readNested loader (expander depth) nesting base source) := by
  induction nesting generalizing base source with
  | zero => exact fun c hc => trivial
  | succ nesting ih =>
      refine Invariant.keeps_readSource (prologue_expander hp depth) (fun m hm _ => ?_)
        fun l => oneLine_ofSource
      exact Invariant.keeps_readInclusion (J := fun _ => .prologue hp) hm
        (fun _ _ => ⟨fun hc _ => hc, id, id⟩) fun file source _ _ => ih _ source

/-- Opening and closing a file does not touch the prologue. -/
theorem prologue_whileOpen {x : CompileM (List Tab)}
    (hx : (Invariant.prologue hp).Keeps (fun _ => True) x) (file : Location) :
    (Invariant.prologue hp).Keeps (fun _ => True) (Document.whileOpen file x) := by
  intro c hc
  have hkeeps := hx (c.openFile file) hc
  unfold Document.whileOpen
  generalize x (c.openFile file) = r at hkeeps ⊢
  cases r with
  | ok tabs after => exact hkeeps
  | error s after => trivial

/-- It holds of the document that a run gives. -/
theorem metadata_ofRun (hempty : p ∅) {x : CompileM (List Tab)}
    (hx : (Invariant.prologue hp).Keeps (fun _ => True) x) {d : Document}
    (h : Document.ofRun x .start = .ok d) : p d.metadata := by
  have hkeeps := hx .start hempty
  unfold Document.ofRun at h
  split at h
  · next tabs after hrun =>
      cases h
      rw [hrun] at hkeeps
      exact hkeeps.2
  · cases h

/-- A property that lasts holds of the prologue of every compiled document. -/
theorem metadata_of_compile (hempty : p ∅) {loader : Loader} {depth : Nat} {d : Document}
    (h : (∃ source, Document.compileText loader depth source = .ok d) ∨
      ∃ path, Document.compileFile loader depth path = .ok d) : p d.metadata := by
  have hread (base source : Text) := prologue_readNested hp loader depth
    (loader.locations.length + 1) base source
  rcases h with ⟨source, h⟩ | ⟨path, h⟩
  · exact metadata_ofRun hp hempty (hread _ source) h
  · unfold Document.compileFile Document.compileFileWith at h
    split at h
    · cases h
    · next file _ =>
        split at h
        · cases h
        · exact metadata_ofRun hp hempty (prologue_whileOpen hp (hread _ _) file) h

end Compiles

/-! ### Values of directives, and custom classes -/

namespace Metadata

/-- All custom classes have declarations that are made of lines. -/
def Declared (m : Metadata) : Prop := ∀ e ∈ m.customClasses.entries, Declarations e.2

/-- The values of the prologue that can be any text. -/
def texts (m : Metadata) : List Text :=
  m.title.toList ++ m.topText.toList ++ m.font.toList ++ m.favicon.toList ++ m.initialHash.toList

/-- A directive changes no custom class, and all texts that it sets are the given one. -/
theorem texts_of_set {m after : Metadata} {d : Directive} {value : Text}
    (h : m.set d value = .ok after) : after.customClasses = m.customClasses ∧
      ∀ t ∈ after.texts, t ∈ m.texts ∨ t = value ∧ value ≠ [] := by
  cases d
  -- a directive that is no text changes none, and any other sets one that was free
  case theme | hideCredit | spaces =>
    simp only [set] at h
    split at h
    · cases h
    · split at h
      · cases h
      · cases h
        exact ⟨rfl, fun _ ht => .inl ht⟩
  all_goals
    have hvalue : value ≠ [] := by
      rintro rfl
      cases h
    obtain ⟨hfree, rfl⟩ := map_newText_ok h
    refine ⟨rfl, fun t ht => ?_⟩
    simp only [texts, hfree, List.mem_append, Option.toList_none, Option.toList_some,
      List.mem_singleton, List.not_mem_nil, false_or, or_false] at ht ⊢
    tauto

/-- The declarations of custom classes last. -/
theorem lasting_declared : Lasting Declared where
  set hm _ _ h e he := hm e (by rwa [(texts_of_set h).1] at he)
  addClass := by
    intro m after name declarations hm hdeclarations h e he
    obtain ⟨-, rfl⟩ := addClass_ok h
    rcases Table.mem_insertEntry he with rfl | he
    · exact hdeclarations
    · exact hm e he

/-- So do the texts of the prologue. -/
theorem lasting_texts : Lasting fun m => ∀ t ∈ m.texts, Solid t where
  set := by
    intro m after d value hm htrim hline h t ht
    rcases (texts_of_set h).2 t ht with ht | ⟨rfl, hsome⟩
    · exact hm t ht
    · exact ⟨hsome, htrim, hline⟩
  addClass := by
    intro m after name declarations hm _ h
    obtain ⟨-, rfl⟩ := addClass_ok h
    exact hm

end Metadata

end IndentMarkup
