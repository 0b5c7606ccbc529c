import IndentMarkup.Proofs.Effects
import IndentMarkup.Proofs.Runs.Reading

/-!
Where the lines below a line end.

What is read below a line looks ahead to lines that are not its own, and stops there: a block at a
line that is less deep, a body at a line that is not deeper, a run at a line that does not continue
it. So the lines below can be read alone, with the same result. They are measured when they are
reached, and a template that is expanded between them can set the unit of indentation, but only
once; whatever is asked of lines has to be asked in the units before and after.

* `Context.KeepsUnit` — the unit stayed or was set for the first time.
* `CompileM.Steady`, `steady` — all readers of elements keep it so.
* `Block.Ends`, `Block.EndsBetween` — nothing deeper goes on in the lines.
* `Block.Cuts` — an action in front of such lines, and the same action without them.
* `Block.cuts_readElement`, `Block.cuts_readRun`, `Block.cuts_readLine`, `Block.cuts_readBlock` —
  the readers can be cut there.
-/

namespace IndentMarkup

/-! ### The unit of indentation -/

namespace Context

variable {b c d : Context}

/-- The unit of indentation stayed, or it was set for the first time. -/
def KeepsUnit (c d : Context) : Prop :=
  (d.metadata.spaces.isSome = c.metadata.spaces.isSome ∧ d.indentation = c.indentation) ∨
    (c.metadata.spaces.isSome = false ∧ d.metadata.spaces.isSome = true)

namespace KeepsUnit

/-- The unit stays if neither it nor the number of spaces changes. -/
theorem of_eq (hspaces : d.metadata.spaces = c.metadata.spaces)
    (hunit : d.indentation = c.indentation) : c.KeepsUnit d :=
  .inl ⟨by rw [hspaces], hunit⟩

/-- Nothing happens. -/
theorem refl (c : Context) : c.KeepsUnit c := of_eq rfl rfl

/-- The unit is set once at most in the course of two runs. -/
theorem trans (h : b.KeepsUnit c) (h' : c.KeepsUnit d) : b.KeepsUnit d := by
  rcases h with ⟨hspaces, hunit⟩ | ⟨hnone, hsome⟩
  · rcases h' with ⟨hspaces', hunit'⟩ | ⟨hnone', hsome'⟩
    · exact .inl ⟨hspaces'.trans hspaces, hunit'.trans hunit⟩
    · exact .inr ⟨hspaces ▸ hnone', hsome'⟩
  · rcases h' with ⟨hspaces', -⟩ | ⟨-, hsome'⟩
    · exact .inr ⟨hnone, hspaces'.trans hsome⟩
    · exact .inr ⟨hnone, hsome'⟩

/-- In between, the unit is the one before or the one after. -/
theorem indentation (h : b.KeepsUnit c) (h' : c.KeepsUnit d) :
    c.indentation = b.indentation ∨ c.indentation = d.indentation := by
  rcases h with ⟨-, hunit⟩ | ⟨-, hsome⟩
  · exact .inl hunit
  · rcases h' with ⟨-, hunit'⟩ | ⟨hnone', -⟩
    · exact .inr hunit'.symm
    · rw [hsome] at hnone'
      cases hnone'

end KeepsUnit

/-- A directive leaves the unit alone, or it is the first to set it. -/
theorem keepsUnit_of_readDirective {l : Line} (h : c.readDirective l = .ok d) :
    c.KeepsUnit d := by
  obtain ⟨-, k, metadata, -, hset, rfl⟩ := readDirective_eq_ok.1 h
  rcases Metadata.spaces_of_set hset with ⟨hk, hspaces⟩ | ⟨-, hnone, hsome⟩
  · exact .of_eq hspaces (if_neg hk)
  · exact .inr ⟨by rw [hnone]; rfl, hsome⟩

/-- So does everything that a line with elements can ask for. -/
theorem elementEffect_keepsUnit : ElementEffect KeepsUnit where
  refl := .refl
  trans := .trans
  directive := keepsUnit_of_readDirective
  addClass h := by
    obtain ⟨metadata, hadd, rfl⟩ := addClass_ok h
    obtain ⟨-, rfl⟩ := Metadata.addClass_ok hadd
    exact .of_eq rfl rfl
  define h := by
    obtain ⟨m, -, -, rfl⟩ := defineBody_ok h
    exact .of_eq rfl rfl
  undefine h := by
    obtain ⟨-, rfl⟩ := undefine_ok h
    exact .of_eq rfl rfl
  template _ h := h

end Context

/-- Whatever the action does, the unit stays or is set for the first time. -/
def CompileM.Steady {α : Type} (x : CompileM α) : Prop := ∀ c : Context, c.KeepsUnit (x.after c)

/-- A run of such an action. -/
theorem CompileM.Steady.run {α : Type} {x : CompileM α} (h : x.Steady) {c d : Context} {a : α}
    (hrun : x c = .ok a d) : c.KeepsUnit d :=
  after_of_ok hrun ▸ h c

/-- All readers of elements keep it so. -/
theorem steady : ElementCongruence fun _ x _ => x.Steady :=
  Context.elementEffect_keepsUnit.congruence

/-- What gives something at once does not touch the unit. -/
theorem CompileM.Steady.pure {α : Type} (a : α) : Steady (Pure.pure a) := steady.pure a

/-- Neither does a look at the context. -/
theorem CompileM.Steady.get : Steady (MonadState.get : CompileM Context) := fun c => .refl c

/-- Steady actions one after the other are steady. -/
theorem CompileM.Steady.bind {α β : Type} {x : CompileM α} {f : α → CompileM β} (hx : x.Steady)
    (hf : ∀ a, (f a).Steady) : (x >>= f).Steady :=
  steady.bind (y := x) (g := f) hx hf

/-- Whatever is expanded, the unit stays or is set for the first time. -/
def Expander.Steady (e : Expander) : Prop := ∀ name values n, (e name values n).Steady

/-- Expansions are steady, too. -/
theorem steady_expander (n : Nat) : Expander.Steady (expander n) := steady.expander n

namespace Block

open Context

variable {depth : Nat} {tail ls : List SourceLine}

/-- Where a line comes, what stands behind does not matter. -/
theorem skipBlank_append_of_cons {l : SourceLine} {rest : List SourceLine}
    (h : skipBlank ls = l :: rest) : skipBlank (ls ++ tail) = l :: (rest ++ tail) := by
  rw [skipBlank] at h ⊢
  rw [List.dropWhile_append, h]
  rfl

/-- Where only blank lines come, what stands behind comes next. -/
theorem skipBlank_append_of_nil (h : skipBlank ls = []) :
    skipBlank (ls ++ tail) = skipBlank tail := by
  rw [skipBlank] at h ⊢
  rw [List.dropWhile_append, h]
  rfl

/-- The same when comments are passed over, too. -/
theorem skipSilent_append_of_cons {l : SourceLine} {rest : List SourceLine}
    (h : skipSilent ls = l :: rest) : skipSilent (ls ++ tail) = l :: (rest ++ tail) := by
  rw [skipSilent] at h ⊢
  rw [List.dropWhile_append, h]
  rfl

/-- Where nothing comes but silent lines. -/
theorem skipSilent_append_of_nil (h : skipSilent ls = []) :
    skipSilent (ls ++ tail) = skipSilent tail := by
  rw [skipSilent] at h ⊢
  rw [List.dropWhile_append, h]
  rfl

/-! ### Ends -/

/-- Nothing deeper goes on in the lines: neither the first one that is not blank nor the first one
that says something is deeper. -/
structure Ends (depth : Nat) (tail : List SourceLine) (unit : Indentation) : Prop where
  solid {l : SourceLine} {rest : List SourceLine} {m : Line} : skipBlank tail = l :: rest →
    l.scan unit = .ok m → m.depth ≤ depth
  loud {l : SourceLine} {rest : List SourceLine} {m : Line} : skipSilent tail = l :: rest →
    l.scan unit = .ok m → m.depth ≤ depth

/-- The same, in every unit that can be in force between two contexts. -/
def EndsBetween (depth : Nat) (tail : List SourceLine) (c d : Context) : Prop :=
  ∀ mid, c.KeepsUnit mid → mid.KeepsUnit d → Ends depth tail mid.indentation

namespace EndsBetween

variable {c mid d : Context}

/-- What ends up to a later moment ends up to an earlier one. -/
theorem upTo (h : EndsBetween depth tail c d) (hmid : mid.KeepsUnit d) :
    EndsBetween depth tail c mid :=
  fun between hfrom hto => h between hfrom (hto.trans hmid)

/-- What ends since an earlier moment ends since a later one. -/
theorem since (h : EndsBetween depth tail c d) (hmid : c.KeepsUnit mid) :
    EndsBetween depth tail mid d :=
  fun between hfrom hto => h between (hmid.trans hfrom) hto

/-- In particular it ends in the unit before. -/
theorem first (h : EndsBetween depth tail c d) (hkeep : c.KeepsUnit d) :
    Ends depth tail c.indentation :=
  h c (.refl c) hkeep

end EndsBetween

/-! ### Actions that can be cut -/

/-- Whenever the first action succeeds, with nothing deeper in `tail`, it leaves `tail`, and the
second one gives the same and leaves what is left in front. -/
def Cuts (depth : Nat) (tail : List SourceLine) {α : Type}
    (x x' : CompileM (α × List SourceLine)) : Prop :=
  ∀ c a left d, x c = .ok (a, left) d → EndsBetween depth tail c d →
    ∃ left', left = left' ++ tail ∧ x' c = .ok (a, left') d

namespace Cuts

variable {α β : Type}

/-- What gives something and leaves its lines can be cut. -/
theorem pure (a : α) (left : List SourceLine) :
    Cuts depth tail (Pure.pure (a, left ++ tail)) (Pure.pure (a, left)) := by
  intro c a left d hrun _
  cases hrun
  exact ⟨_, rfl, rfl⟩

/-- An action that fails leaves nothing to cut. -/
theorem failAt (cause : Cause) (n : Nat) (column : Option Nat)
    (x' : CompileM (α × List SourceLine)) :
    Cuts depth tail (CompileM.failAt cause n column) x' := by
  intro c a left d hrun _
  cases hrun

/-- A branch can be cut if both ways can. -/
theorem ite {p : Prop} [Decidable p] {x x' y y' : CompileM (α × List SourceLine)}
    (hx : p → Cuts depth tail x x') (hy : ¬ p → Cuts depth tail y y') :
    Cuts depth tail (if p then x else y) (if p then x' else y') := by
  by_cases hp : p
  · rw [if_pos hp, if_pos hp]
    exact hx hp
  · rw [if_neg hp, if_neg hp]
    exact hy hp

/-- An action that leaves lines, and what is done with them. -/
theorem bind {x x' : CompileM (α × List SourceLine)}
    {f f' : α × List SourceLine → CompileM (β × List SourceLine)} (hx : Cuts depth tail x x')
    (hsteady : x.Steady) (hthen : ∀ r, (f r).Steady)
    (hf : ∀ c a left mid, x' c = .ok (a, left) mid →
      Cuts depth tail (f (a, left ++ tail)) (f' (a, left))) :
    Cuts depth tail (x >>= f) (x' >>= f') := by
  intro c b left d hrun hends
  obtain ⟨⟨a, between⟩, mid, hfirst, hrest⟩ := CompileM.exists_of_bind_ok hrun
  obtain ⟨between, rfl, hfirst'⟩ := hx _ _ _ _ hfirst (hends.upTo ((hthen _).run hrest))
  obtain ⟨left, rfl, hrest'⟩ := hf _ _ _ _ hfirst' _ _ _ _ hrest
    (hends.since (hsteady.run hfirst))
  exact ⟨left, rfl, (CompileM.bind_run_ok hfirst' f').trans hrest'⟩

/-- An action that leaves no lines is the same on both sides. -/
theorem behind {x : CompileM α} {f f' : α → CompileM (β × List SourceLine)} (hsteady : x.Steady)
    (hf : ∀ a, Cuts depth tail (f a) (f' a)) : Cuts depth tail (x >>= f) (x >>= f') := by
  intro c b left d hrun hends
  obtain ⟨a, mid, hfirst, hrest⟩ := CompileM.exists_of_bind_ok hrun
  obtain ⟨left, rfl, hrest'⟩ := hf a _ _ _ _ hrest (hends.since (hsteady.run hfirst))
  exact ⟨left, rfl, (CompileM.bind_run_ok hfirst f').trans hrest'⟩

/-- A look at a line of `tail`: whatever the line is measured as, it is as shallow as `tail` is,
and what follows leaves it. -/
theorem scan {l : SourceLine} {f : Line → CompileM (α × List SourceLine)}
    {x' : CompileM (α × List SourceLine)} (hsteady : (CompileM.scan l >>= f).Steady)
    (hfirst : ∀ unit m, Ends depth tail unit → l.scan unit = .ok m → m.depth ≤ depth)
    (hf : ∀ m, m.depth ≤ depth → Cuts depth tail (f m) x') :
    Cuts depth tail (CompileM.scan l >>= f) x' := by
  intro c a left d hrun hends
  have hshallow := hends.first (hsteady.run hrun)
  obtain ⟨m, hscan, hthen⟩ := exists_of_scan_bind hrun
  exact hf m (hfirst _ m hshallow hscan) _ _ _ _ hthen hends

/-- Only what is given changes. -/
theorem map {x x' : CompileM (α × List SourceLine)} (hx : Cuts depth tail x x') (g : α → β) :
    Cuts depth tail (x >>= fun r => Pure.pure (g r.1, r.2))
      (x' >>= fun r => Pure.pure (g r.1, r.2)) := by
  intro c b left d hrun hends
  obtain ⟨⟨a, between⟩, mid, hfirst, hrest⟩ := CompileM.exists_of_bind_ok hrun
  cases hrest
  obtain ⟨left, rfl, hfirst'⟩ := hx _ _ _ _ hfirst hends
  exact ⟨left, rfl, CompileM.bind_run_ok hfirst' _⟩

end Cuts

/-! ### Bodies and images -/

/-- In front of lines that are not deeper a body takes none. -/
theorem takeDeeper_of_ends {unit : Indentation} {limit : Nat} (hle : depth ≤ limit)
    (hends : ∀ {l rest m}, skipBlank tail = l :: rest → l.scan unit = .ok m → m.depth ≤ depth)
    {body : List Text} {left : List SourceLine}
    (h : takeDeeper unit limit tail = .ok (body, left)) : body = [] ∧ left = tail := by
  -- on the lines: blank ones are left with the first that is not blank, and this one is not deeper
  induction tail generalizing body left with
  | nil =>
      cases h
      exact ⟨rfl, rfl⟩
  | cons l tail ih =>
      unfold takeDeeper at h
      cases hblank : l.isBlank with
      | true =>
          have hskip : skipBlank (l :: tail) = skipBlank tail := by simp [skipBlank, hblank]
          rw [hskip] at hends
          rw [if_pos hblank] at h
          split at h
          · cases h
          · next body' left' hrun =>
              obtain ⟨rfl, rfl⟩ := ih hends hrun
              cases h
              exact ⟨rfl, rfl⟩
      | false =>
          have hskip : skipBlank (l :: tail) = l :: tail := by simp [skipBlank, hblank]
          rw [if_neg (by simp [hblank])] at h
          split at h
          · cases h
          · next m hm =>
              rw [if_pos (Nat.le_trans (hends hskip hm) hle)] at h
              cases h
              exact ⟨rfl, rfl⟩

/-- A body takes what it takes without the lines behind. -/
theorem takeDeeper_append {unit : Indentation} {limit : Nat} (hle : depth ≤ limit)
    (hends : Ends depth tail unit) {body : List Text} {left : List SourceLine}
    (h : takeDeeper unit limit (ls ++ tail) = .ok (body, left)) :
    ∃ left', left = left' ++ tail ∧ takeDeeper unit limit ls = .ok (body, left') := by
  -- on the lines in front; the blank ones at their end are left on both sides
  induction ls generalizing body left with
  | nil =>
      obtain ⟨rfl, rfl⟩ := takeDeeper_of_ends hle hends.solid h
      exact ⟨[], rfl, rfl⟩
  | cons l ls ih =>
      rw [List.cons_append, takeDeeper] at h
      rw [takeDeeper]
      cases hblank : l.isBlank with
      | true =>
          rw [if_pos hblank] at h
          rw [if_pos rfl]
          split at h
          · cases h
          -- a blank line is taken with a body behind it, and left without one
          · next body' left' hrun =>
              obtain ⟨left'', rfl, hrun'⟩ := ih hrun
              rw [hrun']
              split at h
              · next hnil =>
                  cases h
                  exact ⟨l :: ls, rfl, by simp [hnil]⟩
              · next hsome =>
                  cases h
                  exact ⟨left'', rfl, by simp [hsome]⟩
      | false =>
          rw [if_neg (by simp [hblank])] at h
          rw [if_neg Bool.false_ne_true]
          split at h
          · cases h
          · next m hm =>
              split at h
              -- the line ends the body here, or belongs to it
              · next hshallow =>
                  cases h
                  exact ⟨l :: ls, rfl, by rw [if_pos hshallow]⟩
              · next hdeep =>
                  rw [if_neg hdeep]
                  split at h
                  · cases h
                  · next body' left' hrun =>
                      cases h
                      obtain ⟨left'', rfl, hrun'⟩ := ih hrun
                      exact ⟨left'', rfl, by rw [hrun']⟩

/-- So a body can be cut. -/
theorem cuts_takeBody {limit : Nat} (hle : depth ≤ limit) (ls : List SourceLine) :
    Cuts depth tail (takeBody limit (ls ++ tail)) (takeBody limit ls) := by
  intro c body left d hrun hends
  unfold takeBody at hrun ⊢
  split at hrun
  · next r htake =>
      cases hrun
      obtain ⟨left', rfl, htake'⟩ := takeDeeper_append hle (hends.first (.refl _)) htake
      exact ⟨left', rfl, by rw [htake']⟩
  · cases hrun

/-- What stands behind the lines is no child of an image. -/
theorem cuts_readImage (m : Line) (head : TagLine) (ls : List SourceLine) :
    Cuts depth tail (readImage m head (ls ++ tail)) (readImage m head ls) := by
  unfold readImage
  cases head.attributes.find? "href".toList with
  | none => exact .failAt _ _ _ _
  | some source =>
      dsimp only
      cases hfound : skipSilent ls with
      | cons l rest =>
          rw [next, next, skipSilent_append_of_cons hfound, hfound]
          dsimp only
          rw [bind_assoc, bind_assoc]
          refine .behind (steady.scan l) fun m' => ?_
          rw [pure_bind, pure_bind]
          exact .ite (fun _ => .failAt _ _ _ _) fun _ => .pure _ ls
      | nil =>
          rw [next, next, skipSilent_append_of_nil hfound, hfound]
          -- all lines in front are silent, so the first run looks at a line of `tail` and leaves it
          intro c el left d hrun hends
          cases htail : skipSilent tail with
          | nil =>
              rw [htail] at hrun
              exact Cuts.pure _ ls _ _ _ _ hrun hends
          | cons l rest =>
              rw [htail] at hrun
              dsimp only at hrun
              rw [bind_assoc] at hrun
              obtain ⟨m', -, hthen⟩ := exists_of_scan_bind hrun
              rw [pure_bind] at hthen
              dsimp only at hthen
              split at hthen
              · cases hthen
              · cases hthen
                exact ⟨ls, rfl, rfl⟩

/-! ### Elements and runs -/

/-- A line goes on with a run if it has the depth and the token of its items. -/
theorem continues_iff {token : Text} {m : Line} : continues token depth m = true ↔
    m.depth = depth ∧ m.kind = .tag ∧ itemToken m.content = token := by
  simp [continues, and_assoc]

section Readers

variable {e : Expander} (he : e.Steady)
include he

/-- An element keeps the unit or sets it. -/
theorem steady_readElement (m : Line) (head : TagLine) (tag : Text) (ls : List SourceLine) :
    (readElement e (readBlock e) m head tag ls).Steady :=
  @ElementCongruence.readElement _ steady e e he (readBlock e) (readBlock e)
    (steady.readBlock (f := e) he) m head tag ls

/-- So do the items of a run. -/
theorem steady_readRun (token inner : Text) (limit : Nat) (ls : List SourceLine) :
    (readRun e token inner limit ls).Steady :=
  @ElementCongruence.readItems _ steady e e he (readBlock e) (readBlock e)
    (steady.readBlock (f := e) he) token inner limit ls.length ls

/-- An element can be cut if its children can. -/
theorem cuts_readElement {m : Line} (head : TagLine) (tag : Text)
    (hblock : Cuts depth tail (readBlock e (m.depth + 1) (ls ++ tail))
      (readBlock e (m.depth + 1) ls)) :
    Cuts depth tail (readElement e (readBlock e) m head tag (ls ++ tail))
      (readElement e (readBlock e) m head tag ls) := by
  unfold readElement
  refine .ite (fun _ => cuts_readImage m head ls) fun _ => ?_
  refine .ite (fun _ => .behind (steady.pure _) fun html => ?_)
    fun _ => .behind (steady.format (f := e) he _ _ _) fun html => ?_
  · exact hblock.map _
  · exact hblock.map _

/-- The items of a deeper run can be cut if their children can. -/
theorem cuts_readRun (token inner : Text) {limit : Nat} (hlt : depth < limit)
    (hblock : ∀ rest : List SourceLine, rest.length ≤ ls.length → ∀ inside, depth < inside →
      Cuts depth tail (readBlock e inside (rest ++ tail)) (readBlock e inside rest)) :
    Cuts depth tail (readRun e token inner limit (ls ++ tail))
      (readRun e token inner limit ls) := by
  -- on the number of lines; an item leaves fewer of them
  induction hlength : ls.length using Nat.strongRecOn generalizing ls with
  | ind n ih =>
      cases hfound : skipBlank ls with
      -- in front there is no item more, and the first line of `tail` is less deep than the items
      | nil =>
          have hsteady := steady_readRun he token inner limit (ls ++ tail)
          rw [readRun_eq, skipBlank_append_of_nil hfound] at hsteady ⊢
          rw [readRun_eq, hfound]
          cases htail : skipBlank tail with
          | nil => exact .pure [] ls
          | cons l rest =>
              rw [htail] at hsteady
              refine .scan hsteady (fun unit m hends => hends.solid htail) fun m hle => ?_
              rw [if_neg fun hgoes => absurd (continues_iff.1 hgoes).1 (by omega)]
              exact .pure [] ls
      -- the first line in front is an item or ends the run on both sides
      | cons l rest =>
          rw [readRun_eq, skipBlank_append_of_cons hfound, readRun_eq e token inner limit ls,
            hfound]
          have hrest : rest.length < ls.length := by
            have hskip : skipBlank ls <:+ ls := List.dropWhile_suffix _
            rw [hfound] at hskip
            exact hskip.length_le
          refine .behind (steady.scan l) fun m => .ite (fun hgoes => ?_) fun _ => .pure _ ls
          obtain ⟨hdepth, -, -⟩ := continues_iff.1 hgoes
          refine .behind (steady.readTag m) fun head => ?_
          refine .bind (cuts_readElement he head inner (hblock rest (by omega) _ (by omega)))
            (steady_readElement he _ _ _ _)
            (fun r => (steady_readRun he _ _ _ _).bind fun more => .pure _) ?_
          intro c el left mid hitem
          have hleft := (suffix_of_readElement hitem).length_le
          exact (ih _ (by omega) (fun rest hle => hblock rest (by omega)) rfl).map _

/-! ### Lines and blocks -/

/-- A tag that is deeper can be cut, with its run. -/
theorem cuts_readTree {m : Line} (hlt : depth < m.depth)
    (hblock : ∀ rest : List SourceLine, rest.length ≤ ls.length → ∀ inside, depth < inside →
      Cuts depth tail (readBlock e inside (rest ++ tail)) (readBlock e inside rest)) :
    Cuts depth tail (readTree e (readBlock e) m (ls ++ tail)) (readTree e (readBlock e) m ls) := by
  have hchildren := hblock ls (Nat.le_refl _) (m.depth + 1) (by omega)
  unfold readTree
  refine .behind (steady.readTag m) fun head => ?_
  cases runs.find? (·.tag = head.tag) with
  | none => exact (cuts_readElement he head head.tag hchildren).map fun el => [el]
  | some run =>
      refine .bind (cuts_readElement he head run.inner hchildren) (steady_readElement he _ _ _ _)
        (fun r => (steady_readRun he _ _ _ _).bind fun more => .pure _) ?_
      intro c el left mid hitem
      have hleft := (suffix_of_readElement hitem).length_le
      exact (cuts_readRun he (itemToken m.content) run.inner hlt fun rest hle =>
        hblock rest (Nat.le_trans hle hleft)).map
          fun more => [(Element.ofTag run.outer [] ∅).withChildren (el :: more)]

omit he in
/-- A custom class can be cut. -/
theorem cuts_readClass {m : Line} (hle : depth ≤ m.depth) (ls : List SourceLine) :
    Cuts depth tail (readClass m (ls ++ tail) >>= fun rest => pure (([] : List Element), rest))
      (readClass m ls >>= fun rest => pure ([], rest)) := by
  unfold readClass
  dsimp only
  by_cases hname : Text.trim (m.content.drop 1) = []
  · rw [if_pos hname, if_pos hname]
    exact .failAt _ _ _ _
  rw [if_neg hname, if_neg hname, bind_assoc, bind_assoc]
  refine .bind (cuts_takeBody hle ls) (steady.takeBody _ _) (fun r => ?_) ?_
  · exact ((steady.addClass _ _ _).bind fun _ => .pure _).bind fun _ => .pure _
  · intro c body left mid _
    dsimp only
    rw [bind_assoc, bind_assoc]
    exact .behind (steady.addClass _ _ _) fun _ => .pure [] left

omit he in
/-- A definition can be cut. -/
theorem cuts_readDefinition {m : Line} (hle : depth ≤ m.depth) (signature : Text)
    (ls : List SourceLine) :
    Cuts depth tail
      (readDefinition m signature (ls ++ tail) >>= fun rest => pure (([] : List Element), rest))
      (readDefinition m signature ls >>= fun rest => pure ([], rest)) := by
  unfold readDefinition
  cases Text.words signature with
  | nil => exact .failAt _ _ _ _
  | cons name parameters =>
      dsimp only
      rw [bind_assoc, bind_assoc]
      refine .behind .get fun c => ?_
      rw [bind_assoc, bind_assoc]
      refine .bind (cuts_takeBody hle ls) (steady.takeBody _ _) (fun r => ?_) ?_
      · exact ((steady.define _ _ _ _).bind fun _ => .pure _).bind fun _ => .pure _
      · intro c body left mid _
        dsimp only
        rw [bind_assoc, bind_assoc]
        exact .behind (steady.define _ _ _ _) fun _ => .pure [] left

/-- A line of a template can be cut. -/
theorem cuts_readTemplateLine {m : Line} (hle : depth ≤ m.depth) (ls : List SourceLine) :
    Cuts depth tail (readTemplateLine e m (ls ++ tail)) (readTemplateLine e m ls) := by
  unfold readTemplateLine
  split
  · exact cuts_readDefinition hle _ ls
  · exact .behind (steady.undefine _ _) fun _ => .pure [] ls
  · exact .behind (he _ _ _) fun es => .pure es ls

/-- A deeper line can be cut if the blocks below it can. -/
theorem cuts_readLine {m : Line} (hlt : depth < m.depth)
    (hblock : ∀ rest : List SourceLine, rest.length ≤ ls.length → ∀ inside, depth < inside →
      Cuts depth tail (readBlock e inside (rest ++ tail)) (readBlock e inside rest)) :
    Cuts depth tail (readLine e m (ls ++ tail)) (readLine e m ls) := by
  unfold readLine readLineWith
  cases m.kind with
  | blank => exact .pure [] ls
  | comment => exact .pure [] ls
  | sectionStart => exact .failAt _ _ _ _
  | tabStart => exact .failAt _ _ _ _
  | inclusion => exact .failAt _ _ _ _
  | directive =>
      refine .behind .get fun c => .ite (fun _ => ?_) fun _ => .failAt _ _ _ _
      exact .behind (steady.directive _ _) fun _ => .pure [] ls
  | customClass => exact cuts_readClass (by omega) ls
  | template => exact cuts_readTemplateLine he (by omega) ls
  | margin => exact .pure _ ls
  | tag => exact cuts_readTree he hlt hblock
  | text => exact cuts_readTree he hlt hblock
  | escaped => exact cuts_readTree he hlt hblock

/-- Deeper blocks can be cut. -/
theorem cuts_readBlock {inside : Nat} (hlt : depth < inside) (ls : List SourceLine) :
    Cuts depth tail (readBlock e inside (ls ++ tail)) (readBlock e inside ls) := by
  -- on the number of lines, for all depths, as a line is read with the block below it
  induction hlength : ls.length using Nat.strongRecOn generalizing ls inside with
  | ind n ih =>
      cases hfound : skipSilent ls with
      -- no line more is in front, and the first loud line of `tail` is less deep
      | nil =>
          have hsteady := steady.readBlock (f := e) he inside (ls ++ tail)
          rw [readBlock_eq, skipSilent_append_of_nil hfound] at hsteady ⊢
          rw [readBlock_eq, hfound]
          cases htail : skipSilent tail with
          | nil => exact .pure [] ls
          | cons l rest =>
              rw [htail] at hsteady
              refine .scan hsteady (fun unit m hends => hends.loud htail) fun m hle => ?_
              rw [if_pos (by omega)]
              exact .pure [] ls
      -- the first loud line ends the block on both sides, or is read with those below
      | cons l rest =>
          rw [readBlock_eq, skipSilent_append_of_cons hfound, readBlock_eq e inside ls, hfound]
          have hrest : rest.length < ls.length := by
            have hskip : skipSilent ls <:+ ls := List.dropWhile_suffix _
            rw [hfound] at hskip
            exact hskip.length_le
          refine .behind (steady.scan l) fun m => .ite (fun _ => .pure _ ls) fun hge =>
            .ite (fun _ => .failAt _ _ _ _) fun hle => ?_
          refine .bind (cuts_readLine he (by omega) fun below hle inside hlt =>
              ih below.length (by omega) hlt below rfl)
            (steady.readLine (f := e) he m _)
            (fun r => (steady.readBlock (f := e) he _ _).bind fun more => .pure _) ?_
          intro c es left mid hline
          have hleft := (suffix_of_readLine hline).length_le
          exact (ih left.length (by omega) hlt left rfl).map _

end Readers

end Block

end IndentMarkup
