import IndentMarkup.Proofs.Coupling.Documents

/-!
Where a source can be cut.

Everything that is read looks ahead: for children, for the next item of a run, for the end
of a body. A line that nothing owns, be it of a section, a tab or an inclusion, ends all
of this just as the end of the source does. So the lines above it can be read first, and it
and the lines below it afterwards.

* `Coupling.extended` — a run beside the same run with more lines behind its end.
* `Block.readWithin_of_length_le`, `Block.suffix_of_readBlock` — a block needs no count, and leaves
  lines at the end.
* `Document.readLine_append`, `Document.readWithin_append` — one line, and all lines, with
  more lines behind their end.
* `Document.readTop` — the top level of a source, without the count that bounds it.
-/

namespace IndentMarkup

/-! ### More lines behind the end -/

namespace Coupling

/-- A run, and the same run with more lines behind its end. -/
def extended (tail : List SourceLine) : Coupling where
  context c c' := c' = c
  number n n' := n' = n
  column n n' := n' = n
  line l l' := l' = l ∧ l.isBlank = false
  measured _ := True
  stop s c s' c' := s' = s ∧ c' = c
  lax := False
  loose := False
  tail := tail

variable {tail : List SourceLine}

/-- Beside itself, a line in front of more lines is the same line. -/
theorem extended_measured {m m' : Line} (h : (extended tail).Measured m m') : m' = m := by
  obtain ⟨hdepth, hcontent, hnumber, hwidth, -⟩ := h
  cases m
  cases m'
  cases hdepth
  cases hcontent
  cases hnumber
  cases hwidth
  rfl

/-- All that is read keeps in step with itself in front of lines that nothing owns. -/
theorem extended_lawful (htail : Closes tail) : (extended tail).Lawful where
  column_map f := by
    rintro _ n rfl
    rfl
  trim_line hl := by rw [hl.1]
  isBlank_line hl := hl.2
  closes_tail := htail
  scan := by
    rintro c _ l _ rfl ⟨rfl, -⟩
    exact Agree.refl (fun _ => ⟨rfl, rfl, rfl⟩) fun m => ⟨rfl, rfl, rfl, rfl, trivial⟩
  -- the two contexts are the same, so the second stop is the first one
  fail := by
    rintro c _ n _ col col' cause - rfl rfl hcol
    have hsame : col' = col := by
      cases hcol with
      | none => rfl
      | some h => rw [h]
    exact .inr ⟨by rw [hsame], rfl⟩
  template := by
    rintro c _ name rfl
    exact .inr rfl
  expanding := by
    rintro c _ rfl
    exact .inr rfl
  directive := by
    rintro c _ m m' rfl - hm
    rw [extended_measured hm]
    exact Agree.refl (fun _ => rfl) fun _ => rfl
  addClass := by
    rintro c _ name declarations rfl -
    exact Agree.refl (fun _ => rfl) fun _ => rfl
  define := by
    rintro c _ m signature name parameters body body' depth rfl - - - hbody
    rw [hbody.eq id fun _ _ hl => congrArg SourceLine.text hl.1]
    exact Agree.refl (fun _ => rfl) fun _ => rfl
  undefine := by
    rintro c _ m name rfl - -
    exact Agree.refl (fun _ => rfl) fun _ => rfl

instance : (extended tail).TopLevel where
  nextId := by
    rintro c _ rfl
    rfl
  opened n := by
    rintro rfl
    rfl
  topDirective := by
    rintro c _ m m' rfl hm
    rw [extended_measured hm]
    exact Agree.refl (fun _ => rfl) fun _ => rfl

/-- An action keeps in step with itself. -/
theorem extended_self {α : Type} (x : CompileM α) : (extended tail).Couples Eq x x := by
  intro c c' hc
  obtain rfl : c' = c := hc
  cases x c' with
  | ok a after => exact .ok rfl rfl
  | error s after => exact .error ⟨rfl, rfl⟩

theorem extended_expands (e : Expander) : (extended tail).Expands e e := by
  rintro name values n _ rfl - -
  exact extended_self _

/-- An action that keeps in step with another one comes to a result from which the other
one's follows. -/
theorem run_eq_of_extended {α β : Type} {values : α → β → Prop} {x : CompileM α}
    {x' : CompileM β} (h : (extended tail).Couples values x x') {f : α → β}
    (hf : ∀ a b, values a b → b = f a) : x' = f <$> x := by
  funext c
  have hrun := h c c rfl
  rw [map_eq_pure_bind, CompileM.bind_run]
  generalize x c = r at hrun ⊢
  generalize x' c = r' at hrun ⊢
  cases hrun with
  | ok hv hc =>
      subst hc
      rw [hf _ _ hv]
      rfl
  | error hs =>
      obtain ⟨rfl, rfl⟩ := hs
      rfl
  | excused hlax => exact hlax.elim

/-- Lines keep in step with themselves, with the others behind their end. -/
theorem extended_lines (ls : List SourceLine) : (extended tail).Lines ls (ls ++ tail) := by
  induction ls with
  | nil => exact .tail
  | cons l ls ih =>
      cases hblank : l.isBlank with
      | true => exact .blank hblank rfl rfl ih
      | false => exact .both ⟨rfl, hblank⟩ ih

/-- In step means the same lines and those behind, so the second lines are known from the first. -/
theorem eq_append_of_extended {ls ls' : List SourceLine} (h : (extended tail).Lines ls ls') :
    ls' = ls ++ tail := by
  induction h with
  | tail => rfl
  | both hl _ ih => rw [hl.1, ih]; rfl
  | @blank l l' _ _ _ htext hnumber _ ih =>
      obtain ⟨n, t⟩ := l
      obtain ⟨n', t'⟩ := l'
      cases htext
      cases hnumber
      rw [ih]
      rfl
  | first hloose => exact hloose.elim
  | second hloose => exact hloose.elim

end Coupling

/-- Nothing that is read above a boundary goes beyond it. -/
theorem SourceLine.IsBoundary.closes {head : SourceLine} (h : head.IsBoundary)
    (rest : List SourceLine) : Closes (head :: rest) := by
  obtain ⟨-, hblank, -⟩ := Coupling.scan_boundary h
  exact .inr ⟨head, rest, by simp [skipBlank, hblank], h⟩

/-! ### Blocks -/

namespace Block

variable {e : Expander}

/-- A block keeps in step with itself, however many lines are allowed for. -/
theorem extended_readWithin {most : Nat} {ls : List SourceLine} (h : ls.length ≤ most)
    (depth : Nat) : (Coupling.extended []).Couples ((Coupling.extended []).Read ls ls)
      (readWithin e most depth ls) (readBlock e depth ls) := by
  have : (Coupling.extended []).Lawful := Coupling.extended_lawful (.inl rfl)
  have hlines : (Coupling.extended []).Lines ls (ls ++ []) := Coupling.extended_lines ls
  rw [List.append_nil] at hlines
  exact Coupling.couples_readWithin (Coupling.extended_expands e) h (Nat.le_refl _) depth (.inr rfl)
    hlines

/-- More lines than there are need not be allowed for. -/
theorem readWithin_of_length_le {most : Nat} {ls : List SourceLine} (h : ls.length ≤ most)
    (depth : Nat) : readWithin e most depth ls = readBlock e depth ls := by
  -- with nothing behind the end, the lines left are the same lines
  have hrun := Coupling.run_eq_of_extended (f := id) (extended_readWithin (e := e) h depth)
    fun r r' hr => by
      have hleft := Coupling.eq_append_of_extended hr.2.lines
      rw [List.append_nil] at hleft
      exact Prod.ext hr.1 hleft
  rw [id_map] at hrun
  exact hrun.symm

/-- What a block leaves are lines at its end. -/
theorem suffix_of_readBlock {depth : Nat} {ls : List SourceLine} {c after : Context}
    {r : List Element × List SourceLine} (h : readBlock e depth ls c = .ok r after) :
    r.2 <:+ ls := by
  have hrun := extended_readWithin (e := e) (Nat.le_refl ls.length) depth c c rfl
  rw [show readWithin e ls.length depth ls = readBlock e depth ls from rfl, h] at hrun
  cases hrun with
  | ok hv _ => exact hv.2.first

end Block

/-! ### The top level of a source -/

namespace Document

variable {e : Expander} {x : Line → CompileM (List Tab)}

theorem extended_measuredLine {tail : List SourceLine} (m m' : Line)
    (hm : (Coupling.extended tail).Measured m m') (_ : m.IsInclusion) :
    (Coupling.extended tail).Couples Eq (x m) (x m') := by
  rw [Coupling.extended_measured hm]
  exact Coupling.extended_self _

/-- A line keeps in step with itself in front of more lines. -/
theorem extended_readLine {tail : List SourceLine} (htail : Closes tail) (o : Outline) (l : Line)
    (ls : List SourceLine) :
    (Coupling.extended tail).Couples ((Coupling.extended tail).Read ls (ls ++ tail))
      (readLine e x o l ls) (readLine e x o l (ls ++ tail)) := by
  have := Coupling.extended_lawful htail
  exact Coupling.couples_readTopLine (Coupling.extended_expands e) extended_measuredLine o
    ⟨rfl, rfl, rfl, rfl, trivial⟩ (Coupling.extended_lines ls)

/-- The lines behind the end of a source do not count for the lines above. -/
theorem readLine_append {tail : List SourceLine} (htail : Closes tail) (o : Outline) (l : Line)
    (ls : List SourceLine) :
    readLine e x o l (ls ++ tail) = (fun r => (r.1, r.2 ++ tail)) <$> readLine e x o l ls := by
  apply Coupling.run_eq_of_extended (extended_readLine htail o l ls)
  rintro r r' ⟨houtline, hleft⟩
  exact Prod.ext houtline (Coupling.eq_append_of_extended hleft.lines)

/-- What a line leaves are lines behind it. -/
theorem suffix_of_readLine {o : Outline} {l : Line} {ls : List SourceLine} {c after : Context}
    {r : Outline × List SourceLine} (h : readLine e x o l ls c = .ok r after) : r.2 <:+ ls := by
  have hrun := extended_readLine (e := e) (x := x) (.inl rfl : Closes []) o l ls c c rfl
  rw [readLine_append (.inl rfl), map_eq_pure_bind, CompileM.bind_run_ok h, h] at hrun
  cases hrun with
  | ok hv _ => exact hv.2.first

/-- More lines than there are need not be allowed for. -/
theorem readWithin_of_length_le {most : Nat} {ls : List SourceLine} (h : ls.length ≤ most)
    (o : Outline) : readWithin e x most o ls = readWithin e x ls.length o ls := by
  have : (Coupling.extended []).Lawful := Coupling.extended_lawful (.inl rfl)
  have hlines : (Coupling.extended []).Lines ls (ls ++ []) := Coupling.extended_lines ls
  rw [List.append_nil] at hlines
  have hrun := Coupling.run_eq_of_extended (f := id) (Coupling.couples_readTop rfl
    (Coupling.extended_expands e) (x := x) extended_measuredLine (Nat.le_refl _) h o hlines)
    fun _ _ => Eq.symm
  rwa [id_map] at hrun

/-- Read all lines at the top level of a source. -/
def readTop (e : Expander) (x : Line → CompileM (List Tab)) (o : Outline)
    (ls : List SourceLine) : CompileM Outline :=
  readWithin e x ls.length o ls

/-- What is read of a source is what is gathered at its top level. -/
theorem readSource_eq (e : Expander) (x : Line → CompileM (List Tab)) (source : Text) :
    readSource e x source = Outline.finish <$> readTop e x ∅ (SourceLine.ofSource source) := by
  rw [map_eq_pure_bind]
  rfl

/-- The lines are read one after the other. -/
theorem readTop_eq (o : Outline) (ls : List SourceLine) :
    readTop e x o ls = match skipSilent ls with
      | [] => pure o
      | l :: rest =>
          CompileM.scan l >>= fun m => readLine e x o m rest >>= fun r => readTop e x r.1 r.2 := by
  cases ls with
  | nil => rfl
  | cons l ls =>
      have hskip : skipSilent (l :: ls) <:+ l :: ls := List.dropWhile_suffix _
      -- the count is one per line, and what is found leaves at most the lines behind the first
      rw [readTop, List.length_cons, readWithin, Block.next]
      generalize skipSilent (l :: ls) = found at hskip ⊢
      cases found with
      | nil => rfl
      | cons head rest =>
          have hlt : rest.length ≤ ls.length := Nat.le_of_succ_le_succ hskip.length_le
          funext c
          simp only [CompileM.bind_run]
          cases CompileM.scan head c with
          | error s after => rfl
          | ok m after =>
              simp only [CompileM.pure_run, CompileM.bind_run]
              cases hread : readLine e x o m rest after with
              | error s after => rfl
              | ok r after =>
                  -- the rest has no more lines than are allowed for, so it may have its own count
                  have hle := Nat.le_trans (suffix_of_readLine hread).length_le hlt
                  exact congrFun (readWithin_of_length_le hle r.1) after

theorem readTop_of_silent {ls : List SourceLine} (h : skipSilent ls = []) (o : Outline) :
    readTop e x o ls = pure o := by
  rw [readTop_eq, h]

/-- A line that says something is read, and then the lines that it leaves. -/
theorem readTop_cons {l : SourceLine} (h : l.isSilent = false) (o : Outline)
    (ls : List SourceLine) :
    readTop e x o (l :: ls) = CompileM.scan l >>= fun m =>
      readLine e x o m ls >>= fun r => readTop e x r.1 r.2 := by
  have hskip : skipSilent (l :: ls) = l :: ls := by simp [skipSilent, h]
  rw [readTop_eq, hskip]

/-- A line at the margin is read as it stands, whatever the unit is. -/
theorem readTop_of_head {c : Char} (hblank : Text.isBlank c = false) (hcomment : c ≠ '>')
    (n : Nat) (t : Text) (o : Outline) (ls : List SourceLine) :
    readTop e x o (⟨n, c :: t⟩ :: ls) = readLine e x o ⟨n, 0, 0, Text.trimEnd (c :: t)⟩ ls >>=
      fun r => readTop e x r.1 r.2 := by
  rw [readTop_cons (SourceLine.isSilent_of_head hblank hcomment n t)]
  funext ctx
  exact CompileM.bind_run_ok (CompileM.scan_of_head hblank n t ctx) _

/-- The lines above the line of a section, a tab or an inclusion are read as if nothing
stood behind them, and then it is read with the lines behind. -/
theorem readTop_append {tail : List SourceLine} (htail : Closes tail) (o : Outline)
    (ls : List SourceLine) :
    readTop e x o (ls ++ tail) = readTop e x o ls >>= fun o => readTop e x o tail := by
  -- on the number of lines, since a line can read more lines than its own
  induction hlength : ls.length using Nat.strongRecOn generalizing o ls with
  | ind n ih =>
      have hskip : skipSilent ls <:+ ls := List.dropWhile_suffix _
      rw [readTop_eq o (ls ++ tail), readTop_eq o ls, skipSilent, List.dropWhile_append]
      change skipSilent ls <:+ ls at hskip
      cases hfound : skipSilent ls with
      -- only silent lines above: the reader goes through to the lines behind
      | nil =>
          have hnone : ls.dropWhile (·.isSilent) = [] := hfound
          simp only [hnone, List.isEmpty_nil, if_true, pure_bind]
          exact (readTop_eq o tail).symm
      | cons head rest =>
          have hsome : ls.dropWhile (·.isSilent) = head :: rest := hfound
          have hlt : rest.length < ls.length := (hfound ▸ hskip).length_le
          -- a line is read the same with more lines behind, and leaves them in place
          simp only [hsome, List.isEmpty_cons, Bool.false_eq_true, if_false, List.cons_append,
            bind_assoc, readLine_append htail, bind_map_left]
          funext c
          simp only [CompileM.bind_run]
          cases CompileM.scan head c with
          | error s after => rfl
          | ok m after =>
              dsimp only
              cases hread : readLine e x o m rest after with
              | error s after => rfl
              | ok r after =>
                  have hle := (suffix_of_readLine hread).length_le
                  dsimp only
                  rw [ih r.2.length (by omega) r.1 r.2 rfl, CompileM.bind_run]

end Document

end IndentMarkup
