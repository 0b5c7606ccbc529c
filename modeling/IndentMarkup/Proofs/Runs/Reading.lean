import IndentMarkup.Proofs.Boundary

/-!
Blocks and runs, line by line.

The readers of blocks and of the items of a run are bounded by counts. The counts never run out, so
what they do can be said without them: a block is read as long as lines come at its depth, a run
as long as its items come.

* `Block.Stops`, `Block.Reads` — where a block ends, and how it is read.
* `Block.reads_iff` — the reader of blocks does so.
* `Block.Comes`, `Block.Comes.reads` — on its way a block comes to some lines, and it goes on with
  them as if it started there.
* `Block.Collects`, `Block.exists_collects` — the same for the items of a run.
-/

namespace IndentMarkup

/-- What follows an action counts only on what the action comes to. -/
theorem CompileM.bind_congr {α β : Type} {x : CompileM α} {f g : α → CompileM β} {c : Context}
    (h : ∀ a d, x c = .ok a d → f a d = g a d) : (x >>= f) c = (x >>= g) c := by
  rw [bind_run, bind_run]
  cases hx : x c with
  | ok a d => exact h a d hx
  | error s d => rfl

namespace Block

open Coupling

variable {e : Expander} {depth : Nat} {ls left : List SourceLine} {c d : Context}
  {es : List Element}

/-! ### Without counts -/

/-- Two readers that keep in step on the same lines are one. -/
theorem eq_of_extended {α : Type} {x x' : CompileM (α × List SourceLine)}
    (h : (extended []).Couples ((extended []).Read ls ls) x x') : x' = x := by
  have hrun := run_eq_of_extended (f := id) h fun r r' hr => by
    have hleft := eq_append_of_extended hr.2.lines
    rw [List.append_nil] at hleft
    exact Prod.ext hr.1 hleft
  rwa [id_map] at hrun

theorem suffix_of_extended {α : Type} {x : CompileM (α × List SourceLine)}
    (h : (extended []).Couples ((extended []).Read ls ls) x x) {r : α × List SourceLine}
    (hrun : x c = .ok r d) : r.2 <:+ ls := by
  have hself := h c c rfl
  rw [hrun] at hself
  cases hself with
  | ok hv _ => exact hv.2.first

section Readers

theorem extended_self_lines (ls : List SourceLine) : (extended []).Lines ls ls := by
  have h : (extended []).Lines ls (ls ++ []) := extended_lines ls
  rwa [List.append_nil] at h

theorem extended_descends {most n : Nat} (h : n ≤ most) :
    (extended []).Descends (n + 1) (n + 1) (readWithin e most) (readBlock e) := by
  have : (extended []).Lawful := extended_lawful (.inl rfl)
  intro depth ls ls' hdepth hls hlt _
  exact couples_readWithin (extended_expands e) (by omega) (Nat.le_refl _) depth hdepth hls

/-- The lines below a line bound the children that it has. -/
theorem readLineWith_of_length_le {most : Nat} (h : ls.length ≤ most) (m : Line) :
    readLineWith e (readWithin e most) m ls = readLine e m ls := by
  have : (extended []).Lawful := extended_lawful (.inl rfl)
  exact (eq_of_extended (couples_readLineWith (extended_expands e) (extended_descends h)
    ⟨rfl, rfl, rfl, rfl, trivial⟩ (extended_self_lines ls) (by omega) (by omega))).symm

theorem suffix_of_readLine {m : Line} (h : readLine e m ls c = .ok (es, left) d) : left <:+ ls := by
  have : (extended []).Lawful := extended_lawful (.inl rfl)
  exact suffix_of_extended (couples_readLine (extended_expands e) (m := m)
    ⟨rfl, rfl, rfl, rfl, trivial⟩ (extended_self_lines ls)) h

theorem suffix_of_readElement {m : Line} {head : TagLine} {tag : Text} {el : Element}
    (h : readElement e (readBlock e) m head tag ls c = .ok (el, left) d) : left <:+ ls := by
  have : (extended []).Lawful := extended_lawful (.inl rfl)
  exact suffix_of_extended (couples_readElement (extended_expands e)
    (extended_descends (n := ls.length) (Nat.le_refl _)) (m := m) ⟨rfl, rfl, rfl, rfl, trivial⟩
    ⟨rfl, rfl, rfl, rfl, rfl, fun _ _ => trivial⟩ tag (extended_self_lines ls) (by omega)
    (by omega)) h

theorem readItems_of_length_le {token inner : Text} {most : Nat} (h : ls.length ≤ most) :
    readItems e (readBlock e) token inner depth most ls =
      readItems e (readBlock e) token inner depth ls.length ls := by
  have : (extended []).Lawful := extended_lawful (.inl rfl)
  have hdescends : (extended []).Descends (ls.length + 1) (ls.length + 1) (readBlock e)
      (readBlock e) := by
    intro depth ls ls' hdepth hls _ _
    exact couples_readWithin (extended_expands e) (Nat.le_refl _) (Nat.le_refl _) depth hdepth hls
  exact (eq_of_extended (couples_readItems (extended_expands e) hdescends token inner depth
    (extended_self_lines ls) (by omega) (by omega) h (Nat.le_refl _))).symm

end Readers

/-! ### Blocks -/

/-- A block ends in front of the lines: nothing follows, or a line that is less deep. -/
def Stops (depth : Nat) (ls : List SourceLine) (c : Context) : Prop :=
  skipSilent ls = [] ∨ ∃ l rest m, skipSilent ls = l :: rest ∧ l.scan c.indentation = .ok m ∧
    m.depth < depth

/-- From a context on, the lines hold elements at a depth, and lines and a context are left. -/
inductive Reads (e : Expander) (depth : Nat) :
    List SourceLine → Context → List Element → List SourceLine → Context → Prop where
  | stop {ls : List SourceLine} {c : Context} : Stops depth ls c → Reads e depth ls c [] ls c
  | line {ls rest between left : List SourceLine} {l : SourceLine} {m : Line} {c mid d : Context}
      {es more : List Element} :
      skipSilent ls = l :: rest → l.scan c.indentation = .ok m → m.depth = depth →
      readLine e m rest c = .ok (es, between) mid → Reads e depth between mid more left d →
      Reads e depth ls c (es ++ more) left d

theorem readBlock_eq (e : Expander) (depth : Nat) (ls : List SourceLine) :
    readBlock e depth ls = match skipSilent ls with
      | [] => pure ([], ls)
      | l :: rest => CompileM.scan l >>= fun m =>
          if m.depth < depth then pure ([], ls)
          else if depth < m.depth then .failAt (.tooDeep depth m.depth) m.number none
          else readLine e m rest >>= fun r => readBlock e depth r.2 >>= fun more =>
            pure (r.1 ++ more.1, more.2) := by
  have hskip : skipSilent ls <:+ ls := List.dropWhile_suffix _
  cases ls with
  | nil => rfl
  | cons l ls =>
      rw [readBlock, List.length_cons, readWithin, next]
      cases hfound : skipSilent (l :: ls) with
      | nil => rfl
      | cons head rest =>
          -- the count is one per line, and what is found leaves at most the lines behind the first
          have hlt : rest.length ≤ ls.length := Nat.le_of_succ_le_succ (hfound ▸ hskip).length_le
          dsimp only
          rw [bind_assoc]
          funext c
          refine CompileM.bind_congr fun m mid _ => ?_
          rw [pure_bind]
          dsimp only
          by_cases hless : m.depth < depth
          · rw [if_pos hless, if_pos hless]
          rw [if_neg hless, if_neg hless]
          by_cases hmore : depth < m.depth
          · rw [if_pos hmore, if_pos hmore]
          rw [if_neg hmore, if_neg hmore, readLineWith_of_length_le hlt]
          refine CompileM.bind_congr fun r mid hread => ?_
          have hle := Nat.le_trans (suffix_of_readLine hread).length_le hlt
          rw [readWithin_of_length_le hle]

/-- What follows the measuring of a line follows in the same context. -/
theorem scan_bind_run {α : Type} {l : SourceLine} {m : Line}
    (h : l.scan c.indentation = .ok m) (f : Line → CompileM α) :
    (CompileM.scan l >>= f) c = f m c := by
  have hrun : CompileM.scan l c = .ok m c := by rw [CompileM.scan, h]
  rw [CompileM.bind_run_ok hrun]

theorem exists_of_scan_bind {α : Type} {l : SourceLine} {f : Line → CompileM α} {a : α}
    (h : (CompileM.scan l >>= f) c = .ok a d) :
    ∃ m, l.scan c.indentation = .ok m ∧ f m c = .ok a d := by
  obtain ⟨m, mid, hrun, hthen⟩ := CompileM.exists_of_bind_ok h
  rw [CompileM.scan] at hrun
  split at hrun
  · next hscan =>
      cases hrun
      exact ⟨m, hscan, hthen⟩
  · cases hrun

theorem readBlock_of_stops (h : Stops depth ls c) : readBlock e depth ls c = .ok ([], ls) c := by
  rw [readBlock_eq]
  rcases h with hnone | ⟨l, rest, m, hfound, hscan, hlt⟩
  · rw [hnone]
    rfl
  · rw [hfound]
    dsimp only
    rw [scan_bind_run hscan, if_pos hlt]
    rfl

theorem reads_iff : Reads e depth ls c es left d ↔ readBlock e depth ls c = .ok (es, left) d := by
  constructor
  · intro h
    induction h with
    | stop h => exact readBlock_of_stops h
    | line hfound hscan hdepth hline _ ih =>
        subst hdepth
        rw [readBlock_eq, hfound]
        dsimp only
        rw [scan_bind_run hscan, if_neg (Nat.lt_irrefl _), if_neg (Nat.lt_irrefl _),
          CompileM.bind_run_ok hline, CompileM.bind_run_ok ih]
        rfl
  -- on the number of lines, since a line can read more lines than its own
  · intro h
    induction hlength : ls.length using Nat.strongRecOn generalizing ls c es with
    | ind n ih =>
        rw [readBlock_eq] at h
        have hskip : skipSilent ls <:+ ls := List.dropWhile_suffix _
        cases hfound : skipSilent ls with
        | nil =>
            rw [hfound] at h
            cases h
            exact .stop (.inl hfound)
        | cons l rest =>
            rw [hfound] at h hskip
            dsimp only at h
            obtain ⟨m, hscan, hthen⟩ := exists_of_scan_bind h
            by_cases hless : m.depth < depth
            · rw [if_pos hless] at hthen
              cases hthen
              exact .stop (.inr ⟨l, rest, m, hfound, hscan, hless⟩)
            rw [if_neg hless] at hthen
            by_cases hmore : depth < m.depth
            · rw [if_pos hmore] at hthen
              cases hthen
            rw [if_neg hmore] at hthen
            obtain ⟨⟨es₁, between⟩, mid, hline, hthen⟩ := CompileM.exists_of_bind_ok hthen
            obtain ⟨⟨more, behind⟩, last, hbehind, hthen⟩ := CompileM.exists_of_bind_ok hthen
            cases hthen
            have hlt : between.length < n := by
              have hsuffix := (suffix_of_readLine hline).length_le
              have hle := hskip.length_le
              rw [List.length_cons] at hle
              omega
            exact .line hfound hscan (by omega) hline (ih _ hlt hbehind rfl)

theorem Reads.stops (h : Reads e depth ls c es left d) : Stops depth left d := by
  induction h with
  | stop h => exact h
  | line _ _ _ _ _ ih => exact ih

/-- A block comes to lines in a context, with the elements that it has read before them. -/
inductive Comes (e : Expander) (depth : Nat) :
    List SourceLine → Context → List Element → List SourceLine → Context → Prop where
  | here {ls : List SourceLine} {c : Context} : Comes e depth ls c [] ls c
  | line {ls rest between later : List SourceLine} {l : SourceLine} {m : Line} {c mid d : Context}
      {es more : List Element} :
      skipSilent ls = l :: rest → l.scan c.indentation = .ok m → m.depth = depth →
      readLine e m rest c = .ok (es, between) mid → Comes e depth between mid more later d →
      Comes e depth ls c (es ++ more) later d

/-- What a block comes to is read as a block of its own. -/
theorem Comes.reads {before : List Element} {later : List SourceLine} {mid : Context}
    (hcomes : Comes e depth ls c before later mid) (h : Reads e depth ls c es left d) :
    ∃ after, es = before ++ after ∧ Reads e depth later mid after left d := by
  induction hcomes generalizing es with
  | here => exact ⟨es, rfl, h⟩
  | line hfound hscan hdepth hline _ ih =>
      cases h with
      | stop hstops =>
          rcases hstops with hnone | ⟨l, rest, m, hfound', hscan', hlt⟩
          · rw [hfound] at hnone
            cases hnone
          · rw [hfound] at hfound'
            cases hfound'
            rw [hscan] at hscan'
            cases hscan'
            omega
      | line hfound' hscan' _ hline' hrest =>
          rw [hfound] at hfound'
          cases hfound'
          rw [hscan] at hscan'
          cases hscan'
          rw [hline] at hline'
          cases hline'
          obtain ⟨after, rfl, hafter⟩ := ih hrest
          exact ⟨after, (List.append_assoc _ _ _).symm, hafter⟩

/-! ### Items -/

/-- A run with this token ends in front of the lines: nothing follows, or a line that does not
continue it. -/
def Halts (token : Text) (depth : Nat) (ls : List SourceLine) (c : Context) : Prop :=
  skipBlank ls = [] ∨ ∃ l rest m, skipBlank ls = l :: rest ∧ l.scan c.indentation = .ok m ∧
    continues token depth m = false

/-- From a context on, the lines hold items of a run, and lines and a context are left. The
measured lines of the items stand beside the elements. -/
inductive Collects (e : Expander) (token inner : Text) (depth : Nat) : List SourceLine → Context →
    List (SourceLine × Line) → List Element → List SourceLine → Context → Prop where
  | halt {ls : List SourceLine} {c : Context} :
      Halts token depth ls c → Collects e token inner depth ls c [] [] ls c
  | item {ls rest between left : List SourceLine} {l : SourceLine} {m : Line} {head : TagLine}
      {c mid d : Context} {el : Element} {lines : List (SourceLine × Line)} {es : List Element} :
      skipBlank ls = l :: rest → l.scan c.indentation = .ok m → continues token depth m = true →
      readTag m c = .ok head c →
      readElement e (readBlock e) m head inner rest c = .ok (el, between) mid →
      Collects e token inner depth between mid lines es left d →
      Collects e token inner depth ls c ((l, m) :: lines) (el :: es) left d

/-- Read the items of a run, however many there are. -/
def readRun (e : Expander) (token inner : Text) (depth : Nat) (ls : List SourceLine) :
    CompileM (List Element × List SourceLine) :=
  readItems e (readBlock e) token inner depth ls.length ls

theorem readRun_eq (e : Expander) (token inner : Text) (depth : Nat) (ls : List SourceLine) :
    readRun e token inner depth ls = match skipBlank ls with
      | [] => pure ([], ls)
      | l :: rest => CompileM.scan l >>= fun m =>
          if continues token depth m then
            readTag m >>= fun head => readElement e (readBlock e) m head inner rest >>= fun r =>
              readRun e token inner depth r.2 >>= fun more => pure (r.1 :: more.1, more.2)
          else pure ([], ls) := by
  have hskip : skipBlank ls <:+ ls := List.dropWhile_suffix _
  cases ls with
  | nil => rfl
  | cons l ls =>
      rw [readRun, List.length_cons, readItems]
      cases hfound : skipBlank (l :: ls) with
      | nil => rfl
      | cons head rest =>
          have hlt : rest.length ≤ ls.length := Nat.le_of_succ_le_succ (hfound ▸ hskip).length_le
          dsimp only
          funext c
          refine CompileM.bind_congr fun m mid _ => ?_
          cases continues token depth m with
          | false => rfl
          | true =>
              refine CompileM.bind_congr fun tag mid _ => CompileM.bind_congr fun r mid hread => ?_
              have hle := Nat.le_trans (suffix_of_readElement hread).length_le hlt
              rw [readRun, readItems_of_length_le hle]

/-- A line is taken apart without a look at the context. -/
theorem readTag_cases (m : Line) :
    (∃ head, readTag m = pure head) ∨ ∃ cause n column, readTag m = .failAt cause n column := by
  have tagged : (∃ head, readTagged m = pure head) ∨
      ∃ cause n column, readTagged m = .failAt cause n column := by
    unfold readTagged
    cases Shorthand.readToken m.content with
    | error err => exact .inr ⟨_, _, _, rfl⟩
    | ok s =>
        dsimp only
        split <;> exact .inl ⟨_, rfl⟩
  unfold readTag
  split
  · exact .inl ⟨_, rfl⟩
  · split <;> exact .inl ⟨_, rfl⟩
  · exact .inl ⟨_, rfl⟩
  · exact tagged

theorem context_of_readTag {m : Line} {head : TagLine} (h : readTag m c = .ok head d) : d = c := by
  rcases readTag_cases m with ⟨head', htag⟩ | ⟨cause, n, column, htag⟩
  · rw [htag] at h
    cases h
    rfl
  · rw [htag] at h
    cases h

variable {token inner : Text} {lines : List (SourceLine × Line)}

theorem Collects.run (h : Collects e token inner depth ls c lines es left d) :
    readRun e token inner depth ls c = .ok (es, left) d := by
  induction h with
  | halt hhalts =>
      rw [readRun_eq]
      rcases hhalts with hnone | ⟨l, rest, m, hfound, hscan, hother⟩
      · rw [hnone]
        rfl
      · rw [hfound]
        dsimp only
        rw [scan_bind_run hscan, hother]
        rfl
  | item hfound hscan hgoes htag hitem _ ih =>
      rw [readRun_eq, hfound]
      dsimp only
      rw [scan_bind_run hscan, if_pos hgoes, CompileM.bind_run_ok htag,
        CompileM.bind_run_ok hitem, CompileM.bind_run_ok ih]
      rfl

theorem exists_collects (h : readRun e token inner depth ls c = .ok (es, left) d) :
    ∃ lines, Collects e token inner depth ls c lines es left d := by
  induction hlength : ls.length using Nat.strongRecOn generalizing ls c es with
  | ind n ih =>
      rw [readRun_eq] at h
      have hskip : skipBlank ls <:+ ls := List.dropWhile_suffix _
      cases hfound : skipBlank ls with
      | nil =>
          rw [hfound] at h
          cases h
          exact ⟨[], .halt (.inl hfound)⟩
      | cons l rest =>
          rw [hfound] at h hskip
          dsimp only at h
          obtain ⟨m, hscan, hthen⟩ := exists_of_scan_bind h
          cases hgoes : continues token depth m with
          | false =>
              rw [hgoes] at hthen
              cases hthen
              exact ⟨[], .halt (.inr ⟨l, rest, m, hfound, hscan, hgoes⟩)⟩
          | true =>
              rw [if_pos hgoes] at hthen
              obtain ⟨head, mid, htag, hbuild⟩ := CompileM.exists_of_bind_ok hthen
              have hmid := context_of_readTag htag
              subst hmid
              obtain ⟨⟨el, between⟩, mid, hitem, hgo⟩ := CompileM.exists_of_bind_ok hbuild
              obtain ⟨⟨more, behind⟩, last, hmore, hend⟩ := CompileM.exists_of_bind_ok hgo
              cases hend
              have hlt : between.length < n := by
                have hsuffix := (suffix_of_readElement hitem).length_le
                have hle := hskip.length_le
                rw [List.length_cons] at hle
                omega
              obtain ⟨lines, hlines⟩ := ih _ hlt hmore rfl
              exact ⟨(l, m) :: lines, .item hfound hscan hgoes htag hitem hlines⟩

end Block

end IndentMarkup
