import IndentMarkup.Command
import IndentMarkup.Proofs.Extensions

/-!
What commands do to a tree of files.

A command either stops and changes nothing, or writes one file and changes nothing else. Without
a path for the output this file has the name of the source with another extension, in the same
folder. No included file has such a name, since all of them have the extension of source files;
the root has it exactly if it has the extension of the output already, and then it is lost.

* `FileTree.walk_concat`, `FileTree.resolve_ends` — where a path to a file leads.
* `FileTree.target_ends` — where a file is written.
* `FileTree.reached_eq_root` — which of the files that a compile reads is written.
* `FileTree.run_build`, `FileTree.run_check` — the two commands.
* `FileTree.run_changes_output_only` — what they change.
-/

namespace IndentMarkup

namespace FileTree

open IndentMarkup.Path (Ends IsExtension)

variable {tree : FileTree} {names found parts : List Text} {path extension : Text}

/-! ### Walks -/

/-- What leads to a folder leads through folders. -/
theorem isFolder_mono {front : List Text} (hfront : front <+: names)
    (h : tree.isFolder names = true) : tree.isFolder front = true := by
  simp only [isFolder, Bool.or_eq_true, List.any_eq_true, Bool.and_eq_true,
    List.isPrefixOf_iff_prefix, decide_eq_true_eq] at h ⊢
  rcases h with (hworking | ⟨folder, hmem, hfolder⟩) | ⟨f, hmem, hfile, hne⟩
  · exact .inl (.inl (hfront.trans hworking))
  · exact .inl (.inr ⟨folder, hmem, hfront.trans hfolder⟩)
  · refine .inr ⟨f, hmem, hfront.trans hfile, ?_⟩
    rintro rfl
    exact hne (hfile.eq_of_length_le hfront.length_le)

theorem walk_append (names front parts : List Text) :
    tree.walk names (front ++ parts) = (tree.walk names front).bind (tree.walk · parts) := by
  induction front generalizing names with
  | nil => rfl
  | cons part front ih =>
      simp only [List.cons_append, walk]
      split
      · rfl
      · split
        · exact ih names
        · split
          · exact ih _
          · split
            · rfl
            · split
              · exact ih _
              · rfl

/-- The last part of a walk is a name of its end, or the walk ends in a folder. -/
theorem walk_concat {last : Text} (h : tree.walk names (parts ++ [last]) = .ok found) :
    tree.isFolder found = true ∨ Path.isSilentPart last = false ∧ last ≠ Path.parentPart ∧
      ∃ folder, tree.walk names parts = .ok folder ∧ found = folder ++ [last] := by
  rw [walk_append] at h
  cases hfront : tree.walk names parts with
  | error err =>
      rw [hfront] at h
      cases h
  | ok folder =>
      rw [hfront] at h
      simp only [Except.bind, walk] at h
      split at h
      · cases h
      · next hfolder =>
          have hfolder : tree.isFolder folder = true := by simpa using hfolder
          split at h
          · cases h
            exact .inl hfolder
          · next hsilent =>
              split at h
              · cases h
                exact .inl (isFolder_mono (List.dropLast_prefix folder) hfolder)
              · next hparent =>
                  split at h
                  · cases h
                  · split at h
                    · cases h
                      exact .inr ⟨by simpa using hsilent, hparent, folder, rfl, rfl⟩
                    · cases h

/-- A path that leads to something else than a folder ends in its name. -/
theorem resolve_ends {file : Location} (h : tree.resolve path = .ok file)
    (hfile : tree.isFolder file.names = false) :
    ∃ before name folder, Ends path before name ∧
      tree.walk (tree.origin path) before = .ok folder ∧ file.names = folder ++ [name] := by
  obtain ⟨found, hwalk, rfl⟩ := walk_of_resolve h
  obtain ⟨before, name, hparts⟩ := (List.eq_nil_or_concat' (Path.parts path)).resolve_left
    (Text.pieces_ne_nil _ path)
  rw [hparts] at hwalk
  rcases walk_concat hwalk with hfolder | ⟨hsolid, hparent, folder, hfolder, hfound⟩
  · rw [hfolder] at hfile
    cases hfile
  · exact ⟨before, name, folder, ⟨hparts, hsolid, hparent⟩, hfolder, hfound⟩

/-- A path that a file can be written at has a last name, and leads to no folder. -/
theorem target_ends (h : tree.target path = .ok names) :
    ∃ before name folder, Path.lastName? path = some (before, name) ∧
      tree.walk (tree.origin path) before = .ok folder ∧ names = folder ++ [name] ∧
      tree.isFolder names = false := by
  unfold target at h
  split at h
  · cases h
  · split at h
    · split at h <;> cases h
    · next last before hdrop =>
        split at h
        · cases h
        · next folder hwalk =>
            split at h
            · cases h
            · split at h
              · cases h
              · next hlast =>
                  split at h
                  · cases h
                  · cases h
                    simp only [not_or, Bool.not_eq_true] at hlast
                    obtain ⟨-, hcurrent, hparent, hnew⟩ := hlast
                    refine ⟨before.reverse, last, folder, ?_, hwalk, rfl, hnew⟩
                    -- the last part that is not empty; those behind it come of slashes
                    have hparts := congrArg List.reverse (List.takeWhile_append_dropWhile
                      (p := fun part => decide (part = [])) (l := (Path.parts path).reverse))
                    have hhead := List.head?_dropWhile_not (fun part => decide (part = []))
                      (Path.parts path).reverse
                    rw [hdrop] at hparts hhead
                    refine Path.lastName?_eq_some_iff.2 ⟨?_, hparent,
                      ((Path.parts path).reverse.takeWhile (· = [])).reverse, ?_, ?_⟩
                    · have hsome : last ≠ [] := by simpa using hhead
                      simp [Path.isSilentPart, hsome, hcurrent]
                    · intro part hpart
                      have hempty := List.all_eq_true.1 List.all_takeWhile part
                        (List.mem_reverse.1 hpart)
                      simp only [decide_eq_true_eq] at hempty
                      simp [Path.isSilentPart, hempty]
                    · simpa using hparts.symm

/-! ### Sources and the output -/

/-- An inclusion leads to no file whose name has another extension than source files. -/
theorem ne_of_includes {file next : Location} (h : tree.loader.Includes file next)
    (hext : IsExtension extension) (hsource : extension ≠ Path.sourceExtension) {stem : Text}
    (hstem : stem ≠ []) {folder : List Text} (hnames : tree.isFolder next.names = false) :
    next.names ≠ folder ++ [stem ++ '.' :: extension] := by
  intro heq
  obtain ⟨target, inner, -, hinner, hresolve⟩ := h
  obtain ⟨before, name, folder', hends, -, hname⟩ := resolve_ends hresolve hnames
  obtain ⟨front, hjoin⟩ := Path.exists_parts_join file.parent.text inner
  obtain ⟨before', name', hparts⟩ := (List.eq_nil_or_concat' (Path.parts inner)).resolve_left
    (Text.pieces_ne_nil _ inner)
  -- the last part of the inclusion is the last part of the whole path
  have hsame : name' = name := by
    have hwhole := hends.parts_eq
    rw [hjoin, hparts, ← List.append_assoc] at hwhole
    exact (List.append_singleton_inj.1 hwhole).2
  subst hsame
  have hext' := Path.splitExtension_of_sourceOf hinner ⟨hparts, hends.solid, hends.parent⟩
  rw [hname, List.append_singleton_inj] at heq
  rw [heq.2, Path.splitExtension_append hstem hext.dot] at hext'
  exact hsource (Option.some.inj hext')

/-- Of the files that a compile reads only the root can be the one that is written if the output
gets the name of the root with another extension, and it is if the root has this extension. -/
theorem reached_eq_root {root file : Location} (hroot : tree.resolve path = .ok root)
    (hext : IsExtension extension) (hsource : extension ≠ Path.sourceExtension)
    (htarget : tree.target (Path.withExtension path extension) = .ok names)
    (hreach : Relation.ReflTransGen tree.loader.Includes root file) (hsame : file.names = names) :
    file = root ∧ Path.extension? path = some extension := by
  obtain ⟨_, last, folder, hlast, -, rfl, hnew⟩ := target_ends htarget
  obtain ⟨stem, hstem, rfl⟩ := Path.lastName?_withExtension hext hlast
  rw [← hsame] at hnew
  rcases Relation.ReflTransGen.cases_tail hreach with rfl | ⟨above, -, hincludes⟩
  · obtain ⟨before, name, folder', hends, -, hname⟩ := resolve_ends hroot hnew
    rw [hname, List.append_singleton_inj] at hsame
    rw [hends.extension?, hsame.2, Path.splitExtension_append hstem hext.dot]
    exact ⟨rfl, rfl⟩
  · exact absurd hsame (ne_of_includes hincludes hext hsource hstem hnew)

theorem root_eq_of_extension {root : Location} (hroot : tree.resolve path = .ok root)
    (hfile : tree.isFolder root.names = false)
    (htarget : tree.target (Path.withExtension path extension) = .ok names)
    (hsame : Path.extension? path = some extension) : root.names = names := by
  obtain ⟨before, name, folder, hends, hwalk, hname⟩ := resolve_ends hroot hfile
  obtain ⟨before', last, folder', hlast, hwalk', rfl, -⟩ := target_ends htarget
  rw [hends.extension?] at hsame
  rcases Path.withExtension_self hends hsame with hself | hnone
  · rw [hself] at hlast hwalk'
    cases hends.lastName?.symm.trans hlast
    cases hwalk.symm.trans hwalk'
    exact hname
  · rw [hnone] at hlast
    cases hlast

/-! ### Writing -/

/-- Two trees are the same but for the file with these names. -/
structure ChangesOnly (tree : FileTree) (names : List Text) (after : FileTree) : Prop where
  files : ∀ other, other ≠ names → after.file? other = tree.file? other
  folders : after.folders = tree.folders
  working : after.working = tree.working

/-- Writing changes one file. -/
theorem write_ok {after : FileTree} {content : Text} (h : tree.write path content = .ok after) :
    ∃ names, tree.target path = .ok names ∧ after.file? names = some (.text content) ∧
      tree.ChangesOnly names after := by
  unfold write at h
  cases htarget : tree.target path with
  | error err =>
      rw [htarget] at h
      cases h
  | ok names =>
      rw [htarget] at h
      cases h
      refine ⟨names, rfl, by simp [file?], fun other hother => ?_, rfl, rfl⟩
      have hhead : names ≠ other := Ne.symm hother
      simp only [file?, List.find?_cons, hhead, decide_false, List.find?_filter]
      congr 2
      funext f
      by_cases hf : f.1 = other <;> simp [hf, hother]

end FileTree

/-! ### Plans -/

namespace Command

/-- The extension of the output. -/
def extension (json : Bool) : Text := if json then "json".toList else "html".toList

theorem isExtension_extension (json : Bool) :
    Path.IsExtension (extension json) ∧ extension json ≠ Path.sourceExtension := by
  cases json <;> exact ⟨⟨by decide, by decide, by decide⟩, by decide⟩

variable (loader : Loader) (depth : Nat) (path : Text) (output : Option Text)

/-- A build that stops has failed, and what it writes otherwise comes from a document. -/
theorem plan_build (json : Bool) :
    (∃ message, plan loader depth (.build path output json) = .stop 1 message) ∨
    ∃ d content, Document.compileFile loader depth path = .ok d ∧
      plan loader depth (.build path output json)
        = .write (output.getD (Path.withExtension path (extension json))) content := by
  simp only [plan, extension]
  cases hd : Document.compileFile loader depth path with
  | error s => cases s <;> exact .inl ⟨_, rfl⟩
  | ok d =>
      cases json with
      | true => exact .inr ⟨d, _, rfl, rfl⟩
      | false =>
          dsimp only
          cases hr : d.render with
          | error e => exact .inl ⟨_, rfl⟩
          | ok r => exact .inr ⟨d, _, rfl, rfl⟩

/-- A check stops, with the failure of the build of the page or, if this writes, without one. -/
theorem plan_check :
    (∃ message, plan loader depth (.check path) = .stop 1 message ∧
      plan loader depth (.build path output false) = .stop 1 message) ∨
    ∃ message place content, plan loader depth (.check path) = .stop 0 message ∧
      plan loader depth (.build path output false) = .write place content := by
  simp only [plan]
  cases hd : Document.compileFile loader depth path with
  | error s => cases s <;> exact .inl ⟨_, rfl, rfl⟩
  | ok d =>
      dsimp only
      cases hr : d.render with
      | error e => exact .inl ⟨_, rfl, rfl⟩
      | ok r => exact .inr ⟨_, _, _, rfl, rfl⟩

end Command

/-! ### Commands -/

namespace FileTree

variable (tree : FileTree) (depth : Nat) (path : Text)

theorem run_of_stop {tree : FileTree} {depth : Nat} {c : Command} {code : Nat} {message : Text}
    (h : c.plan tree.loader depth = .stop code message) :
    tree.run depth c = ⟨code, message, tree⟩ := by
  rw [run, h]

/-- A build fails and changes nothing, or it writes what comes from a document. -/
theorem run_build (output : Option Text) (json : Bool) :
    (tree.run depth (.build path output json)).code ≠ 0 ∧
      (tree.run depth (.build path output json)).tree = tree ∨
    (tree.run depth (.build path output json)).code = 0 ∧
      ∃ d names, Document.compileFile tree.loader depth path = .ok d ∧
        tree.target (output.getD (Path.withExtension path (Command.extension json))) = .ok names ∧
        tree.ChangesOnly names (tree.run depth (.build path output json)).tree := by
  rcases Command.plan_build tree.loader depth path output json with
    ⟨message, hplan⟩ | ⟨d, content, hd, hplan⟩
  · rw [run_of_stop hplan]
    exact .inl ⟨Nat.one_ne_zero, rfl⟩
  · rw [run, hplan]
    dsimp only
    cases hwrite : tree.write _ content with
    | error err => exact .inl ⟨Nat.one_ne_zero, rfl⟩
    | ok after =>
        obtain ⟨names, htarget, -, hchanges⟩ := write_ok hwrite
        exact .inr ⟨rfl, d, names, hd, htarget, hchanges⟩

/-- A check changes nothing, and succeeds exactly if the build of the page comes to writing. -/
theorem run_check (output : Option Text) :
    (tree.run depth (.check path)).tree = tree ∧
      ((tree.run depth (.check path)).code = 0 ↔ ∃ place content,
        Command.plan tree.loader depth (.build path output false) = .write place content) := by
  rcases Command.plan_check tree.loader depth path output with
    ⟨message, hcheck, hbuild⟩ | ⟨message, place, content, hcheck, hbuild⟩
  · rw [run_of_stop hcheck, hbuild]
    exact ⟨rfl, iff_of_false Nat.one_ne_zero nofun⟩
  · rw [run_of_stop hcheck, hbuild]
    exact ⟨rfl, iff_of_true rfl ⟨place, content, rfl⟩⟩

theorem root_of_compileFile {loader : Loader} {depth : Nat} {path : Text} {d : Document}
    (h : Document.compileFile loader depth path = .ok d) :
    ∃ root source, loader.resolve path = .ok root ∧ loader.load root = .ok source := by
  unfold Document.compileFile Document.compileFileWith at h
  split at h
  · cases h
  · next root hroot =>
      split at h
      · cases h
      · next source hload => exact ⟨root, source, hroot, hload⟩

/-- A command that fails and a check change nothing, and a build that succeeds changes nothing but
its output. If no path is given for the output, no file that the compile reads is the output,
unless it is the root and has the extension of the output; and then, on a disk, it is. A check
succeeds exactly if the build of the page comes to writing. -/
theorem run_changes_output_only :
    (∀ c, (tree.run depth c).code ≠ 0 → (tree.run depth c).tree = tree) ∧
    (∀ path, (tree.run depth (.check path)).tree = tree) ∧
    (∀ path output json, (tree.run depth (.build path output json)).code = 0 →
      ∃ root names, tree.loader.resolve path = .ok root ∧
        tree.target (output.getD (Path.withExtension path (Command.extension json))) = .ok names ∧
        tree.ChangesOnly names (tree.run depth (.build path output json)).tree ∧
        (output = none →
          (∀ file, Relation.ReflTransGen tree.loader.Includes root file → file.names = names →
            file = root ∧ Path.extension? path = some (Command.extension json)) ∧
          (tree.IsProper → Path.extension? path = some (Command.extension json) →
            root.names = names))) ∧
    ∀ path output, (tree.run depth (.check path)).code = 0 ↔ ∃ place content,
      Command.plan tree.loader depth (.build path output false) = .write place content := by
  refine ⟨fun c hcode => ?_, fun path => (run_check tree depth path none).1,
    fun path output json hcode => ?_, fun path output => (run_check tree depth path output).2⟩
  · cases c with
    | check path => exact (run_check tree depth path none).1
    | build path output json =>
        rcases run_build tree depth path output json with ⟨-, htree⟩ | ⟨hzero, -⟩
        · exact htree
        · exact absurd hzero hcode
  · rcases run_build tree depth path output json with
      ⟨hfails, -⟩ | ⟨-, d, names, hd, htarget, hchanges⟩
    · exact absurd hcode hfails
    · obtain ⟨root, source, hroot, hload⟩ := root_of_compileFile hd
      obtain ⟨hext, hsource⟩ := Command.isExtension_extension json
      refine ⟨root, names, hroot, htarget, hchanges, ?_⟩
      rintro rfl
      rw [Option.getD_none] at htarget
      constructor
      · exact fun file hreach hsame =>
          reached_eq_root hroot hext hsource htarget hreach hsame
      · intro htree hsame
        have hfile := htree.apart _ (text_of_read hload).2
        exact root_eq_of_extension hroot hfile htarget hsame

/-- A root in a folder with the file that it includes, and with an earlier page of its own. -/
def sourcesTree : FileTree where
  files := [(["d".toList, "r.smsh".toList], .text "# a\n! b".toList),
    (["d".toList, "b.smsh".toList], .text "# c".toList),
    (["d".toList, "r.html".toList], .text "old".toList)]
  folders := []
  working := []

theorem run_changes_output_only_sourcesTree :
    (sourcesTree.run 0 (.build "d/r.smsh".toList none false)).code = 0 ∧
      ∃ root, sourcesTree.loader.resolve "d/r.smsh".toList = .ok root ∧
        sourcesTree.ChangesOnly ["d".toList, "r.html".toList]
          (sourcesTree.run 0 (.build "d/r.smsh".toList none false)).tree ∧
        ∀ file, Relation.ReflTransGen sourcesTree.loader.Includes root file →
          file.names ≠ ["d".toList, "r.html".toList] := by
  have hcode : (sourcesTree.run 0 (.build "d/r.smsh".toList none false)).code = 0 := by
    decide +kernel
  have htarget : sourcesTree.target (Path.withExtension "d/r.smsh".toList (Command.extension false))
      = .ok ["d".toList, "r.html".toList] := by
    decide +kernel
  have hother : Path.extension? "d/r.smsh".toList ≠ some (Command.extension false) := by
    decide +kernel
  obtain ⟨root, names, hroot, hnames, hchanges, hsources⟩ :=
    (run_changes_output_only sourcesTree 0).2.2.1 _ _ _ hcode
  cases htarget.symm.trans hnames
  exact ⟨hcode, root, hroot, hchanges, fun file hreach hsame =>
    hother ((hsources rfl).1 file hreach hsame).2⟩

/-- A source with the extension of pages. -/
def pageTree : FileTree where
  files := [(["a.html".toList], .text "# s".toList)]
  folders := []
  working := []

theorem run_overwrites_pageTree :
    pageTree.IsProper ∧
      pageTree.loader.resolve "a.html".toList = .ok ⟨true, ["a.html".toList]⟩ ∧
      pageTree.loader.load ⟨true, ["a.html".toList]⟩ = .ok "# s".toList ∧
      (pageTree.run 0 (.build "a.html".toList none false)).code = 0 ∧
      (pageTree.run 0 (.build "a.html".toList none false)).tree.file? ["a.html".toList]
        ≠ pageTree.file? ["a.html".toList] := by
  refine ⟨⟨by decide +kernel, by decide +kernel, by decide +kernel, by decide +kernel⟩, ?_, ?_⟩
  · decide +kernel
  · decide +kernel

end FileTree

end IndentMarkup
