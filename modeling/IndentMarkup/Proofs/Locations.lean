import IndentMarkup.Proofs.Calls
import IndentMarkup.Proofs.Folders

/-!
What a path leads to, and what its location says of it.

Read part by part, a path climbs some levels above the place it starts from and then goes down
along names. Its location keeps the names, but of the climbs only whether their number is odd: a
step up that finds no name is written down as a name, and the next one takes it for a name to
remove. At the root, where there is nothing to climb to, it is written down all the same.

* `Route` — the climbs and the names of a path.
* `Location.denoted` — the place that the route leads to.
* `Location.step_route` — what a part does to a route and to names.
* `Location.ofPath_eq` — a location by the route of its path.
* `Location.ofPath_inj_iff` — which paths have one location.
* `Location.ofPath_route` — when the location is the place.
* `Location.ofPath_text` — the text of a location has that location.
-/

namespace IndentMarkup

open IndentMarkup.Path (parentPart IsName)

/-! ### Routes -/

/-- How far a path climbs above the place it starts from, and the names it goes down then. -/
structure Route where
  climbs : Nat
  names : List Text
  deriving DecidableEq, Repr

namespace Route

/-- The route after one more part: a step up takes back the last name, and climbs if there is
none. -/
def step (r : Route) (part : Text) : Route :=
  if Path.isSilentPart part then r
  else if part = parentPart then
    if r.names = [] then { r with climbs := r.climbs + 1 } else { r with names := r.names.dropLast }
  else { r with names := r.names ++ [part] }

/-- The route of a path. -/
def ofPath (path : Text) : Route := (Path.parts path).foldl step ⟨0, []⟩

theorem isName_step {r : Route} {part : Text} (hr : ∀ n ∈ r.names, IsName n)
    (hpart : '/' ∉ part) : ∀ n ∈ (r.step part).names, IsName n := by
  unfold step
  split
  · exact hr
  · next hsilent =>
      split
      · split
        · exact hr
        · exact fun n hn => hr n (List.dropLast_subset r.names hn)
      · next hparent =>
          simp only [Path.isSilentPart, Bool.or_eq_true, decide_eq_true_eq, not_or] at hsilent
          intro n hn
          rcases List.mem_append.1 hn with hn | hn
          · exact hr n hn
          · exact List.mem_singleton.1 hn ▸ ⟨hsilent.1, hsilent.2, hparent, hpart⟩

theorem isName_foldl_step {parts : List Text} (hparts : ∀ part ∈ parts, '/' ∉ part) {r : Route}
    (hr : ∀ n ∈ r.names, IsName n) : ∀ n ∈ (parts.foldl step r).names, IsName n := by
  induction parts generalizing r with
  | nil => exact hr
  | cons part parts ih =>
      obtain ⟨hpart, hparts⟩ := List.forall_mem_cons.1 hparts
      exact ih hparts (isName_step hr hpart)

/-- A route goes down along names only. -/
theorem isName_ofPath (path : Text) : ∀ n ∈ (ofPath path).names, IsName n :=
  isName_foldl_step (fun _ => Path.notMem_of_mem_parts) nofun

theorem parentPart_notMem_ofPath (path : Text) : parentPart ∉ (ofPath path).names :=
  fun h => (isName_ofPath path _ h).parent rfl

end Route

/-! ### Locations of routes -/

namespace Location

/-- The place that a path denotes: a relative path leads as many levels up as it climbs, and
directly under the root there is nothing to climb to. -/
def denoted (path : Text) : Location :=
  let r := Route.ofPath path
  ⟨Path.isAbsolute path,
    if Path.isAbsolute path then r.names else List.replicate r.climbs parentPart ++ r.names⟩

/-- A part does to the names of a location what it does to the route, up to an even number of
climbs. -/
theorem step_route (r : Route) (part : Text) :
    step (List.replicate (r.climbs % 2) parentPart ++ r.names) part =
      List.replicate ((r.step part).climbs % 2) parentPart ++ (r.step part).names := by
  unfold step Route.step
  split
  · rfl
  · split
    · by_cases hnames : r.names = []
      · -- the climb before this one is taken for a name
        rcases Nat.mod_two_eq_zero_or_one r.climbs with h | h
        · have hnext : (r.climbs + 1) % 2 = 1 := by omega
          simp [hnames, h, hnext]
        · have hnext : (r.climbs + 1) % 2 = 0 := by omega
          simp [hnames, h, hnext]
      · rw [if_neg (List.append_ne_nil_of_right_ne_nil _ hnames), if_neg hnames,
          List.dropLast_append_of_ne_nil hnames]
    · exact List.append_assoc _ _ _

theorem foldl_step_route (parts : List Text) (r : Route) :
    parts.foldl step (List.replicate (r.climbs % 2) parentPart ++ r.names) =
      List.replicate ((parts.foldl Route.step r).climbs % 2) parentPart ++
        (parts.foldl Route.step r).names := by
  induction parts generalizing r with
  | nil => rfl
  | cons part parts ih => rw [List.foldl_cons, step_route, ih, List.foldl_cons]

theorem ofPath_eq (path : Text) :
    ofPath path = ⟨Path.isAbsolute path,
      List.replicate ((Route.ofPath path).climbs % 2) parentPart ++ (Route.ofPath path).names⟩ :=
  congrArg (Location.mk _) (foldl_step_route (Path.parts path) ⟨0, []⟩)

/-- A location has a step up among its names just if its path climbs an odd number of levels. -/
theorem parentPart_mem_ofPath (path : Text) :
    parentPart ∈ (ofPath path).names ↔ (Route.ofPath path).climbs % 2 = 1 := by
  rw [ofPath_eq, List.mem_append, or_iff_left (Route.parentPart_notMem_ofPath path),
    List.mem_replicate, and_iff_left rfl]
  omega

theorem ofPath_inj_iff (path path' : Text) :
    ofPath path' = ofPath path ↔ Path.isAbsolute path' = Path.isAbsolute path ∧
      (Route.ofPath path').names = (Route.ofPath path).names ∧
      (Route.ofPath path').climbs % 2 = (Route.ofPath path).climbs % 2 := by
  constructor
  · intro heq
    have hclimbs : (Route.ofPath path').climbs % 2 = (Route.ofPath path).climbs % 2 := by
      have hmem := parentPart_mem_ofPath path'
      rw [heq, parentPart_mem_ofPath] at hmem
      omega
    rw [ofPath_eq, ofPath_eq, hclimbs, Location.mk.injEq] at heq
    exact ⟨heq.1, List.append_cancel_left heq.2, hclimbs⟩
  · rintro ⟨habsolute, hnames, hclimbs⟩
    rw [ofPath_eq, ofPath_eq, habsolute, hnames, hclimbs]

theorem ofPath_eq_denoted_iff (path : Text) :
    ofPath path = denoted path ↔
      if Path.isAbsolute path then (Route.ofPath path).climbs % 2 = 0
      else (Route.ofPath path).climbs ≤ 1 := by
  rw [ofPath_eq, denoted, Location.mk.injEq]
  cases Path.isAbsolute path with
  | true =>
      rw [if_pos rfl, if_pos rfl, and_iff_right rfl, List.append_left_eq_self,
        List.replicate_eq_nil_iff]
  | false =>
      rw [if_neg nofun, if_neg nofun, and_iff_right rfl, List.append_left_inj,
        List.replicate_left_inj]
      omega

/-- The location of a path has the names that the path goes down, and a step up in front of them
just if it climbs an odd number of levels. So it is the place that the path denotes if the path is
relative and climbs one level at most, or is absolute and steps up an even number of times from
the root; two paths have one location just if their names and the parities of their climbs agree;
and a path has the location of one that stays inside just if it climbs an even number of levels,
though it may lead outside. -/
theorem ofPath_route (path : Text) :
    ofPath path = ⟨Path.isAbsolute path,
        List.replicate ((Route.ofPath path).climbs % 2) parentPart ++ (Route.ofPath path).names⟩ ∧
      (ofPath path = denoted path ↔
        if Path.isAbsolute path then (Route.ofPath path).climbs % 2 = 0
        else (Route.ofPath path).climbs ≤ 1) ∧
      (∀ path', ofPath path' = ofPath path ↔ Path.isAbsolute path' = Path.isAbsolute path ∧
        (Route.ofPath path').names = (Route.ofPath path).names ∧
        (Route.ofPath path').climbs % 2 = (Route.ofPath path).climbs % 2) ∧
      (parentPart ∈ (ofPath path).names ↔ (Route.ofPath path).climbs % 2 = 1) :=
  ⟨ofPath_eq path, ofPath_eq_denoted_iff path, ofPath_inj_iff path, parentPart_mem_ofPath path⟩

/-- Two climbs cancel out: a path that leads two levels up has the location of one that leads
nowhere up, and its inclusion reads the file inside. At the root a climb is written down. -/
theorem ofPath_two_climbs :
    denoted "../../a.smsh".toList = ⟨false, [parentPart, parentPart, "a.smsh".toList]⟩ ∧
      ofPath "../../a.smsh".toList = ofPath "a.smsh".toList ∧
      denoted "../../a.smsh".toList ≠ denoted "a.smsh".toList ∧
      denoted "/../a.smsh".toList = ofPath "/a.smsh".toList ∧
      ofPath "/../a.smsh".toList ≠ denoted "/../a.smsh".toList ∧
      ∃ d, Document.compileFile
          (Library.ofList
            [("a.smsh".toList, "# s".toList), ("r.smsh".toList, "! ../../a".toList)]).loader
          0 "r.smsh".toList = .ok d ∧ d.sections.length = 1 := by
  decide +kernel

/-! ### Locations as paths -/

theorem isAbsolute_join {names : List Text} (hnames : ∀ n ∈ names, n ≠ [] ∧ '/' ∉ n) :
    Path.isAbsolute (Text.join ['/'] names) = false := by
  cases names with
  | nil => rfl
  | cons n names =>
      obtain ⟨hne, hslash⟩ := hnames n List.mem_cons_self
      obtain ⟨c, u, rfl⟩ := List.exists_cons_of_ne_nil hne
      have hc : c ≠ '/' := fun heq => hslash (heq ▸ List.mem_cons_self)
      cases names with
      | nil => simp [Text.join, Path.isAbsolute, hc]
      | cons m names => simp [Text.join, Path.isAbsolute, hc]

theorem foldl_step_parts_join {names : List Text} (hnames : ∀ n ∈ names, '/' ∉ n) :
    (Path.parts (Text.join ['/'] names)).foldl step [] = names.foldl step [] := by
  by_cases hsome : names = []
  · subst hsome
    rfl
  · rw [Path.parts, Text.pieces_join hsome hnames]

/-- The text of a location is a path to it, if its names lead where they stand. -/
theorem ofPath_text_of_foldl {absolute : Bool} {names : List Text}
    (hnames : ∀ n ∈ names, n ≠ [] ∧ '/' ∉ n) (hfold : names.foldl step [] = names) :
    ofPath (text ⟨absolute, names⟩) = ⟨absolute, names⟩ := by
  have hparts := foldl_step_parts_join fun n hn => (hnames n hn).2
  cases absolute with
  | false =>
      have htext : text ⟨false, names⟩ = Text.join ['/'] names := rfl
      rw [htext, ofPath, isAbsolute_join hnames, hparts, hfold]
  | true =>
      have htext : text ⟨true, names⟩ = [] ++ '/' :: Text.join ['/'] names := rfl
      have hempty : (Path.parts []).foldl step [] = [] := rfl
      rw [htext, ofPath, Path.parts_append_slash, List.foldl_append, hempty, hparts, hfold]
      rfl

theorem ofPath_text (path : Text) : ofPath (ofPath path).text = ofPath path := by
  have hnames := Route.isName_ofPath path
  rw [ofPath_eq path]
  refine ofPath_text_of_foldl (fun n hn => ?_) ?_
  · rcases List.mem_append.1 hn with hn | hn
    · rw [List.eq_of_mem_replicate hn]
      decide
    · exact ⟨(hnames n hn).nonempty, (hnames n hn).slash⟩
  · -- there is at most one step up, and it finds no name in front of it
    rcases Nat.mod_two_eq_zero_or_one (Route.ofPath path).climbs with h | h
    · rw [h, List.replicate_zero, List.nil_append, foldl_step_names hnames, List.nil_append]
    · rw [h, List.replicate_one, List.singleton_append, List.foldl_cons]
      exact foldl_step_names hnames [parentPart]

end Location

end IndentMarkup
