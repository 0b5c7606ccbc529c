import IndentMarkup.Shorthand
import Mathlib.Order.Bounds.Basic

/-!
The language of shorthands.

What a shorthand is can be said without the automaton that reads it: a name, then groups in
brackets, then a rest. The automaton reads a text exactly if it is written so, and what it returns
is what is written. A text that it refuses goes wrong in the column of the error and not before:
up to there the text is the beginning of a shorthand, and one character more it is not.

* `Shorthand.Body`, `Shorthand.Written` — the grammar.
* `Shorthand.Completes` — what the automaton still accepts at a place.
* `Shorthand.read_eq_ok_iff` — the automaton accepts what is written.
* `Shorthand.isGreatest_column` — the column of an error.
* `Shorthand.read_exact` — the language, the attributes and the errors.
-/

namespace IndentMarkup

namespace Bracket

@[simp] theorem opening?_opener (b : Bracket) : opening? b.opener = some b := by
  cases b <;> rfl

@[simp] theorem closing?_closer (b : Bracket) : closing? b.closer = some b := by
  cases b <;> rfl

theorem eq_opener_of_opening? {c : Char} {b : Bracket} (h : opening? c = some b) :
    c = b.opener := by
  simpa [eq_comm] using List.find?_some h

theorem opener_ne_space (b : Bracket) : b.opener ≠ ' ' := by
  cases b <;> decide

theorem closer_ne_backslash (b : Bracket) : b.closer ≠ '\\' := by
  cases b <;> decide

theorem key_injective {b b' : Bracket} (h : b.key = b'.key) : b = b' := by
  cases b <;> cases b' <;> first | rfl | exact absurd h (by decide)

end Bracket

namespace Shorthand

/-! ### The grammar -/

/-- What stands between two brackets, as it is written and as it is meant: a backslash and the
character behind it are one unit, and outside such units there is no closing bracket. -/
inductive Body : (raw body : Text) → Prop
  | nil : Body [] []
  | plain {c : Char} {raw body : Text} (hslash : c ≠ '\\') (hcloser : Bracket.closing? c = none)
      (h : Body raw body) : Body (c :: raw) (c :: body)
  | escaped {c : Char} {raw body : Text} (h : Body raw body) : Body ('\\' :: c :: raw) (c :: body)

/-- What may stand behind a group: nothing, or spaces if the shorthand fills the text. -/
def Blanks (x : Extent) (t : Text) : Prop := (∀ c ∈ t, c = ' ') ∧ (x = .token → t = [])

/-- A text that consists of groups. -/
inductive Written.Groups (x : Extent) : Text → List Group → Prop
  | nil : Groups x [] []
  | cons {b : Bracket} {raw body blanks t : Text} {gs : List Group} (hbody : Body raw body)
      (hblanks : Blanks x blanks) (h : Groups x t gs) :
      Groups x (b.opener :: (raw ++ b.closer :: (blanks ++ t))) (⟨b, body⟩ :: gs)

/-- A name has no brackets, and no spaces if a space ends the shorthand. -/
def Name (x : Extent) (t : Text) : Prop :=
  ∀ c ∈ t, Bracket.opening? c = none ∧ Bracket.closing? c = none ∧ (x = .token → c ≠ ' ')

/-- What a shorthand may leave: nothing, or a text that starts with a space if one ends it. -/
def Ends (x : Extent) (t : Text) : Prop := t = [] ∨ x = .token ∧ t.head? = some ' '

/-- The text is the name, the groups and the rest of a shorthand, one behind the other. -/
structure Written (x : Extent) (t : Text) (s : Shorthand) : Prop where
  name : Name x s.tag
  split : ∃ w, Written.Groups x w s.groups ∧ t = s.tag ++ (w ++ s.rest)
  ends : Ends x s.rest

/-! ### What a place accepts -/

/-- The text is what follows in a shorthand behind these groups: more groups, and the rest. -/
def Follows (x : Extent) (before : List Group) (t : Text) (s : Shorthand) : Prop :=
  ∃ w gs, Written.Groups x w gs ∧ s.groups = before ++ gs ∧ t = w ++ s.rest ∧ Ends x s.rest

/-- Text that completes a group with a body so far, and then the shorthand. -/
def Closes (x : Extent) (p : Progress) (b : Bracket) (body t : Text) (s : Shorthand) : Prop :=
  ∃ raw more blanks u, Body raw more ∧ Blanks x blanks ∧
    t = raw ++ b.closer :: (blanks ++ u) ∧ s.tag = p.tag ∧
    Follows x (p.groups ++ [⟨b, body ++ more⟩]) u s

/-- What has been read and the text behind it are a shorthand together. -/
def Completes (x : Extent) (p : Progress) (t : Text) (s : Shorthand) : Prop :=
  match p.place with
  | .name => ∃ name u, Name x name ∧ t = name ++ u ∧ s.tag = p.tag ++ name ∧
      Follows x p.groups u s
  | .behind => ∃ blanks u, Blanks x blanks ∧ t = blanks ++ u ∧ s.tag = p.tag ∧
      Follows x p.groups u s
  | .group b body => Closes x p b body t s
  | .escape b body => ∃ c u, t = c :: u ∧ Closes x p b (body ++ [c]) u s

section Places

variable {x : Extent} {p q : Progress} {t : Text} {s : Shorthand}

theorem Blanks.nil : Blanks x [] := ⟨by simp, fun _ => rfl⟩

theorem Name.nil : Name x [] := by simp [Name]

theorem Follows.rest (tag : Text) (before : List Group) (h : Ends x t) :
    Follows x before t ⟨tag, before, t⟩ :=
  ⟨[], [], .nil, (List.append_nil before).symm, rfl, h⟩

/-- Where the reader stands outside the groups it may stop. -/
theorem completes_stop (hp : p.isOutside = true) (h : Ends x t) :
    Completes x p t ⟨p.tag, p.groups, t⟩ := by
  obtain ⟨tag, groups, place⟩ := p
  cases place with
  | name => exact ⟨[], t, .nil, rfl, (List.append_nil tag).symm, .rest tag groups h⟩
  | behind => exact ⟨[], t, .nil, rfl, rfl, .rest tag groups h⟩
  | group => cases hp
  | escape => cases hp

/-- An opening bracket outside the groups. -/
theorem completes_open {b : Bracket} (hp : p.isOutside = true)
    (h : Closes x p b [] t s) : Completes x p (b.opener :: t) s := by
  obtain ⟨raw, body, blanks, u, hbody, hblanks, rfl, htag, w, gs, hw, hgroups, rfl, hends⟩ := h
  have hfollows :
      Follows x p.groups (b.opener :: (raw ++ b.closer :: (blanks ++ (w ++ s.rest)))) s :=
    ⟨_, ⟨b, body⟩ :: gs, .cons hbody hblanks hw, by simpa using hgroups, by simp, hends⟩
  obtain ⟨tag, groups, place⟩ := p
  cases place with
  | name => exact ⟨[], _, .nil, rfl, htag.trans (List.append_nil tag).symm, hfollows⟩
  | behind => exact ⟨[], _, .nil, rfl, htag, hfollows⟩
  | group => cases hp
  | escape => cases hp

/-- A character that is read outside the groups is a part of what is read. -/
theorem completes_of_stepOutside {c : Char} (hp : p.isOutside = true)
    (hspace : ¬(x = .token ∧ c = ' ')) (hstep : p.stepOutside x c = .ok q)
    (h : Completes x q t s) : Completes x p (c :: t) s := by
  unfold Progress.stepOutside at hstep
  cases hopening : Bracket.opening? c with
  | some b =>
      simp only [hopening, Except.ok.injEq] at hstep
      subst hstep
      rw [Bracket.eq_opener_of_opening? hopening]
      exact completes_open hp h
  | none =>
      obtain ⟨tag, groups, place⟩ := p
      simp only [hopening] at hstep
      split at hstep
      · cases hstep
      · next hclosing =>
        split at hstep
        · next hplace =>
          cases hstep
          subst hplace
          obtain ⟨name, u, hname, rfl, htag, hfollows⟩ := h
          refine ⟨c :: name, u, List.forall_mem_cons.2 ⟨⟨hopening, by simpa using hclosing,
            fun hx hc => hspace ⟨hx, hc⟩⟩, hname⟩, rfl, by simpa using htag, hfollows⟩
        · split at hstep
          · next hplace hblank =>
            cases hstep
            -- behind the groups only spaces may stand, and only where the whole text is read
            cases place with
            | name => exact absurd rfl hplace
            | behind =>
                obtain ⟨blanks, u, ⟨hblanks, -⟩, rfl, htag, hfollows⟩ := h
                refine ⟨c :: blanks, u, ⟨List.forall_mem_cons.2 ⟨hblank.1, hblanks⟩, fun hx => ?_⟩,
                  rfl, htag, hfollows⟩
                exact absurd (hx.symm.trans hblank.2) (by decide)
            | group => cases hp
            | escape => cases hp
          · cases hstep

/-- A character that is read is a part of what is read. -/
theorem completes_of_step {c : Char} (hspace : ¬(x = .token ∧ c = ' ' ∧ p.isOutside = true))
    (hstep : p.step x c = .ok q) (h : Completes x q t s) : Completes x p (c :: t) s := by
  obtain ⟨tag, groups, place⟩ := p
  cases place with
  | name => exact completes_of_stepOutside rfl (fun hx => hspace ⟨hx.1, hx.2, rfl⟩) hstep h
  | behind => exact completes_of_stepOutside rfl (fun hx => hspace ⟨hx.1, hx.2, rfl⟩) hstep h
  | escape b body =>
      cases hstep
      exact ⟨c, t, rfl, h⟩
  | group b body =>
      simp only [Progress.step] at hstep
      split at hstep
      -- a backslash takes the next character into the group, whatever it is
      · next hslash =>
        cases hstep
        obtain ⟨d, u, rfl, raw, more, blanks, v, hbody, hblanks, rfl, htag, hfollows⟩ := h
        exact ⟨c :: d :: raw, d :: more, blanks, v, hslash ▸ .escaped hbody, hblanks, rfl, htag,
          by simpa using hfollows⟩
      · next hslash =>
        split at hstep
        · next hcloser =>
          cases hstep
          obtain ⟨blanks, u, hblanks, rfl, htag, hfollows⟩ := h
          exact ⟨[], [], blanks, u, .nil, hblanks, hcloser ▸ rfl, htag, by simpa using hfollows⟩
        · split at hstep
          · cases hstep
          · next hclosing =>
            cases hstep
            obtain ⟨raw, more, blanks, u, hbody, hblanks, rfl, htag, hfollows⟩ := h
            exact ⟨c :: raw, c :: more, blanks, u, .plain hslash (by simpa using hclosing) hbody,
              hblanks, rfl, htag, by simpa using hfollows⟩

/-- What the reader returns is written in the text. -/
theorem completes_of_readFrom {column : Nat} (h : readFrom x p column t = .ok s) :
    Completes x p t s := by
  induction t generalizing p column with
  | nil =>
      rw [readFrom] at h
      have hstop := completes_stop (x := x) (p := p) (t := [])
      cases hplace : p.place <;> simp only [Progress.finish, hplace] at h <;> cases h <;>
        exact hstop (by simp [Progress.isOutside, hplace]) (.inl rfl)
  | cons c t ih =>
      rw [readFrom] at h
      split at h
      · next hstop =>
        cases h
        exact completes_stop hstop.2.2 (.inr ⟨hstop.1, by simp [hstop.2.1]⟩)
      · next hspace =>
        split at h
        · next q hstep => exact completes_of_step hspace hstep (ih h)
        · cases h

end Places

/-! ### What is written is read -/

section Reading

variable {x : Extent} {tag t u : Text} {groups : List Group}

theorem readFrom_name (h : Name x t) (column : Nat) :
    readFrom x ⟨tag, groups, .name⟩ column (t ++ u)
      = readFrom x ⟨tag ++ t, groups, .name⟩ (column + t.length) u := by
  induction t generalizing tag column with
  | nil => rw [List.append_nil, List.nil_append, List.length_nil, Nat.add_zero]
  | cons c t ih =>
      obtain ⟨⟨hopening, hclosing, hspace⟩, ht⟩ := List.forall_mem_cons.1 h
      have hstop : ¬(x = .token ∧ c = ' ' ∧
          (Progress.isOutside ⟨tag, groups, .name⟩) = true) := fun hx => hspace hx.1 hx.2.1
      rw [List.cons_append, readFrom, if_neg hstop]
      simp only [Progress.step, Progress.stepOutside, hopening, hclosing, Option.isSome_none,
        Bool.false_eq_true, if_false, if_true]
      rw [ih ht, List.append_assoc, List.length_cons, Nat.add_assoc, Nat.add_comm 1]
      rfl

theorem readFrom_body {b : Bracket} {body raw more : Text} (h : Body raw more) (column : Nat) :
    readFrom x ⟨tag, groups, .group b body⟩ column (raw ++ u)
      = readFrom x ⟨tag, groups, .group b (body ++ more)⟩ (column + raw.length) u := by
  induction h generalizing body column with
  | nil => rw [List.append_nil, List.nil_append, List.length_nil, Nat.add_zero]
  | @plain c raw more hslash hcloser _ ih =>
      have hne : c ≠ b.closer := by
        rintro rfl
        rw [Bracket.closing?_closer] at hcloser
        cases hcloser
      simp only [List.cons_append, readFrom, Progress.step, Progress.isOutside, hslash, hne,
        hcloser, Option.isSome_none, Bool.false_eq_true, and_false, if_false]
      rw [ih, List.append_assoc, List.length_cons, Nat.add_assoc, Nat.add_comm 1]
      rfl
  | @escaped c raw more _ ih =>
      simp only [List.cons_append, readFrom, Progress.step, Progress.isOutside,
        Bool.false_eq_true, and_false, if_false, if_true]
      rw [ih, List.append_assoc, List.length_cons, List.length_cons]
      exact congrArg (readFrom x _ · u) (by omega)

theorem readFrom_blanks (h : Blanks x t) (column : Nat) :
    readFrom x ⟨tag, groups, .behind⟩ column (t ++ u)
      = readFrom x ⟨tag, groups, .behind⟩ (column + t.length) u := by
  obtain ⟨hspaces, hnone⟩ := h
  cases x with
  | token => rw [hnone rfl, List.nil_append, List.length_nil, Nat.add_zero]
  | whole =>
      induction t generalizing column with
      | nil => rw [List.nil_append, List.length_nil, Nat.add_zero]
      | cons c t ih =>
          obtain ⟨rfl, ht⟩ := List.forall_mem_cons.1 hspaces
          have hstep : Progress.step .whole ⟨tag, groups, .behind⟩ ' ' =
              .ok ⟨tag, groups, .behind⟩ := rfl
          rw [List.cons_append, readFrom, if_neg (by simp), hstep]
          dsimp only
          rw [ih _ ht (fun hx => by cases hx), List.length_cons, Nat.add_assoc, Nat.add_comm 1]

/-- Behind the name, and behind a group, the groups that are written are read. -/
theorem readFrom_groups {gs : List Group} (h : Written.Groups x t gs) {place : Place}
    (hplace : place = .name ∨ place = .behind) (hends : Ends x u) (column : Nat) :
    readFrom x ⟨tag, groups, place⟩ column (t ++ u) = .ok ⟨tag, groups ++ gs, u⟩ := by
  induction h generalizing groups place column with
  | nil =>
      have houtside : Progress.isOutside ⟨tag, groups, place⟩ = true := by
        rcases hplace with rfl | rfl <;> rfl
      rw [List.nil_append, List.append_nil]
      rcases hends with rfl | ⟨rfl, hspace⟩
      · rcases hplace with rfl | rfl <;> rfl
      · obtain ⟨v, rfl⟩ := List.head?_eq_some_iff.1 hspace
        rw [readFrom, if_pos ⟨rfl, rfl, houtside⟩]
  | @cons b raw body blanks t gs hbody hblanks _ ih =>
      have hopen : Progress.step x ⟨tag, groups, place⟩ b.opener
          = .ok ⟨tag, groups, .group b []⟩ := by
        rcases hplace with rfl | rfl <;>
          simp only [Progress.step, Progress.stepOutside, Bracket.opening?_opener]
      have hclose : Progress.step x ⟨tag, groups, .group b ([] ++ body)⟩ b.closer
          = .ok ⟨tag, groups ++ [⟨b, body⟩], .behind⟩ := by
        rw [Progress.step]
        simp only [b.closer_ne_backslash, if_false, if_true, List.nil_append]
      have hstop : ¬(x = .token ∧ b.opener = ' ' ∧
          Progress.isOutside ⟨tag, groups, place⟩ = true) := fun hx => b.opener_ne_space hx.2.1
      rw [List.cons_append, readFrom, if_neg hstop, hopen]
      dsimp only
      rw [List.append_assoc, readFrom_body hbody, List.cons_append, readFrom,
        if_neg (by simp [Progress.isOutside]), hclose]
      dsimp only
      rw [List.append_assoc, readFrom_blanks hblanks, ih (.inr rfl), List.append_assoc]
      rfl

theorem read_of_written {s : Shorthand} (h : Written x t s) : read x t = .ok s := by
  obtain ⟨hname, ⟨w, hw, rfl⟩, hends⟩ := h
  rw [read, Progress.start, readFrom_name hname, readFrom_groups hw (.inl rfl) hends,
    List.nil_append, List.nil_append]

/-- The reader accepts exactly what is written as a shorthand. -/
theorem read_eq_ok_iff {s : Shorthand} : read x t = .ok s ↔ Written x t s := by
  refine ⟨fun h => ?_, read_of_written⟩
  obtain ⟨name, u, hname, rfl, htag, w, gs, hw, hgroups, rfl, hends⟩ := completes_of_readFrom h
  obtain rfl : s.tag = name := htag
  exact ⟨hname, ⟨w, hgroups.symm ▸ hw, rfl⟩, hends⟩

/-- A token that fills a text is read in front of a space too. -/
theorem readToken_append {s : Shorthand} (h : readToken t = .ok s) (hrest : s.rest = [])
    (u : Text) : readToken (t ++ ' ' :: u) = .ok ⟨s.tag, s.groups, ' ' :: u⟩ := by
  obtain ⟨hname, ⟨w, hw, rfl⟩, -⟩ := read_eq_ok_iff.1 h
  refine read_eq_ok_iff.2 ⟨hname, ⟨w, hw, ?_⟩, .inr ⟨rfl, rfl⟩⟩
  rw [hrest, List.append_nil, List.append_assoc]

/-- A token starts with its name or with the bracket of a group. -/
theorem head?_of_readToken {s : Shorthand} (h : readToken t = .ok s) (hrest : s.rest = [])
    (hsome : t ≠ []) : ∃ c, t.head? = some c ∧ (c ∈ s.tag ∨ ∃ b : Bracket, c = b.opener) := by
  obtain ⟨tag, groups, rest⟩ := s
  obtain ⟨-, ⟨w, hw, rfl⟩, -⟩ := read_eq_ok_iff.1 h
  obtain rfl : rest = [] := hrest
  cases tag with
  | cons c tag => exact ⟨c, rfl, .inl List.mem_cons_self⟩
  | nil =>
      cases hw with
      | nil => exact absurd rfl hsome
      | @cons b => exact ⟨b.opener, rfl, .inr ⟨b, rfl⟩⟩

end Reading

/-! ### The column of an error -/

section Columns

variable {x : Extent} {p : Progress} {t : Text} {column : Nat} {e : ShorthandError}

/-- Whatever has been read can be completed. -/
theorem exists_readFrom (x : Extent) (p : Progress) (column : Nat) :
    ∃ t s, readFrom x p column t = .ok s := by
  obtain ⟨tag, groups, place⟩ := p
  have hclose (b : Bracket) (body : Text) (column : Nat) :
      readFrom x ⟨tag, groups, .group b body⟩ column [b.closer]
        = .ok ⟨tag, groups ++ [⟨b, body⟩], []⟩ := by
    simp [readFrom, Progress.isOutside, Progress.step, b.closer_ne_backslash, Progress.finish]
  cases place with
  | name => exact ⟨[], _, rfl⟩
  | behind => exact ⟨[], _, rfl⟩
  | group b body => exact ⟨_, _, hclose b body column⟩
  | escape b body =>
      refine ⟨'x' :: [b.closer], ⟨tag, groups ++ [⟨b, body ++ ['x']⟩], []⟩, ?_⟩
      rw [readFrom, if_neg (by simp [Progress.isOutside])]
      exact hclose b (body ++ ['x']) (column + 1)

/-- The text in front of the column of an error can be completed, and the text with the character
in that column cannot. -/
theorem exists_of_readFrom_eq_error (h : readFrom x p column t = .error e) :
    ∃ before, before <+: t ∧ e.column = column + before.length ∧
      (∃ u s, readFrom x p column (before ++ u) = .ok s) ∧
      ∀ c, before ++ [c] <+: t → ∀ u s, readFrom x p column (before ++ c :: u) ≠ .ok s := by
  -- on the text: the error stands behind the character that is read, or at it
  induction t generalizing p column with
  | nil =>
      refine ⟨[], List.prefix_rfl, ?_, exists_readFrom x p column, fun c hc => ?_⟩
      · rw [readFrom] at h
        split at h
        · cases h
        · cases h
          rfl
      · exact absurd (List.prefix_nil.1 hc) (by simp)
  | cons c t ih =>
      rw [readFrom] at h
      split at h
      · cases h
      · next hspace =>
        split at h
        · next q hstep =>
          have hmore (u : Text) :
              readFrom x p column (c :: u) = readFrom x q (column + 1) u := by
            rw [readFrom, if_neg hspace, hstep]
          obtain ⟨before, hbefore, hcolumn, ⟨u, s, hu⟩, hnot⟩ := ih h
          refine ⟨c :: before, List.cons_prefix_cons.2 ⟨rfl, hbefore⟩, ?_, ⟨u, s, ?_⟩,
            fun d hd v => ?_⟩
          · rw [hcolumn, List.length_cons, Nat.add_assoc, Nat.add_comm 1]
          · rw [List.cons_append, hmore, hu]
          · rw [List.cons_append, hmore]
            exact hnot d (List.cons_prefix_cons.1 hd).2 v
        · next f hstep =>
          cases h
          refine ⟨[], List.nil_prefix, rfl, exists_readFrom x p column, fun d hd u s => ?_⟩
          obtain ⟨rfl, -⟩ := List.cons_prefix_cons.1 hd
          rw [List.nil_append, readFrom, if_neg hspace, hstep]
          simp

/-- The longest beginning of the text that begins a shorthand ends in the column of the error. -/
theorem isGreatest_column (h : read x t = .error e) :
    IsGreatest {n | ∃ before, before <+: t ∧ before.length = n ∧
      ∃ u s, before <+: u ∧ Written x u s} e.column := by
  obtain ⟨before, hbefore, hcolumn, ⟨u, s, hu⟩, hnot⟩ := exists_of_readFrom_eq_error h
  rw [Nat.zero_add] at hcolumn
  refine ⟨⟨before, hbefore, hcolumn.symm, before ++ u, s, List.prefix_append _ _,
    read_eq_ok_iff.1 hu⟩, ?_⟩
  rintro n ⟨longer, hlonger, rfl, v, s', ⟨w, rfl⟩, hwritten⟩
  rw [hcolumn]
  by_contra hlt
  -- The beginning reaches over the character in the column of the error.
  obtain ⟨rest, rfl⟩ := List.prefix_of_prefix_length_le hbefore hlonger (by omega)
  cases rest with
  | nil => simp at hlt
  | cons c rest =>
      have hstarts : before ++ [c] <+: t :=
        List.IsPrefix.trans ⟨rest, by simp⟩ hlonger
      refine hnot c hstarts (rest ++ w) s' ?_
      have hread := read_eq_ok_iff.2 hwritten
      rwa [List.append_assoc, List.cons_append] at hread

end Columns

/-! ### Attributes -/

section Attributes

variable {s : Shorthand}

/-- Every kind of brackets sets its own attribute, and there are no others. -/
theorem find?_attributes (key : Text) :
    (∀ b, Bracket.key b = key → s.attributes.find? key = s.value? b) ∧
      ((∀ b, Bracket.key b ≠ key) → s.attributes.find? key = none) := by
  have hfold : s.attributes =
      Bracket.all.foldl (fun m b => (s.value? b).elim m (m.insert b.key)) ∅ := by
    refine congrArg (Bracket.all.foldl · ∅) (funext fun m => funext fun b => ?_)
    cases s.value? b <;> rfl
  have hset (b : Bracket) (m : Table Text) : ((s.value? b).elim m (m.insert b.key)).find? key
      = if b.key = key then (s.value? b).or (m.find? key) else m.find? key := by
    cases s.value? b with
    | none => simp
    | some v =>
        by_cases hkey : b.key = key
        · simp [← hkey]
        · rw [if_neg hkey]
          exact Table.find?_insert_of_ne m v (Ne.symm hkey)
  have hkeys {b b' : Bracket} : b.key = b'.key ↔ b = b' :=
    ⟨Bracket.key_injective, congrArg Bracket.key⟩
  rw [hfold, Bracket.all]
  constructor
  · rintro b rfl
    cases b <;> simp [hset, hkeys]
  · intro hne
    simp [hset, hne]

/-- The value of an attribute is made of the bodies of its groups. -/
theorem value?_eq_some_iff {b : Bracket} {v : Text} :
    s.value? b = some v ↔ (∃ g ∈ s.groups, g.bracket = b) ∧
      v = Text.join b.separator
        (((s.groups.filter (·.bracket = b)).map (·.body)).filter (· ≠ [])) := by
  unfold value?
  cases hgroups : s.groups.filter (·.bracket = b) with
  | nil =>
      have hnone : ¬ ∃ g ∈ s.groups, g.bracket = b := by
        rintro ⟨g, hg, hb⟩
        exact List.not_mem_nil (hgroups ▸ List.mem_filter.2 ⟨hg, by simpa using hb⟩)
      simp [hnone]
  | cons g gs =>
      obtain ⟨hg, hb⟩ := List.mem_filter.1 (hgroups ▸ List.mem_cons_self : g ∈ s.groups.filter _)
      have hsome : ∃ g ∈ s.groups, g.bracket = b := ⟨g, hg, by simpa using hb⟩
      simp only [hsome, true_and, Option.some.injEq]
      exact eq_comm

end Attributes

/-! ### The language -/

/-- The reader accepts the shorthands of its extent and no other text, and returns the name, the
groups and the rest that are written; a shorthand has the attributes of its groups, each with the
bodies that are not empty; and a text that is no shorthand begins like one up to the column of its
error, and not further. -/
theorem read_exact (x : Extent) (t : Text) :
    (∀ s, read x t = .ok s ↔ Written x t s) ∧
    (∀ s : Shorthand,
      (∀ b v, s.attributes.find? (Bracket.key b) = some v ↔ (∃ g ∈ s.groups, g.bracket = b) ∧
        v = Text.join b.separator
          (((s.groups.filter (·.bracket = b)).map (·.body)).filter (· ≠ []))) ∧
      ∀ key, (∀ b, key ≠ Bracket.key b) → s.attributes.find? key = none) ∧
    ∀ e, read x t = .error e →
      IsGreatest {n | ∃ before, before <+: t ∧ before.length = n ∧
        ∃ u s, before <+: u ∧ Written x u s} e.column := by
  refine ⟨fun s => read_eq_ok_iff, fun s => ⟨fun b v => ?_, fun key hkey => ?_⟩,
    fun e => isGreatest_column⟩
  · rw [(find?_attributes _).1 b rfl, value?_eq_some_iff]
  · exact (find?_attributes key).2 fun b => Ne.symm (hkey b)

/-- A text that is read to its end, and one that goes wrong behind a group. -/
theorem read_exact_of_two_texts :
    Written .token "a(b)[c]".toList
        ⟨"a".toList, [⟨.round, "b".toList⟩, ⟨.square, "c".toList⟩], []⟩ ∧
      read .token "a(b)c".toList = .error ⟨.outsideGroup 'c', 4⟩ ∧
      IsGreatest {n | ∃ before, before <+: "a(b)c".toList ∧ before.length = n ∧
        ∃ u s, before <+: u ∧ Written .token u s} 4 :=
  ⟨((read_exact .token _).1 _).1 rfl, rfl, (read_exact .token "a(b)c".toList).2.2 _ rfl⟩

end Shorthand

end IndentMarkup
