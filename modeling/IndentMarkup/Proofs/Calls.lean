import IndentMarkup.Proofs.Independence
import IndentMarkup.Proofs.TagLines
import IndentMarkup.Proofs.TemplateLines

/-!
Calls of templates, in texts and on lines.

A call names a template and gives its values. In a text every value ends at a closing bracket, and
the template says how many are read; on a line the values stand between closing brackets, and all
are read. So both spellings mean one expansion, but for a single empty value, which is nothing on a
line.

In a span a call is cut out with everything else before it is read. The cut counts brackets, and a
call has one bracket that opens and one for each of its values that closes, so it is cut through
behind its first value if it has more of them.

* `Inline.Call.written`, `Template.callLine` — a call in a text and on a line.
* `Inline.Call.read?_written`, `Template.valuesOf_join` — the values are read back.
* `Inline.format_written`, `Block.readLine_callLine` — both expand the template.
* `readLine_call_iff_format` — a call means the same on a line and in a text.
* `Inline.format_call_in_span` — in a span it does if its brackets balance.
-/

namespace IndentMarkup

/-! ### Joined values -/

namespace Text

theorem trimStart_of_trim {t : Text} (h : trim t = t) : trimStart t = t := by
  have hshorter : (trim t).length ≤ (trimStart t).length := by
    obtain ⟨blanks, -, heq⟩ := exists_eq_trimEnd_append (trimStart t)
    have hlength := congrArg List.length heq
    rw [List.length_append] at hlength
    exact Nat.le.intro hlength.symm
  rw [h] at hshorter
  exact (trimStart_suffix t).eq_of_length_le hshorter

theorem isBlank_of_trimStart {c : Char} {t : Text} (h : trimStart (c :: t) = c :: t) :
    isBlank c = false := by
  rw [trimStart, List.dropWhile_eq_self_iff] at h
  simpa using h (Nat.succ_pos _)

theorem map_trim {ts : List Text} (h : ∀ t ∈ ts, trim t = t) : ts.map trim = ts :=
  (List.map_congr_left (g := id) h).trans (List.map_id ts)

/-- What is joined of trimmed texts is trimmed. -/
theorem trim_join {c : Char} (hc : isBlank c = false) {ts : List Text}
    (h : ∀ t ∈ ts, trim t = t) : trim (join [c] ts) = join [c] ts := by
  have hstart : trimStart (join [c] ts) = join [c] ts := by
    match ts with
    | [] => rfl
    | [t] => exact trimStart_of_trim (h t List.mem_cons_self)
    | t :: u :: ts =>
        cases t with
        | nil => exact List.dropWhile_cons_of_neg (by simp [hc])
        | cons d t =>
            have hd := isBlank_of_trimStart (trimStart_of_trim (h _ List.mem_cons_self))
            exact List.dropWhile_cons_of_neg (by simp [hd])
  have hend : trimEnd (join [c] ts) = join [c] ts := by
    clear hstart
    induction ts with
    | nil => rfl
    | cons t ts ih =>
        cases ts with
        | nil => exact trimEnd_of_trim (h t List.mem_cons_self)
        | cons u ts =>
            have ih := ih (fun v hv => h v (List.mem_cons_of_mem t hv))
            rw [join]
            cases hblank : allBlank (join [c] (u :: ts)) with
            | false => rw [trimEnd_append_of_not_allBlank _ hblank, ih]
            | true =>
                rw [← trimEnd_eq_nil_iff, ih] at hblank
                have hlast : allBlank [c] = false := by simp [allBlank, hc]
                rw [hblank, List.append_nil, trimEnd_append_of_not_allBlank _ hlast]
                simp [trimEnd, hc]
  rw [trim, hstart, hend]

/-- Only no text and one empty text are joined to nothing. -/
theorem join_eq_nil_iff {c : Char} {ts : List Text} : join [c] ts = [] ↔ ts = [] ∨ ts = [[]] := by
  match ts with
  | [] => simp [join]
  | [t] => simp [join]
  | t :: u :: ts => simp [join]

end Text

/-- Trimmed values are read back where they are joined, unless they are one empty text. -/
theorem Template.valuesOf_join {values : List Text} (hvalues : ∀ v ∈ values, Text.trim v = v)
    (hclose : ∀ v ∈ values, '>' ∉ v) (hempty : values ≠ [[]]) :
    valuesOf (Text.join ['>'] values) = values := by
  rw [valuesOf, Text.trim_join (by decide) hvalues]
  by_cases hsome : values = []
  · subst hsome
    rfl
  · have hjoined : Text.join ['>'] values ≠ [] := by
      rw [ne_eq, Text.join_eq_nil_iff, not_or]
      exact ⟨hsome, hempty⟩
    rw [if_neg hjoined, Text.pieces_join hsome hclose]
    exact Text.map_trim hvalues

namespace Inline

namespace Call

/-! ### Calls in texts -/

/-- What stands behind the name of a call in a text: every value with the bracket that ends it, or
the bracket that ends the name. -/
def arguments (values : List Text) : Text :=
  if values = [] then ['>'] else ' ' :: values.flatMap (· ++ ['>'])

/-- A call in a text. -/
def written (name : Text) (values : List Text) : Text := '<' :: '~' :: (name ++ arguments values)

section Read

variable {name t : Text} {values : List Text}

theorem name_append (hname : ∀ d ∈ name, endsName d = false) {c : Char} (hc : endsName c = true)
    (t : Text) : Call.name (name ++ c :: t) = name ∧
      (name ++ c :: t).dropWhile (!endsName ·) = c :: t := by
  have hkeep : ∀ d ∈ name, (!endsName d) = true := fun d hd => by simp [hname d hd]
  constructor
  · rw [Call.name, List.takeWhile_append_of_pos hkeep, List.takeWhile_cons_of_neg (by simp [hc]),
      List.append_nil]
  · rw [List.dropWhile_append_of_pos hkeep, List.dropWhile_cons_of_neg (by simp [hc])]

theorem exists_arguments (values : List Text) :
    ∃ c u, arguments values = c :: u ∧ endsName c = true := by
  by_cases hsome : values = []
  · exact ⟨'>', [], if_pos hsome, rfl⟩
  · exact ⟨' ', _, if_neg hsome, rfl⟩

/-- A value is read up to the first bracket. -/
theorem takeValues_value {v : Text} (hv : '>' ∉ v) (n : Nat) (t : Text) :
    takeValues (n + 1) (v ++ '>' :: t)
      = (takeValues n t).map fun r => (Text.trim v :: r.1, r.2) := by
  have hkeep : ∀ d ∈ v, decide (d ≠ '>') = true := fun d hd => by
    rw [decide_eq_true_eq]
    rintro rfl
    exact hv hd
  rw [takeValues, List.dropWhile_append_of_pos hkeep, List.takeWhile_append_of_pos hkeep,
    List.dropWhile_cons_of_neg (by decide), List.takeWhile_cons_of_neg (by decide),
    List.append_nil]

/-- The values are read up to the brackets behind them. -/
theorem takeValues_append (hclose : ∀ v ∈ values, '>' ∉ v) (t : Text) :
    takeValues values.length (values.flatMap (· ++ ['>']) ++ t)
      = some (values.map Text.trim, t) := by
  induction values with
  | nil => rfl
  | cons v values ih =>
      obtain ⟨hv, hvalues⟩ := List.forall_mem_cons.1 hclose
      have hshape : (v :: values).flatMap (· ++ ['>']) ++ t
          = v ++ '>' :: (values.flatMap (· ++ ['>']) ++ t) := by simp
      rw [hshape, List.length_cons, takeValues_value hv, ih hvalues]
      rfl

/-- Behind a space stands at least one value. -/
theorem read?_space (hname : ∀ d ∈ name, endsName d = false) (arity : Nat) (t : Text) :
    read? arity (name ++ ' ' :: t) = (takeValues (max arity 1) t).map fun r =>
      ⟨if arity = 0 ∧ r.1.all (· = []) then [] else r.1,
        (name ++ ' ' :: t).length - r.2.length⟩ := by
  rw [read?, (name_append hname (c := ' ') rfl t).2]
  exact if_pos rfl

/-- A bracket behind the name ends a call without values. -/
theorem read?_close (hname : ∀ d ∈ name, endsName d = false) (arity : Nat) (t : Text) :
    read? arity (name ++ '>' :: t) = some ⟨[], name.length + 1⟩ := by
  have hused : (name ++ '>' :: t).length - t.length = name.length + 1 := by
    rw [List.length_append, List.length_cons]
    omega
  rw [read?, (name_append hname (c := '>') rfl t).2]
  dsimp only
  rw [if_neg (by decide), hused]

/-- A call is read back if it gives as many values as there are parameters. -/
theorem read?_written (hname : ∀ d ∈ name, endsName d = false)
    (hclose : ∀ v ∈ values, '>' ∉ v) :
    read? values.length (name ++ arguments values)
      = some ⟨values.map Text.trim, (name ++ arguments values).length⟩ := by
  by_cases hsome : values = []
  · subst hsome
    rw [arguments, if_pos rfl, read?_close hname, List.length_append]
    rfl
  · have hlength : values.length ≠ 0 := by simpa using hsome
    have htake := takeValues_append hclose []
    rw [List.append_nil] at htake
    rw [arguments, if_neg hsome, read?_space hname,
      Nat.max_eq_left (Nat.one_le_iff_ne_zero.2 hlength), htake, Option.map_some,
      if_neg fun hboth => hlength hboth.1]
    rfl

/-- The name of a call that is read ends in front of the end of the text. -/
theorem length_name_of_read {arity : Nat} {call : Call} (h : read? arity t = some call) :
    (Call.name t).length ≠ t.length := by
  intro hlength
  have hdrop : t.dropWhile (!endsName ·) = [] := by
    have hparts := List.takeWhile_append_dropWhile (p := (!endsName ·)) (l := t)
    have hlengths := congrArg List.length hparts
    rw [Call.name] at hlength
    rw [List.length_append] at hlengths
    exact List.length_eq_zero_iff.1 (by omega)
  rw [read?, hdrop] at h
  cases h

end Read

/-- The elements of a call in a text stand in a span. -/
theorem wrap_eq (es : List Element) :
    wrap es = dropLastBreak ("<span>".toList ++ Element.htmlAll es ++ "</span>".toList) := rfl

theorem dropLastBreak_append (front : Text) :
    dropLastBreak (front ++ "<br></span></span>".toList) = front ++ "</span></span>".toList := by
  have hsuffix : "<br></span></span>".toList.isSuffixOf (front ++ "<br></span></span>".toList)
      = true := List.isSuffixOf_iff_suffix.2 (List.suffix_append _ _)
  rw [dropLastBreak, if_pos hsuffix, List.length_append, Nat.add_sub_cancel, List.take_left' rfl]

theorem dropLastBreak_of_not_suffix {html : Text} (h : ¬ "<br></span></span>".toList <:+ html) :
    dropLastBreak html = html := by
  have hsuffix : ¬ "<br></span></span>".toList.isSuffixOf html = true :=
    fun heq => h (List.isSuffixOf_iff_suffix.1 heq)
  rw [dropLastBreak, if_neg hsuffix]

end Call

section Text

variable {e : Expander} {line last : Nat} {c : Context} {name t : Text} {values : List Text}
  {m : Template}

/-- A call that is read expands its template. -/
theorem callHtml_of_read {call : Call} (hm : c.template? (Call.name t) = some m)
    (hread : Call.read? m.arity t = some call) :
    callHtml e line last t c = (do
      let es ← e (Call.name t) call.values line
      return (Call.wrap es, call.used)) c := by
  rw [callHtml, if_neg (Call.length_name_of_read hread), CompileM.get_bind_run, hm]
  dsimp only
  rw [hread]

/-- A text that is one call is formatted to the elements of its template. -/
theorem format_written (hname : ∀ d ∈ name, Call.endsName d = false)
    (hvalues : ∀ v ∈ values, Text.trim v = v) (hclose : ∀ v ∈ values, '>' ∉ v)
    (hm : c.template? name = some m) (harity : m.arity = values.length) (column : Nat) :
    format e (Call.written name values) line column c
      = (do return Call.wrap (← e name values line)) c := by
  obtain ⟨b, u, heq, hb⟩ := Call.exists_arguments values
  have hsame : Call.name (name ++ Call.arguments values) = name := by
    rw [heq]
    exact (Call.name_append hname hb u).1
  have hread := Call.read?_written hname hclose
  rw [Text.map_trim hvalues, ← harity] at hread
  rw [format_eq_formatAfter, Call.written, formatAfter_call, CompileM.bind_run,
    callHtml_of_read (by rw [hsame]; exact hm) hread, hsame]
  rw [CompileM.bind_run, CompileM.bind_run]
  cases e name values line c with
  | error s after => rfl
  | ok es after =>
      simp only [CompileM.pure_run, List.drop_length, CompileM.bind_run]
      simp [formatAfter]

end Text

end Inline

/-! ### Calls on lines -/

/-- A call on a line: the name, and the values with closing brackets between them. -/
def Template.callLine (name : Text) (values : List Text) : Text :=
  '~' :: (name ++ if values = [] then [] else ' ' :: Text.join ['>'] values)

/-- Measure a line and read what it stands for. -/
def Block.readRaw (e : Expander) (l : SourceLine) (rest : List SourceLine) :
    CompileM (List Element × List SourceLine) := do
  readLine e (← CompileM.scan l) rest

section CallLine

variable {e : Expander} {c : Context} {n : Nat} {name : Text} {values : List Text}

/-- A call on a line is read back, unless it gives one empty value. -/
theorem Template.parts_of_callLine (hname : ∀ d ∈ name, Text.isBlank d = false)
    (hvalues : ∀ v ∈ values, Text.trim v = v) (hclose : ∀ v ∈ values, '>' ∉ v)
    (hempty : values ≠ [[]]) :
    Text.trimEnd (callLine name values) = callLine name values ∧
      (Line.token ⟨n, 0, 0, callLine name values⟩).drop 1 = name ∧
      valuesOf (Line.afterToken ⟨n, 0, 0, callLine name values⟩) = values := by
  have hsolid : ∀ d ∈ '~' :: name, Text.isBlank d = false :=
    List.forall_mem_cons.2 ⟨by decide, hname⟩
  have hkeep : ∀ d ∈ '~' :: name, decide (d ≠ ' ') = true := fun d hd => by
    rw [decide_eq_true_eq]
    rintro rfl
    exact absurd (hsolid ' ' hd) (by decide)
  -- without values there is neither a space nor anything to cut; with values the line goes on
  by_cases hsome : values = []
  · subst hsome
    have hline : callLine name [] = '~' :: name := by simp [callLine]
    rw [hline, Line.token, Line.afterToken, List.takeWhile_eq_self_iff.2 hkeep,
      List.dropWhile_eq_nil_iff.2 hkeep]
    exact ⟨Text.trimEnd_of_no_blank hsolid, rfl, rfl⟩
  · have hline : callLine name values = '~' :: name ++ ' ' :: Text.join ['>'] values := by
      simp [callLine, hsome]
    have htrim := Text.trim_join (c := '>') (by decide) hvalues
    have hblank : Text.allBlank (Text.join ['>'] values) = false := by
      rw [← Bool.not_eq_true, ← Text.trim_eq_nil_iff, htrim, Text.join_eq_nil_iff, not_or]
      exact ⟨hsome, hempty⟩
    refine ⟨?_, ?_, ?_⟩
    · rw [hline, List.append_cons, Text.trimEnd_append_of_not_allBlank _ hblank,
        Text.trimEnd_of_trim htrim]
    · rw [hline, Line.token, List.takeWhile_append_of_pos hkeep,
        List.takeWhile_cons_of_neg (by decide), List.append_nil]
      rfl
    · rw [hline, Line.afterToken, List.dropWhile_append_of_pos hkeep,
        List.dropWhile_cons_of_neg (by decide)]
      have hspace : Text.trim (' ' :: Text.join ['>'] values)
          = Text.trim (Text.join ['>'] values) :=
        Text.trim_append_left (s := [' ']) (by decide) _
      rw [valuesOf, hspace]
      exact valuesOf_join hvalues hclose hempty

/-- A line that is one call expands its template. -/
theorem Block.readLine_callLine (hsome : name ≠ []) (hplus : name.head? ≠ some '+')
    (hminus : name.head? ≠ some '-') (hname : ∀ d ∈ name, Text.isBlank d = false)
    (hvalues : ∀ v ∈ values, Text.trim v = v) (hclose : ∀ v ∈ values, '>' ∉ v)
    (hempty : values ≠ [[]]) (rest : List SourceLine) :
    Block.readRaw e ⟨n, Template.callLine name values⟩ rest c
      = (do return (← e name values n, rest)) c := by
  obtain ⟨htrim, htoken, hread⟩ := Template.parts_of_callLine (n := n) hname hvalues hclose hempty
  obtain ⟨d, name, rfl⟩ := List.exists_cons_of_ne_nil hsome
  have hscan := CompileM.scan_of_head (by decide : Text.isBlank '~' = false) n
    (d :: name ++ if values = [] then [] else ' ' :: Text.join ['>'] values) c
  have hkind := kind_template n
    (d :: name ++ if values = [] then [] else ' ' :: Text.join ['>'] values)
  rw [show '~' :: (d :: name ++ if values = [] then [] else ' ' :: Text.join ['>'] values)
    = Template.callLine (d :: name) values from rfl, htrim] at hscan hkind
  rw [Block.readRaw, CompileM.bind_run_ok hscan, Block.readLine, Block.readLineWith, hkind]
  dsimp only
  rw [readTemplateLine_call (fun h => hplus (h ▸ rfl)) (fun h => hminus (h ▸ rfl)) rfl, htoken,
    hread]

end CallLine

/-- A call does the same on a line and in a text, unless it gives one empty value: one succeeds if
the other one does, and then the text is written as the elements of the line in a span, without a
line break at the end. -/
theorem readLine_call_iff_format (e : Expander) (c : Context) {name : Text} {values : List Text}
    {m : Template} (hm : c.template? name = some m) (harity : m.arity = values.length)
    (hsome : name ≠ []) (hname : ∀ d ∈ name, Text.isBlank d = false ∧ d ≠ '>')
    (hstart : name.head? ≠ some '+' ∧ name.head? ≠ some '-')
    (hvalues : ∀ v ∈ values, Text.trim v = v ∧ ∀ d ∈ v, d ∉ ['<', '>', '\\', '\n'])
    (hempty : values ≠ [[]]) (n column : Nat) (rest : List SourceLine) :
    let line := Block.readRaw e ⟨n, Template.callLine name values⟩ rest
    let text := Inline.format e (Inline.Call.written name values) n column
    ((∃ r after, line c = .ok r after) ↔ ∃ html after, text c = .ok html after) ∧
    ∀ es left after, line c = .ok (es, left) after → left = rest ∧ ∃ html,
      text c = .ok html after ∧
      let span := "<span>".toList ++ Element.htmlAll es ++ "</span>".toList
      (∀ front, span = front ++ "<br></span></span>".toList →
        html = front ++ "</span></span>".toList) ∧
      (¬ "<br></span></span>".toList <:+ span → html = span) := by
  have htrim : ∀ v ∈ values, Text.trim v = v := fun v hv => (hvalues v hv).1
  have hclose : ∀ v ∈ values, '>' ∉ v := fun v hv hmem => (hvalues v hv).2 _ hmem (by decide)
  have hends : ∀ d ∈ name, Inline.Call.endsName d = false := fun d hd => by
    have hspace : d ≠ ' ' := by
      rintro rfl
      exact absurd (hname _ hd).1 (by decide)
    simp [Inline.Call.endsName, hspace, (hname d hd).2]
  intro line text
  have hline : line c = (do return (← e name values n, rest)) c :=
    Block.readLine_callLine hsome hstart.1 hstart.2 (fun d hd => (hname d hd).1) htrim hclose hempty
      rest
  have htext : text c = (do return Inline.Call.wrap (← e name values n)) c :=
    Inline.format_written hends htrim hclose hm harity column
  -- both are the same expansion, with what is read or written of it behind it
  rw [hline, htext, CompileM.bind_run, CompileM.bind_run]
  cases e name values n c with
  | error s after =>
      constructor
      · constructor
        all_goals
          rintro ⟨_, _, h⟩
          cases h
      · intro _ _ _ h
        cases h
  | ok es after =>
      refine ⟨⟨fun _ => ⟨_, _, rfl⟩, fun _ => ⟨_, _, rfl⟩⟩, ?_⟩
      intro es' left after' h
      cases h
      refine ⟨rfl, _, rfl, fun front hfront => ?_, fun hnone => ?_⟩
      · rw [Inline.Call.wrap_eq, hfront, Inline.Call.dropLastBreak_append]
      · rw [Inline.Call.wrap_eq, Inline.Call.dropLastBreak_of_not_suffix hnone]

/-- A context with one template, a text in a span with a class that has two values in it. -/
def pairContext : Context :=
  { Context.start with
    templates := (∅ : Table Template).insert "t".toList
      ⟨"t".toList, ["x".toList, "y".toList], ".(k) >x >y".toList⟩ }

theorem template?_pairContext : pairContext.template? "t".toList
    = some ⟨"t".toList, ["x".toList, "y".toList], ".(k) >x >y".toList⟩ :=
  Table.find?_insert_self _ _ _

/-- A call with an empty value and one of two words. -/
theorem readLine_call_iff_format_of_two_values : ∃ es after,
    Block.readRaw (expander 1) ⟨0, "~t >b c".toList⟩ [] pairContext = .ok (es, []) after ∧
      Inline.format (expander 1) "<~t >b c>".toList 0 0 pairContext
        = .ok "<span><span class=\"t k\">b c</span></span>".toList after := by
  have hvalues : ∀ v ∈ [[], "b c".toList],
      Text.trim v = v ∧ ∀ d ∈ v, d ∉ ['<', '>', '\\', '\n'] := by
    simp [Text.trim, Text.trimStart, Text.trimEnd, Text.isBlank, Text.blankRanges]
  have hname : ∀ d ∈ "t".toList, Text.isBlank d = false ∧ d ≠ '>' :=
    List.forall_mem_singleton.2 ⟨by decide, by decide⟩
  have harity : Template.arity ⟨"t".toList, ["x".toList, "y".toList], ".(k) >x >y".toList⟩
      = [[], "b c".toList].length := rfl
  have hboth := readLine_call_iff_format (expander 1) pairContext template?_pairContext harity
    (by decide) hname (by decide) hvalues (by decide) 0 0 []
  obtain ⟨⟨es, left⟩, hline⟩ := Option.isSome_iff_exists.1 (by decide +kernel :
    ((Block.readRaw (expander 1) ⟨0, "~t >b c".toList⟩ []).run' pairContext).isSome = true)
  obtain ⟨after, hline⟩ := CompileM.exists_of_run' hline
  obtain ⟨after', htext⟩ := CompileM.exists_of_run' (by decide +kernel :
    (Inline.format (expander 1) "<~t >b c>".toList 0 0).run' pairContext
      = some "<span><span class=\"t k\">b c</span></span>".toList)
  obtain ⟨rfl, html, hformat, -⟩ := hboth.2 es left after hline
  have hsame := htext.symm.trans hformat
  cases hsame
  exact ⟨es, _, hline, htext⟩

/-- One empty value is no value on a line, so a template with one parameter that is expanded in a
text cannot be called with it there. -/
theorem readLine_call_of_empty_value :
    let m : Template := ⟨"t".toList, ["x".toList], ".b >x".toList⟩
    let c : Context := { Context.start with templates := (∅ : Table Template).insert "t".toList m }
    let values : List Text := [[]]
    c.template? "t".toList = some m ∧ m.arity = values.length ∧
      (∀ v ∈ values, Text.trim v = v ∧ ∀ d ∈ v, d ∉ ['<', '>', '\\', '\n']) ∧
      (∀ r after, Block.readRaw (expander 1) ⟨0, Template.callLine "t".toList values⟩ [] c
        ≠ .ok r after) ∧
      ∃ after, Inline.format (expander 1) (Inline.Call.written "t".toList values) 0 0 c
        = .ok "<span><b></b></span>".toList after := by
  intro m c values
  have hvalues : ∀ v ∈ values, Text.trim v = v ∧ ∀ d ∈ v, d ∉ ['<', '>', '\\', '\n'] :=
    List.forall_mem_singleton.2 ⟨rfl, nofun⟩
  have hline : Block.readRaw (expander 1) ⟨0, Template.callLine "t".toList values⟩ [] c
      = .error (.error ⟨.template (.wrongArity "t".toList 1 0), none, 0, none, []⟩) c := rfl
  refine ⟨Table.find?_insert_self _ _ _, rfl, hvalues, fun r after h => ?_,
    CompileM.exists_of_run' (by decide +kernel)⟩
  rw [hline] at h
  cases h

/-! ### Calls in spans -/

namespace Inline

section InSpan

variable {e : Expander} {line last : Nat} {c after : Context} {name t html body rest : Text}
  {values : List Text}

/-- A bracket that closes nothing is refused. -/
theorem formatAfter_ne_ok {span : Text → Nat → CompileM Text} (hfree : EscapeFree t)
    (hopen : '<' ∉ t) (hclose : '>' ∈ t) :
    formatAfter e span line last 0 t c ≠ .ok html after := by
  induction t generalizing html with
  | nil => cases hclose
  | cons d t ih =>
      obtain ⟨hescape, ht⟩ := escapeFree_cons.1 hfree
      rw [List.mem_cons, not_or] at hopen
      intro h
      by_cases hd : d = '>'
      · subst hd
        rw [formatAfter_close] at h
        cases h
      · rw [formatAfter_char _ _ hescape (fun heq => hopen.1 heq.symm) hd] at h
        obtain ⟨more, mid, hmore, hout⟩ := CompileM.exists_of_bind_ok h
        cases hout
        exact ih ht hopen.2 ((List.mem_cons.1 hclose).resolve_left fun heq => hd heq.symm) hmore

/-- A call in a span, behind the bracket that opens it. -/
def Call.inSpan (name : Text) (values : List Text) : Text :=
  "b ".toList ++ Call.written name values ++ ['>']

theorem Call.getLast?_written (name : Text) (values : List Text) :
    (Call.written name values).getLast? = some '>' := by
  have hlast : (Call.arguments values).getLast? = some '>' := by
    by_cases hsome : values = []
    · rw [Call.arguments, if_pos hsome]
      rfl
    · have hparts := List.dropLast_append_getLast hsome
      rw [Call.arguments, if_neg hsome, ← hparts]
      simp [List.getLast?_cons]
  have hshape : Call.written name values = ('<' :: '~' :: name) ++ Call.arguments values := rfl
  rw [hshape, List.getLast?_append, hlast]
  rfl

theorem Call.escapeFree_inSpan (hfree : EscapeFree (Call.written name values)) :
    EscapeFree (Call.inSpan name values) := by
  have hlast : (Call.written name values).getLast? ≠ some '\\' := by
    rw [Call.getLast?_written]
    decide
  have hclosed : EscapeFree (Call.written name values ++ ['>']) := hfree.referenced_append hlast _
  exact escapeFree_cons.2 ⟨rfl, escapeFree_cons.2 ⟨rfl, hclosed⟩⟩

theorem Call.count_inSpan (name : Text) (values : List Text) :
    (Call.inSpan name values).count '<' = (Call.written name values).count '<' ∧
      (Call.inSpan name values).count '>' = (Call.written name values).count '>' + 1 := by
  simp [Call.inSpan]

/-- If the brackets of the call balance, the last bracket closes the span. -/
theorem Call.exists_cut_inSpan (hfree : EscapeFree (Call.written name values))
    (hbalance : (Call.written name values).count '<' = (Call.written name values).count '>') :
    ∃ body rest, Cut 0 (Call.inSpan name values) body rest := by
  obtain ⟨hopeners, hclosers⟩ := Call.count_inSpan name values
  exact (Call.escapeFree_inSpan hfree).exists_cut (by omega)

/-- Behind a bracket that closes, in a span with a call, none opens. -/
theorem Call.notMem_of_inSpan {front : Text} (hname : '>' ∉ name)
    (hvalues : ∀ v ∈ values, '<' ∉ v) (h : Call.inSpan name values = front ++ '>' :: rest) :
    '<' ∉ rest := by
  have hbehind : '<' ∉ Call.arguments values ++ ['>'] := by
    by_cases hsome : values = []
    · simp [Call.arguments, hsome]
    · simpa [Call.arguments, hsome] using hvalues
  have hshape : Call.inSpan name values
      = ("b <~".toList ++ name) ++ (Call.arguments values ++ ['>']) := by
    simp [Call.inSpan, Call.written]
  rw [hshape, List.append_eq_append_iff] at h
  rcases h with ⟨more, -, heq⟩ | ⟨more, heq, hmore⟩
  · rw [heq] at hbehind
    exact fun hmem => hbehind (by simp [hmem])
  · cases more with
    | nil =>
        rw [List.nil_append] at hmore
        exact fun hmem => hbehind (hmore ▸ List.mem_cons_of_mem _ hmem)
    | cons d more =>
        obtain ⟨rfl, -⟩ := List.cons.inj hmore
        have hmem : '>' ∈ "b <~".toList ++ name :=
          heq ▸ List.mem_append_right _ List.mem_cons_self
        exact absurd hmem (by simp [hname])

/-- A span with a call ends in a bracket. -/
theorem Call.mem_of_inSpan {front : Text} (h : Call.inSpan name values = front ++ '>' :: rest)
    (hsome : rest ≠ []) : '>' ∈ rest := by
  rw [← List.dropLast_append_getLast hsome, Call.inSpan, ← List.cons_append, ← List.append_assoc]
    at h
  have hlast : ['>'] = [rest.getLast hsome] := (List.append_inj' h rfl).2
  rw [List.cons.inj hlast |>.1]
  exact List.getLast_mem hsome

/-- What is cut out of a span with a call: all of it, or there are more brackets behind it. -/
theorem Call.cut_inSpan (hname : '>' ∉ name) (hvalues : ∀ v ∈ values, '<' ∉ v)
    (hfree : EscapeFree (Call.written name values))
    (hcut : Cut 0 (Call.inSpan name values) body rest) :
    (Call.written name values).count '>' = (Call.written name values).count '<' + rest.count '>' ∧
      EscapeFree rest ∧ (rest = [] → body = "b ".toList ++ Call.written name values) := by
  have hspan := Call.escapeFree_inSpan hfree
  obtain ⟨front, hparts⟩ := hcut.exists_eq_append
  have hrest : EscapeFree rest := by
    rw [hparts] at hspan
    exact (escapeFree_cons.1 hspan.of_append.2).2
  have hbody : body ++ '>' :: rest = Call.inSpan name values := by
    have hall := hcut.referenced
    rw [hspan, hrest] at hall
    exact hall.symm
  have hnone : rest.count '<' = 0 :=
    List.count_eq_zero.2 (Call.notMem_of_inSpan hname hvalues hparts)
  have hbalance := hcut.count_closers
  obtain ⟨hopeners, hclosers⟩ := Call.count_inSpan name values
  rw [← hbody, List.count_append] at hopeners hclosers
  refine ⟨?_, hrest, ?_⟩
  · rw [List.count_cons_of_ne (by decide), hnone] at hopeners
    rw [List.count_cons_self] at hclosers
    omega
  · rintro rfl
    exact (List.append_inj' hbody rfl).1

/-- In a name without opening brackets, a call balances if it has at most one value. -/
theorem Call.count_written (hname : '>' ∉ name) (hopen : '<' ∉ name)
    (hvalues : ∀ v ∈ values, ∀ d ∈ v, d ∉ ['<', '>', '\\']) :
    (Call.written name values).count '<' = (Call.written name values).count '>'
      ↔ values.length ≤ 1 := by
  have hnone : ∀ v ∈ values, v.count '<' = 0 ∧ v.count '>' = 0 := fun v hv =>
    ⟨List.count_eq_zero.2 fun hmem => hvalues v hv _ hmem (by decide),
      List.count_eq_zero.2 fun hmem => hvalues v hv _ hmem (by decide)⟩
  have hbrackets : (values.flatMap (· ++ ['>'])).count '<' = 0 ∧
      (values.flatMap (· ++ ['>'])).count '>' = values.length := by
    clear hvalues
    induction values with
    | nil => exact ⟨rfl, rfl⟩
    | cons v values ih =>
        obtain ⟨hv, hvalues⟩ := List.forall_mem_cons.1 hnone
        simp [hv, ih hvalues]
  rw [Call.written, Call.arguments]
  split
  · next hempty => simp [List.count_eq_zero.2 hname, List.count_eq_zero.2 hopen, hempty]
  · next hsome =>
    have hlength : 1 ≤ values.length := List.length_pos_iff.2 hsome
    simp [List.count_eq_zero.2 hname, List.count_eq_zero.2 hopen, hbrackets]
    omega

/-- The HTML of a span whose tag is `b`. -/
theorem spanOf_bold {column : Nat} (hstart : t.head? = some '<')
    (h : format e t line (column + 2) c = .ok html after) :
    spanOf e line ("b ".toList ++ t) column c
      = .ok ("<b>".toList ++ html ++ "</b>".toList) after := by
  obtain ⟨u, rfl⟩ := List.head?_eq_some_iff.1 hstart
  have hblank : Text.allBlank ('<' :: u) = false := rfl
  have hvoid : isVoidTag (Text.trim ("b ".toList ++ '<' :: u)) = false :=
    isVoidTag_eq_false (c := 'b') (by decide) [] hblank
  have hname : ∀ d ∈ ['b'], d ≠ ' ' ∧ Bracket.opening? d = none ∧
      Bracket.closing? d = none := List.forall_mem_singleton.2 ⟨by decide, rfl, rfl⟩
  have hread : Shorthand.readToken ("b ".toList ++ '<' :: u) = .ok ⟨['b'], [], ' ' :: '<' :: u⟩ :=
    Shorthand.readToken_name hname (.inr rfl)
  have htrim : Text.trimStart (' ' :: '<' :: u) = '<' :: u := rfl
  have hcolumn : column + (("b ".toList ++ '<' :: u).length - ('<' :: u).length) = column + 2 := by
    simp
  have helement : Element.ofTag ['b'] html (Shorthand.attributes ⟨['b'], [], ' ' :: '<' :: u⟩)
      = ⟨['b'], ∅, html, []⟩ := rfl
  have hhtml : Element.html ⟨['b'], ∅, html, []⟩ = "<b>".toList ++ (html ++ []) ++ "</b>".toList :=
    rfl
  rw [spanOf, spanHtml, hvoid, if_neg Bool.false_ne_true, hread]
  dsimp only
  rw [htrim, hcolumn, CompileM.bind_run_ok h, helement, hhtml, List.append_nil]
  rfl

theorem Call.head?_inSpan (name : Text) (values : List Text) :
    (Call.inSpan name values).head? ≠ some '~' := by
  rw [Call.inSpan]
  simp

/-- If the brackets of a call balance, it is the text of the span that it stands in. -/
theorem formatAfter_inSpan (hname : '>' ∉ name) (hvalues : ∀ v ∈ values, '<' ∉ v)
    (hfree : EscapeFree (Call.written name values))
    (hbalance : (Call.written name values).count '<' = (Call.written name values).count '>')
    (h : ∀ column, format e (Call.written name values) line column c = .ok html after) :
    formatAfter e (spanOf e line) line last 0 ('<' :: Call.inSpan name values) c
      = .ok ("<b>".toList ++ html ++ "</b>".toList) after := by
  obtain ⟨body, rest, hcut⟩ := Call.exists_cut_inSpan hfree hbalance
  obtain ⟨hcount, -, hbody⟩ := Call.cut_inSpan hname hvalues hfree hcut
  have hrest : rest = [] := by
    by_contra hsome
    obtain ⟨front, hparts⟩ := hcut.exists_eq_append
    have hpos := List.count_pos_iff.2 (Call.mem_of_inSpan hparts hsome)
    omega
  obtain rfl := hrest
  rw [formatAfter_span _ _ (Call.head?_inSpan name values) hcut, hbody rfl,
    CompileM.bind_run_ok (spanOf_bold rfl (h _))]
  simp [formatAfter]

/-- If they do not, there is a bracket behind the span that closes nothing, or the span is open. -/
theorem formatAfter_inSpan_ne_ok (hname : '>' ∉ name) (hvalues : ∀ v ∈ values, '<' ∉ v)
    (hfree : EscapeFree (Call.written name values))
    (hbalance : (Call.written name values).count '<' ≠ (Call.written name values).count '>') :
    formatAfter e (spanOf e line) line last 0 ('<' :: Call.inSpan name values) c
      ≠ .ok html after := by
  intro hok
  rcases formatAfter_cons_cases (fun hstarts => Call.head?_inSpan name values hstarts.2) hok with
    ⟨_, _, _, _, hslash, -⟩ | ⟨_, -, hopen, -⟩ |
    ⟨body, rest, _, _, mid, more, -, hcut, -, -, hrest⟩
  · exact absurd hslash (by decide)
  · exact hopen rfl
  · obtain ⟨hcount, hfree, -⟩ := Call.cut_inSpan hname hvalues hfree hcut
    by_cases hsome : rest = []
    · subst hsome
      exact hbalance hcount.symm
    · obtain ⟨front, hparts⟩ := hcut.exists_eq_append
      exact formatAfter_ne_ok hfree (Call.notMem_of_inSpan hname hvalues hparts)
        (Call.mem_of_inSpan hparts hsome) hrest

end InSpan

/-- A call is in a span what it is outside, if it has as many brackets that close as open; else no
text comes of it there. A call has them if it gives at most one value, and its name has no bracket
that opens. -/
theorem format_call_in_span (e : Expander) (c : Context) {name : Text} {values : List Text}
    (hname : '>' ∉ name) (hvalues : ∀ v ∈ values, ∀ d ∈ v, d ∉ ['<', '>', '\\'])
    (hfree : EscapeFree (Call.written name values)) {line column : Nat} {html : Text}
    {after : Context} (h : format e (Call.written name values) line column c = .ok html after)
    (column' : Nat) :
    let call := Call.written name values
    let inSpan := format e ("<b ".toList ++ call ++ ['>']) line column' c
    (call.count '<' = call.count '>' → inSpan = .ok ("<b>".toList ++ html ++ "</b>".toList) after) ∧
    (call.count '<' ≠ call.count '>' → ∀ html' after', inSpan ≠ .ok html' after') ∧
    ('<' ∉ name → (call.count '<' = call.count '>' ↔ values.length ≤ 1)) := by
  intro call inSpan
  have hspan : inSpan = formatAfter e (spanOf e line) line
      (column' + ('<' :: Call.inSpan name values).length) 0 ('<' :: Call.inSpan name values) c :=
    congrFun (format_eq_formatAfter _ column') c
  have hopeners : ∀ v ∈ values, '<' ∉ v := fun v hv hmem => hvalues v hv _ hmem (by decide)
  have helsewhere (column'' : Nat) : format e call line column'' c = .ok html after :=
    (Coupling.elsewhere_ok (elsewhere_format call column column'' c c rfl)).1 h
  rw [hspan]
  exact ⟨fun hbalance => formatAfter_inSpan hname hopeners hfree hbalance helsewhere,
    fun hbalance _ _ => formatAfter_inSpan_ne_ok hname hopeners hfree hbalance,
    fun hopen => Call.count_written hname hopen hvalues⟩

/-- A call with one value, outside of spans and in one. -/
theorem format_call_in_span_of_one_value :
    let m : Template := ⟨"t".toList, ["x".toList], ".(k) >x".toList⟩
    let c : Context := { Context.start with templates := (∅ : Table Template).insert "t".toList m }
    ∃ after, format (expander 1) "<~t one>".toList 0 0 c
        = .ok "<span><span class=\"t k\">one</span></span>".toList after ∧
      format (expander 1) "<b <~t one>>".toList 0 0 c
        = .ok "<b><span><span class=\"t k\">one</span></span></b>".toList after := by
  intro m c
  obtain ⟨after, hformat⟩ := CompileM.exists_of_run' (by decide +kernel :
    (format (expander 1) "<~t one>".toList 0 0).run' c
      = some "<span><span class=\"t k\">one</span></span>".toList)
  have hvalues : ∀ v ∈ ["one".toList], ∀ d ∈ v, d ∉ ['<', '>', '\\'] := by simp
  have hname : '>' ∉ "t".toList := by decide
  have hinside := format_call_in_span (expander 1) c hname hvalues (by decide) hformat 0
  exact ⟨after, hformat, hinside.1 (by decide)⟩

/-- A call with two values is cut through behind the first one. -/
theorem format_call_in_span_of_two_values :
    let values := ["one".toList, "two".toList]
    pairContext.template? "t".toList
        = some ⟨"t".toList, ["x".toList, "y".toList], ".(k) >x >y".toList⟩ ∧
      (∀ v ∈ values, ∀ d ∈ v, d ∉ ['<', '>', '\\', '\n']) ∧
      (∃ after, format (expander 1) (Call.written "t".toList values) 0 0 pairContext
        = .ok "<span><span class=\"t k\">one two</span></span>".toList after) ∧
      ∀ html after, format (expander 1)
        ("<b ".toList ++ Call.written "t".toList values ++ ['>']) 0 0 pairContext
          ≠ .ok html after := by
  intro values
  exact ⟨template?_pairContext, by simp [values], CompileM.exists_of_run' (by decide +kernel),
    CompileM.ne_ok_of_run' (by decide +kernel)⟩

end Inline

end IndentMarkup
