import IndentMarkup.Block

/-!
The expansion of templates.

A call is expanded by reading the body of its template, with the values in place, as
a source of its own. The body can call templates again, so expanding is recursive;
a template that is being expanded cannot be called. A body can also define templates
of new names, and then there need not be an end: the depth of expansions in one
another is a parameter, and a compile that runs out of it says so.

* `Context.bodyOfCall` — the source that a call stands for.
* `expandWith` — one expansion, given the one for the calls in the body.
* `expander` — expansions up to a depth.
-/

namespace IndentMarkup

/-- The source that a call stands for: the body of its template with the values in
place. -/
def Context.bodyOfCall (ctx : Context) (name : Text) (values : List Text) : Except Cause Text :=
  match ctx.template? name with
  | none => .error (.template (.unknown name))
  | some m =>
      match m.substitute values with
      | .error f => .error (.template f)
      | .ok source =>
          if name ∈ ctx.expanding then
            .error (.template (.recursive ctx.expanding.reverse name))
          else .ok source

/-- Expand a call on a line; `inner` expands the calls in the body. Whatever goes
wrong in the body is reported on the line of the call, and the template is no longer
being expanded afterwards, whatever happens. -/
def expandWith (inner : Expander) : Expander := fun name values line ctx =>
  match ctx.bodyOfCall name values with
  | .error cause => .error (.error (ctx.errorAt cause line none)) ctx
  | .ok source =>
      match Block.readFragment inner (SourceLine.ofSource source) (ctx.enter name) with
      | .ok elements after => .ok elements after.leave
      | .error stop after => .error (stop.inTemplate name line) after.leave

/-- Expand calls whose bodies call one another at most `depth` levels deep. -/
def expander : (depth : Nat) → Expander
  | 0 => fun _ _ _ ctx => .error .exhausted ctx
  | depth + 1 => expandWith (expander depth)

/-! ### Calls that have a body -/

theorem Context.template?_of_bodyOfCall {ctx : Context} {name : Text} {values : List Text}
    {source : Text} (h : ctx.bodyOfCall name values = .ok source) :
    ∃ m, ctx.template? name = some m ∧ m.substitute values = .ok source := by
  unfold bodyOfCall at h
  cases ht : ctx.template? name with
  | none => simp [ht] at h
  | some m =>
      cases hs : m.substitute values with
      | error f => simp [ht, hs] at h
      | ok source' =>
          by_cases hmem : name ∈ ctx.expanding
          · simp [ht, hs, hmem] at h
          · simp only [ht, hs, hmem, if_false, Except.ok.injEq] at h
            exact ⟨m, rfl, by rw [hs, h]⟩

theorem Context.isOwn_of_bodyOfCall {ctx : Context} {name : Text} {values : List Text}
    {cause : Cause} (h : ctx.bodyOfCall name values = .error cause) : cause.isOwn = true := by
  unfold bodyOfCall at h
  split at h
  · cases h
    rfl
  · split at h
    · cases h
      rfl
    · split at h <;> cases h
      rfl

/-- A template that is being expanded has no body for another call. -/
theorem Context.notMem_expanding_of_bodyOfCall {ctx : Context} {name : Text}
    {values : List Text} {source : Text} (h : ctx.bodyOfCall name values = .ok source) :
    name ∉ ctx.expanding := by
  intro hmem
  obtain ⟨m, ht, hs⟩ := template?_of_bodyOfCall h
  simp [bodyOfCall, ht, hs, hmem] at h

end IndentMarkup
