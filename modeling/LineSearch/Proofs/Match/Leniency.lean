import LineSearch.Proofs.Match.Enumeration

/-! Branches that do not compile. An optional group leaves out those of its own branches, at every
depth of nesting; any other group reports the first that it reaches, also inside an optional group. -/
namespace LineSearch.Match
open Matching

/-- A compile error met while matching is that of a nested branch whose own group is not optional. -/
private theorem uncompiled_of_isMatch {engine : Engine} (he : engine.Reachable) {text source : Text}
    {pattern : Pattern} (hp : Pattern.parse source = .ok pattern) {error : CompileError}
    (h : (engine.isMatch text source).1 = .error (.compile error)) :
    ∃ around own branch, Enclosed pattern.tokens around own branch ∧ own ≠ some .zeroOrOne ∧
      Pattern.parse branch = .error error := by
  rw [he.isMatch_fst, fresh_isMatch hp] at h
  obtain ⟨start, hs, hrun⟩ := find_error h
  rcases runWithin_error hs hrun with ⟨hdepth, _⟩ | ⟨around, own, branch, cause, hb, ho, hc, heq⟩
  · cases hdepth
  · cases heq
    exact ⟨around, own, branch, hb, ho, hc⟩

/-- Where branches that do not compile count as not matching, they can be left out. -/
private theorem fresh_branchEnds_filter (nested : Runner) (start : Nat) (branches : List Text) :
    (branchEnds nested true start branches).fresh =
      (branchEnds nested true start
        (branches.filter fun branch => (Pattern.parse branch).isOk)).fresh := by
  induction branches with
  | nil => rfl
  | cons branch rest ih =>
    rw [branchEnds, fresh_bind_of_ok (fresh_request branch)]
    rcases hp : Pattern.parse branch with e | pattern
    · rw [List.filter_cons_of_neg (by simp [hp, Except.isOk, Except.toBool])]
      exact ih
    · rw [List.filter_cons_of_pos (by simp [hp, Except.isOk, Except.toBool]), branchEnds,
        fresh_bind_of_ok (fresh_request branch), hp]
      simp only
      split
      · exact ih
      · rw [fresh_bind, fresh_bind]
        rcases (nested pattern.tokens start).fresh with e | _ | stop
        · rfl
        · exact ih
        · simp only
          rw [fresh_bind, fresh_bind, ih]

/-- Whatever stands in groups stands in one of the stream's own groups. -/
private theorem Enclosed.outermost {tokens : List Token} {around : List (Option Suffix)}
    {own : Option Suffix} {branch : Text} (h : Enclosed tokens around own branch) :
    ∃ token ∈ tokens, ∃ body branches suffix,
      token.kind = .group body branches suffix ∧ suffix ∈ own :: around := by
  cases h with
  | direct member kind inside => exact ⟨_, member, _, _, _, kind, .head _⟩
  | inner member kind inside parsed below => exact ⟨_, member, _, _, _, kind, .tail _ (.head _)⟩

/-- All of `((+))?b` that does not compile stands inside an optional group. Its branch `+` is reported
all the same, since that branch's own group is not optional. -/
theorem enclosed_branch_is_reported :
    ∃ pattern, Pattern.parse ['(', '(', '+', ')', ')', '?', 'b'] = .ok pattern ∧
      (∀ around own branch error, Enclosed pattern.tokens around own branch →
        Pattern.parse branch = .error error → some .zeroOrOne ∈ own :: around) ∧
      (Engine.isMatch { recursionLimit := 256 } ['b'] ['(', '(', '+', ')', ')', '?', 'b']).1 =
        .error (.compile (.danglingQuantifier .oneOrMore 0)) := by
  refine ⟨_, rfl, ?_, rfl⟩
  intro around own branch error h _
  obtain ⟨token, ht, body, branches, suffix, hk, hs⟩ := h.outermost
  change token ∈ [{ kind := .group ['(', '+', ')'] [['(', '+', ')']] (some .zeroOrOne) },
    { kind := .literal ['b'] }] at ht
  simp only [List.mem_cons, List.not_mem_nil, or_false] at ht
  rcases ht with rfl | rfl
  · cases hk
    exact hs
  · cases hk

/-- If all that does not compile is a branch of an optional group, at whatever depth of nesting, then
matching reports no branch. Such a branch counts as one that does not match: its group offers what it
offers without that branch. -/
theorem optional_group_leaves_out_uncompiled :
    (∀ (engine : Engine) (text source : Text) (pattern : Pattern), engine.Reachable →
      Pattern.parse source = .ok pattern →
      (∀ around own branch error, Enclosed pattern.tokens around own branch →
        Pattern.parse branch = .error error → own = some .zeroOrOne) →
      ∀ error, (engine.isMatch text source).1 ≠ .error (.compile error)) ∧
    (∀ (chars : Line) (nested : Runner) (start : Nat) (body : Text) (branches : List Text),
      (offer chars nested start (.group body branches (some .zeroOrOne))).fresh =
        (offer chars nested start (.group body
          (branches.filter fun branch => (Pattern.parse branch).isOk) (some .zeroOrOne))).fresh) := by
  refine ⟨?_, ?_⟩
  · intro engine text source pattern he hp hlenient error h
    obtain ⟨around, own, branch, hb, hown, hparse⟩ := uncompiled_of_isMatch he hp h
    exact hown (hlenient around own branch error hb hparse)
  · intro chars nested start body branches
    simp only [offer, groupEnds]
    rw [fresh_map, fresh_map, fresh_bind, fresh_bind, fresh_branchEnds_filter]

/-- In `((+z)?)+$` the only branch of the inner group does not compile, and that group offers nothing
but its absence. -/
theorem nested_optional_group_leaves_out_uncompiled :
    (∀ error, (Engine.isMatch { recursionLimit := 256 } ['x', 'b']
      ['(', '(', '+', 'z', ')', '?', ')', '+', '$']).1 ≠ .error (.compile error)) ∧
    (offer #['x', 'b'] (run #['x', 'b'] 256) 1
      (.group ['+', 'z'] [['+', 'z']] (some .zeroOrOne))).fresh = .ok (.choose [1]) := by
  obtain ⟨reportsNothing, leavesOut⟩ := optional_group_leaves_out_uncompiled
  refine ⟨?_, leavesOut _ _ 1 _ [['+', 'z']]⟩
  refine reportsNothing _ _ _ _ (.new 256) rfl ?_
  intro around own branch error h hp
  cases h with
  | direct member kind inside =>
    cases List.mem_singleton.mp member
    cases kind
    cases List.mem_singleton.mp inside
    cases hp
  | inner member kind inside parsed below =>
    cases List.mem_singleton.mp member
    cases kind
    cases List.mem_singleton.mp inside
    cases parsed
    cases below with
    | direct member kind inside =>
      cases List.mem_singleton.mp member
      cases kind
      rfl
    | inner member kind inside parsed below =>
      cases List.mem_singleton.mp member
      cases kind
      cases List.mem_singleton.mp inside
      cases parsed

end LineSearch.Match
