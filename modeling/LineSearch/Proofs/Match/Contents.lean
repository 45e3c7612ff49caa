import LineSearch.Proofs.Match.History

/-! What is in the cache of an engine. Main statement: whatever an engine is put to, its cache has the
patterns that it was given, those that matching came upon as branches of others, and nothing else. -/
namespace LineSearch

/-- The computation asks only for texts that are known to begin with, and for branches of patterns that it
was answered before. -/
inductive OnDemand.Descends {α : Type} : List Text → OnDemand α → Prop where
  | done (known : List Text) (a : α) : Descends known (.done a)
  | compile {known : List Text} {source : Text} {next : Except CompileError Pattern → OnDemand α}
    (member : source ∈ known) (failed : ∀ e, Descends known (next (.error e)))
    (compiled : ∀ pattern, Pattern.parse source = .ok pattern →
      Descends (nestedBranches pattern.tokens ++ known) (next (.ok pattern))) :
    Descends known (.compile source next)

namespace OnDemand
variable {α β : Type} {known known' : List Text}

theorem Descends.mono {computation : OnDemand α} (h : Descends known computation) (hsub : known ⊆ known') :
    Descends known' computation := by
  induction h generalizing known' with
  | done _ a => exact .done known' a
  | compile member failed compiled ihFailed ihCompiled =>
    refine .compile (hsub member) (fun e => ihFailed e hsub) fun pattern hp => ihCompiled pattern hp ?_
    exact List.append_subset.mpr ⟨List.subset_append_left _ _, List.subset_append_of_subset_right _ hsub⟩

theorem Descends.bind {computation : OnDemand α} {next : α → OnDemand β}
    (first : Descends known computation) (after : ∀ a, Descends known (next a)) :
    Descends known (computation >>= next) := by
  induction first with
  | done known a => exact after a
  | compile member failed compiled ihFailed ihCompiled =>
    refine .compile member (fun e => ihFailed e after) fun pattern hp => ihCompiled pattern hp fun a => ?_
    exact (after a).mono (List.subset_append_right _ _)

end OnDemand

namespace Matching
variable {α β : Type} {known known' : List Text} {attempt : Matching α} {next : α → Matching β}

def Descends (known : List Text) (attempt : Matching α) : Prop := OnDemand.Descends known attempt.run

theorem Descends.pure (known : List Text) (a : α) : Descends known (pure a) := .done known _

theorem Descends.throw (known : List Text) (e : MatchError) : Descends known (throw e : Matching α) :=
  .done known _

theorem Descends.mono (h : Descends known attempt) (hsub : known ⊆ known') : Descends known' attempt :=
  OnDemand.Descends.mono h hsub

theorem Descends.bind (first : Descends known attempt) (after : ∀ a, Descends known (next a)) :
    Descends known (attempt >>= next) := by
  refine OnDemand.Descends.bind first fun answer => ?_
  rcases answer with e | a
  · exact .done known _
  · exact after a

theorem Descends.map (f : α → β) (h : Descends known attempt) : Descends known (f <$> attempt) := by
  rw [map_eq_pure_bind]
  exact h.bind fun a => .pure known (f a)

/-- Once a known text is compiled, the branches of its pattern are known too. -/
private theorem Descends.request_bind {source : Text} {next : Except CompileError Pattern → Matching β}
    (member : source ∈ known) (failed : ∀ e, Descends known (next (.error e)))
    (compiled : ∀ pattern, Pattern.parse source = .ok pattern →
      Descends (nestedBranches pattern.tokens ++ known) (next (.ok pattern))) :
    Descends known (request source >>= next) :=
  .compile member failed compiled

end Matching

namespace Match
open Matching
variable {line : Line} {nested : Runner} {known : List Text}

private theorem descends_roundsFrom {round : Nat → Matching (Option Nat)}
    (h : ∀ start, Descends known (round start))
    (fuel start : Nat) (reached : List Nat) : Descends known (roundsFrom round fuel start reached) := by
  induction fuel generalizing start reached with
  | zero => exact .pure known reached
  | succ fuel ih =>
    refine (h start).bind fun stop => ?_
    cases stop with
    | none => exact .pure known reached
    | some next =>
      dsimp only
      split
      · exact .pure known _
      · exact ih next (next :: reached)

section Nested
variable (hn : ∀ tokens start, Descends (nestedBranches tokens) (nested tokens start))
include hn

/-- What a branch asks for is known once the branch itself is compiled. -/
private theorem descends_branchEnds {branches : List Text} (h : branches ⊆ known) (lenient : Bool)
    (start : Nat) : Descends known (branchEnds nested lenient start branches) := by
  induction branches generalizing known with
  | nil => exact .pure known []
  | cons branch rest ih =>
    obtain ⟨hbranch, hrest⟩ := List.cons_subset.mp h
    refine .request_bind hbranch (fun e => ?_) fun pattern _ => ?_
    · cases lenient with
      | true => exact ih hrest
      | false => exact .throw known _
    · have later := ih (List.subset_append_of_subset_right (nestedBranches pattern.tokens) hrest)
      dsimp only
      split
      · exact later
      · refine ((hn pattern.tokens start).mono (List.subset_append_left _ _)).bind fun stop => ?_
        cases stop with
        | none => exact later
        | some stop => exact later.map (stop :: ·)

private theorem descends_groupEnds {branches : List Text} (h : branches ⊆ known) (start : Nat)
    (suffix : Option Suffix) : Descends known (groupEnds line nested branches start suffix) := by
  rcases suffix with _ | _ | _
  · exact descends_branchEnds hn h false start
  · refine descends_roundsFrom (fun start => ?_) _ _ _
    exact (descends_branchEnds hn h false start).map List.head?
  · exact (descends_branchEnds hn h true start).map (· ++ [start])

private theorem descends_offer {kind : TokenKind} (h : kind.branches ⊆ known) (start : Nat) :
    Descends known (offer line nested start kind) := by
  fun_cases offer line nested start kind
  case case10 | case11 | case12 => exact (descends_roundsFrom (fun start => .pure known _) _ _ _).map _
  case case13 body branches suffix => exact (descends_groupEnds hn h start suffix).map _
  all_goals exact .pure known _

private theorem descends_firstViable {token : Token} {rest : List Token} (h : nestedBranches rest ⊆ known)
    (stops : List Nat) : Descends known (firstViable line nested token rest stops) := by
  induction stops with
  | nil => exact .pure known none
  | cons stop stops ih =>
    rw [firstViable]
    split
    · refine ((hn rest stop).mono h).bind fun finish => ?_
      cases finish with
      | none => exact ih
      | some finish => exact .pure known _
    · exact ih

private theorem descends_runTokens (tokens : List Token) (start : Nat) :
    Descends (nestedBranches tokens) (runTokens line nested tokens start) := by
  induction tokens generalizing start with
  | nil => exact .pure _ _
  | cons token rest ih =>
    have hcons : nestedBranches (token :: rest) = token.kind.branches ++ nestedBranches rest := rfl
    rw [hcons, runTokens]
    refine (descends_offer hn (List.subset_append_left _ _) start).bind fun offered => ?_
    have hrest : nestedBranches rest ⊆ token.kind.branches ++ nestedBranches rest :=
      List.subset_append_right _ _
    rcases offered with (_ | stop) | stops | stop
    · exact .pure _ none
    · dsimp only
      split
      · exact (ih stop).mono hrest
      · exact .pure _ none
    · exact descends_firstViable hn hrest stops
    · exact .pure _ stop

end Nested

private theorem descends_runWithin (limit budget : Nat) (tokens : List Token) (start : Nat) :
    Descends (nestedBranches tokens) (runWithin line limit budget tokens start) := by
  induction budget generalizing tokens start with
  | zero => exact .throw _ _
  | succ budget ih =>
    dsimp only [runWithin]
    split
    · exact .throw _ _
    · exact descends_runTokens ih tokens start

private theorem descends_anyStart (limit : Nat) (tokens : List Token) (starts : List Nat) :
    Descends (nestedBranches tokens) (anyStart line limit tokens starts) := by
  induction starts with
  | nil => exact .pure _ false
  | cons start starts ih =>
    refine (descends_runWithin limit limit tokens start).bind fun stop => ?_
    cases stop with
    | none => exact ih
    | some stop => exact .pure _ true

/-- Matching a pattern asks for no text but its branches, their branches and so on. -/
theorem descends_find (limit : Nat) (pattern : Pattern) :
    Descends (nestedBranches pattern.tokens) (find line limit pattern) :=
  descends_anyStart limit pattern.tokens _

end Match

theorem descends_isMatch (limit : Nat) (text source : Text) :
    Matching.Descends [source] (isMatch limit text source) := by
  refine .request_bind List.mem_cons_self (fun e => .throw _ _) fun pattern _ => ?_
  exact (Match.descends_find limit pattern).mono (List.subset_append_left _ _)

namespace Cache

def Nests (cache : Cache) (branch : Text) : Prop :=
  ∃ parent pattern, cache.find? parent = some pattern ∧ branch ∈ nestedBranches pattern.tokens

def Keeps (before after : Cache) : Prop :=
  ∀ source pattern, before.find? source = some pattern → after.find? source = some pattern

/-- What is new was passed, or is a branch of a pattern that is there. -/
def AddsNested (passed : List Text) (before after : Cache) : Prop :=
  ∀ source pattern, after.find? source = some pattern →
    before.find? source = some pattern ∨ source ∈ passed ∨ after.Nests source

variable {before middle after cache : Cache} {passed : List Text} {source : Text}

theorem Keeps.refl (cache : Cache) : cache.Keeps cache := fun _ _ h => h

theorem Keeps.trans (first : before.Keeps middle) (second : middle.Keeps after) : before.Keeps after :=
  fun source pattern h => second source pattern (first source pattern h)

private theorem Nests.mono {branch : Text} (h : before.Nests branch) (keeps : before.Keeps after) :
    after.Nests branch := by
  obtain ⟨parent, pattern, hparent, hb⟩ := h
  exact ⟨parent, pattern, keeps parent pattern hparent, hb⟩

theorem AddsNested.refl (passed : List Text) (cache : Cache) : AddsNested passed cache cache :=
  fun _ _ h => .inl h

theorem AddsNested.trans (first : AddsNested passed before middle) (second : AddsNested passed middle after)
    (keeps : middle.Keeps after) : AddsNested passed before after := by
  intro source pattern h
  rcases second source pattern h with hmiddle | hnew
  · rcases first source pattern hmiddle with hbefore | hpassed | hnested
    · exact .inl hbefore
    · exact .inr (.inl hpassed)
    · exact .inr (.inr (hnested.mono keeps))
  · exact .inr hnew

private theorem keeps_compile (cache : Cache) (source : Text) : cache.Keeps (cache.compile source).2 := by
  rw [compile]
  split
  · exact .refl cache
  · rename_i hmiss
    split
    · intro other pattern h
      have hne : source ≠ other := by
        rintro rfl
        rw [hmiss] at h
        cases h
      rw [find?_insert, if_neg hne]
      exact h
    · exact .refl cache

private theorem adds_compile (h : source ∈ passed ∨ cache.Nests source) :
    AddsNested passed cache (cache.compile source).2 := by
  intro other pattern ho
  by_cases heq : other = source
  · rw [heq]
    exact .inr (h.imp_right fun hnested => hnested.mono (cache.keeps_compile source))
  · refine .inl ?_
    rw [compile] at ho
    split at ho
    · exact ho
    · split at ho
      · rwa [find?_insert, if_neg (Ne.symm heq)] at ho
      · exact ho

/-- What was compiled is there. -/
private theorem Faithful.find?_compile (h : cache.Faithful) {pattern : Pattern}
    (hp : Pattern.parse source = .ok pattern) : (cache.compile source).2.find? source = some pattern := by
  rw [Cache.compile]
  split
  · rename_i cached hfind
    have hsame := (h source cached hfind).symm.trans hp
    cases hsame
    exact hfind
  · rw [hp]
    dsimp only
    rw [find?_insert, if_pos rfl]

end Cache

namespace OnDemand
variable {α : Type}

theorem keeps_run (computation : OnDemand α) (cache : Cache) : cache.Keeps (computation.run cache).2 := by
  induction computation generalizing cache with
  | done a => exact .refl cache
  | compile source next ih => exact (cache.keeps_compile source).trans (ih _ _)

/-- Where a computation descends from known texts, what it adds to the cache has its reason there, at
whatever point it ends. -/
theorem Descends.adds_run {known passed : List Text} {computation : OnDemand α}
    (h : Descends known computation) {cache : Cache} (faithful : cache.Faithful)
    (hknown : ∀ text ∈ known, text ∈ passed ∨ cache.Nests text) :
    Cache.AddsNested passed cache (computation.run cache).2 := by
  induction h generalizing cache with
  | done known a => exact .refl passed cache
  | @compile known source next member failed compiled ihFailed ihCompiled =>
    obtain ⟨answer, faithful'⟩ := faithful.compile source
    have keeps := cache.keeps_compile source
    have first : Cache.AddsNested passed cache (cache.compile source).2 :=
      Cache.adds_compile (hknown source member)
    have hstill : ∀ text ∈ known, text ∈ passed ∨ (cache.compile source).2.Nests text :=
      fun text ht => (hknown text ht).imp_right fun hnested => hnested.mono keeps
    refine first.trans ?_ (keeps_run _ _)
    rw [run, answer]
    rcases hp : Pattern.parse source with e | pattern
    · exact ihFailed e faithful' hstill
    · refine ihCompiled pattern hp faithful' fun text ht => ?_
      rcases List.mem_append.mp ht with hb | ht
      · exact .inr ⟨source, pattern, faithful.find?_compile hp, hb⟩
      · exact hstill text ht

end OnDemand

namespace Engine

def after (engine : Engine) (patterns : List Pattern) : List Operation → Engine × List Pattern
  | [] => (engine, patterns)
  | operation :: rest =>
    let step := engine.perform patterns operation
    after step.2 (step.1.handOut patterns) rest

def Operation.passed : Operation → List Text
  | .compile source => [source]
  | .isMatch _ source => [source]
  | _ => []

/-- What holds of an engine between any two operations, given the texts that were passed to it. -/
structure Stocked (engine : Engine) (patterns : List Pattern) (passed : List Text) : Prop where
  reachable : engine.Reachable
  owned : ∀ pattern ∈ patterns, engine.cache.find? pattern.source = some pattern
  rooted : ∀ source pattern, engine.cache.find? source = some pattern →
    source ∈ passed ∨ engine.cache.Nests source
  present : ∀ source ∈ passed, ∀ pattern, Pattern.parse source = .ok pattern →
    engine.cache.find? source = some pattern

variable {engine : Engine} {patterns : List Pattern} {passed : List Text}

private theorem keeps_perform (engine : Engine) (patterns : List Pattern) (operation : Operation) :
    engine.cache.Keeps (engine.perform patterns operation).2.cache := by
  cases operation with
  | compile source => exact OnDemand.keeps_run _ engine.cache
  | isMatch text source => exact OnDemand.keeps_run _ engine.cache
  | isMatchCompiled text slot =>
    rw [perform]
    split
    · exact OnDemand.keeps_run _ engine.cache
    · exact .refl engine.cache
  | isCached source => exact .refl engine.cache

private theorem adds_perform (faithful : engine.cache.Faithful)
    (owned : ∀ pattern ∈ patterns, engine.cache.find? pattern.source = some pattern) (operation : Operation) :
    Cache.AddsNested operation.passed engine.cache (engine.perform patterns operation).2.cache := by
  cases operation with
  | compile source => exact Cache.adds_compile (.inl List.mem_cons_self)
  | isMatch text source =>
    exact (descends_isMatch engine.recursionLimit text source).adds_run faithful fun text ht => .inl ht
  | isMatchCompiled text slot =>
    rw [perform]
    split
    · rename_i pattern hslot
      refine (Match.descends_find engine.recursionLimit pattern).adds_run faithful fun branch hb => .inr ?_
      exact ⟨pattern.source, pattern, owned pattern (List.mem_of_getElem? hslot), hb⟩
    · exact .refl _ engine.cache
  | isCached source => exact .refl _ engine.cache

private theorem find?_perform (faithful : engine.cache.Faithful) (patterns : List Pattern)
    {operation : Operation} {source : Text} (hs : source ∈ operation.passed) {pattern : Pattern}
    (hp : Pattern.parse source = .ok pattern) :
    (engine.perform patterns operation).2.cache.find? source = some pattern := by
  have hcompiled := faithful.find?_compile hp
  cases operation with
  | compile other =>
    cases List.mem_singleton.mp hs
    exact hcompiled
  | isMatch text other =>
    cases List.mem_singleton.mp hs
    exact OnDemand.keeps_run _ (engine.cache.compile source).2 source pattern hcompiled
  | isMatchCompiled text slot => cases hs
  | isCached other => cases hs

private theorem owned_perform (faithful : engine.cache.Faithful)
    (owned : ∀ pattern ∈ patterns, engine.cache.find? pattern.source = some pattern) (operation : Operation) :
    ∀ pattern ∈ (engine.perform patterns operation).1.handOut patterns,
      (engine.perform patterns operation).2.cache.find? pattern.source = some pattern := by
  have still : ∀ pattern ∈ patterns,
      (engine.perform patterns operation).2.cache.find? pattern.source = some pattern :=
    fun pattern hpattern => engine.keeps_perform patterns operation _ _ (owned pattern hpattern)
  cases operation with
  | compile source =>
    have hanswer : (engine.perform patterns (.compile source)).1 = .compiled (Pattern.parse source) :=
      congrArg Answer.compiled (faithful.compile source).1
    rw [hanswer]
    rcases hp : Pattern.parse source with e | pattern
    · exact still
    · intro other ho
      rcases List.mem_append.mp ho with ho | ho
      · exact still other ho
      · cases List.mem_singleton.mp ho
        rw [Pattern.source_of_parse hp]
        exact find?_perform faithful patterns List.mem_cons_self hp
  | isMatch text source => exact still
  | isMatchCompiled text slot =>
    have hanswer : (engine.perform patterns (.isMatchCompiled text slot)).1.handOut patterns = patterns := by
      rw [perform]
      split <;> rfl
    rwa [hanswer]
  | isCached source => exact still

private theorem stocked_new (limit : Nat) : Stocked { recursionLimit := limit } [] [] := by
  refine ⟨.new limit, ?_, ?_, ?_⟩
  · intro pattern h
    cases h
  · intro source pattern h
    rw [Cache.find?_empty] at h
    cases h
  · intro source h
    cases h

/-- One operation, whatever it ends in. -/
theorem Stocked.perform (h : Stocked engine patterns passed) (operation : Operation) :
    Stocked (engine.perform patterns operation).2 ((engine.perform patterns operation).1.handOut patterns)
      (passed ++ operation.passed) := by
  have faithful := h.reachable.faithful
  have keeps := engine.keeps_perform patterns operation
  refine ⟨(h.reachable.perform patterns operation).1, owned_perform faithful h.owned operation, ?_, ?_⟩
  · intro source pattern hfind
    rcases adds_perform faithful h.owned operation source pattern hfind with hbefore | hpassed | hnested
    · rcases h.rooted source pattern hbefore with hpassed | hnested
      · exact .inl (List.mem_append_left _ hpassed)
      · exact .inr (hnested.mono keeps)
    · exact .inl (List.mem_append_right _ hpassed)
    · exact .inr hnested
  · intro source hs pattern hp
    rcases List.mem_append.mp hs with hs | hs
    · exact keeps source pattern (h.present source hs pattern hp)
    · exact find?_perform faithful patterns hs hp

theorem Stocked.after (h : Stocked engine patterns passed) (operations : List Operation) :
    Stocked (engine.after patterns operations).1 (engine.after patterns operations).2
      (passed ++ operations.flatMap Operation.passed) := by
  induction operations generalizing engine patterns passed with
  | nil => rwa [List.flatMap_nil, List.append_nil]
  | cons operation rest ih =>
    rw [List.flatMap_cons, ← List.append_assoc]
    exact ih (h.perform operation)

theorem keeps_after (engine : Engine) (patterns : List Pattern) (operations later : List Operation) :
    (engine.after patterns operations).1.cache.Keeps
      (engine.after patterns (operations ++ later)).1.cache := by
  induction operations generalizing engine patterns with
  | cons operation rest ih => exact ih _ _
  | nil =>
    induction later generalizing engine patterns with
    | nil => exact .refl _
    | cons operation rest ih => exact (engine.keeps_perform patterns operation).trans (ih _ _)

/-- A branch of a cached pattern is one of a group in it, and the pattern is another one. -/
private theorem Stocked.group_of_nests (h : Stocked engine patterns passed) {branch : Text}
    (hb : engine.cache.Nests branch) :
    ∃ parent pattern, parent ≠ branch ∧ engine.cache.find? parent = some pattern ∧
      ∃ token ∈ pattern.tokens, ∃ body branches suffix,
        token.kind = .group body branches suffix ∧ branch ∈ branches := by
  obtain ⟨parent, pattern, hparent, hb⟩ := hb
  have hp := h.reachable.faithful parent pattern hparent
  refine ⟨parent, pattern, ?_, hparent, ?_⟩
  · rintro rfl
    exact Nat.lt_irrefl _ (Pattern.length_nested_lt hp hb)
  · obtain ⟨token, ht, hin⟩ := List.mem_flatMap.mp hb
    rcases hkind : token.kind <;> rw [hkind] at hin
    case group body branches suffix => exact ⟨token, ht, body, branches, suffix, hkind, hin⟩
    all_goals cases hin

/-- Whatever an engine has been put to, failed operations included, its cache has every text that was passed
to it and compiles, and else only branches of groups in other cached patterns, each with the pattern that
it parses to. The next operation leaves all of that as it is. -/
theorem cache_has_what_was_needed (limit : Nat) (operations : List Operation) :
    let cache := (Engine.after { recursionLimit := limit } [] operations).1.cache
    (∀ source pattern, cache.find? source = some pattern → Pattern.parse source = .ok pattern) ∧
    (∀ next source pattern, cache.find? source = some pattern →
      (Engine.after { recursionLimit := limit } [] (operations ++ [next])).1.cache.find? source =
        some pattern) ∧
    (∀ source, cache.contains source = true →
      source ∈ operations.flatMap Operation.passed ∨
        ∃ parent pattern, parent ≠ source ∧ cache.find? parent = some pattern ∧
          ∃ token ∈ pattern.tokens, ∃ body branches suffix,
            token.kind = .group body branches suffix ∧ source ∈ branches) ∧
    (∀ source ∈ operations.flatMap Operation.passed, ∀ pattern, Pattern.parse source = .ok pattern →
      cache.find? source = some pattern) ∧
    (∀ source e, Pattern.parse source = .error e → cache.contains source = false) := by
  intro cache
  have stocked := (stocked_new limit).after operations
  rw [List.nil_append] at stocked
  have faithful := stocked.reachable.faithful
  refine ⟨faithful, fun next => keeps_after _ _ operations [next], fun source hs => ?_, stocked.present,
    fun source e he => ?_⟩
  · rw [Cache.contains_eq, Option.isSome_iff_exists] at hs
    obtain ⟨pattern, hfind⟩ := hs
    exact (stocked.rooted source pattern hfind).imp_right stocked.group_of_nests
  · rw [Cache.contains_eq, Option.isSome_eq_false_iff, Option.isNone_iff_eq_none]
    rcases hfind : cache.find? source with _ | pattern
    · rfl
    · cases he.symm.trans (faithful source pattern hfind)

/-- A match that ends in an error has cached the branch it came through, and not the one it failed at. -/
theorem failed_match_leaves_branch :
    let operations : List Operation := [.isMatch ['a'] ['(', 'a', ')', '(', '+', ')']]
    let cache := (Engine.after { recursionLimit := 4 } [] operations).1.cache
    cache.contains ['a'] = true ∧
      (['a'] ∈ operations.flatMap Operation.passed ∨
        ∃ parent pattern, parent ≠ ['a'] ∧ cache.find? parent = some pattern ∧
          ∃ token ∈ pattern.tokens, ∃ body branches suffix,
            token.kind = .group body branches suffix ∧ ['a'] ∈ branches) ∧
      cache.contains ['+'] = false := by
  intro operations cache
  obtain ⟨-, -, rooted, -, unparsed⟩ := cache_has_what_was_needed 4 operations
  have branch : cache.contains ['a'] = true := by
    rfl
  have dangling : Pattern.parse ['+'] = .error (.danglingQuantifier .oneOrMore 0) := by
    rfl
  exact ⟨branch, rooted ['a'] branch, unparsed ['+'] _ dangling⟩

end Engine

end LineSearch
