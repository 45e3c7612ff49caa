import LineSearch.Match.Search

/-! What attempts and engines answer when every request for a pattern is answered by parsing. An
engine's cache never shows in its answers. -/
namespace LineSearch

instance : LawfulMonad OnDemand := by
  refine LawfulMonad.mk' OnDemand ?_ ?_ ?_
  · intro α x
    induction x with
    | done a => rfl
    | compile source next ih => exact congrArg (OnDemand.compile source) (funext ih)
  · intro α β a f
    rfl
  · intro α β γ x f g
    induction x with
    | done a => rfl
    | compile source next ih => exact congrArg (OnDemand.compile source) (funext ih)

namespace Matching
variable {α β : Type}

@[simp] theorem fresh_pure (a : α) : (pure a : Matching α).fresh = .ok a := rfl

@[simp] theorem fresh_request (source : Text) :
    (request source).fresh = .ok (Pattern.parse source) := rfl

theorem fresh_bind (attempt : Matching α) (next : α → Matching β) :
    (attempt >>= next).fresh =
      match attempt.fresh with
      | .ok a => (next a).fresh
      | .error e => .error e := by
  have hb : (attempt >>= next).fresh =
      (ExceptT.bindCont next attempt.run.fresh).fresh := OnDemand.fresh_bind _ _
  rw [hb]
  unfold fresh
  cases attempt.run.fresh <;> rfl

theorem fresh_bind_of_ok {attempt : Matching α} {a : α} (h : attempt.fresh = .ok a)
    (next : α → Matching β) : (attempt >>= next).fresh = (next a).fresh := by
  rw [fresh_bind, h]

theorem fresh_bind_eq_ok {attempt : Matching α} {next : α → Matching β} {b : β} :
    (attempt >>= next).fresh = .ok b ↔ ∃ a, attempt.fresh = .ok a ∧ (next a).fresh = .ok b := by
  rw [fresh_bind]
  cases attempt.fresh <;> simp

theorem fresh_bind_eq_error {attempt : Matching α} {next : α → Matching β} {e : MatchError} :
    (attempt >>= next).fresh = .error e ↔
      attempt.fresh = .error e ∨ ∃ a, attempt.fresh = .ok a ∧ (next a).fresh = .error e := by
  rw [fresh_bind]
  cases attempt.fresh <;> simp

theorem fresh_map (f : α → β) (attempt : Matching α) :
    (f <$> attempt).fresh = attempt.fresh.map f := by
  rw [show f <$> attempt = attempt >>= fun a => pure (f a) from rfl, fresh_bind]
  cases attempt.fresh <;> rfl

theorem fresh_map_eq_ok {f : α → β} {attempt : Matching α} {b : β} :
    (f <$> attempt).fresh = .ok b ↔ ∃ a, attempt.fresh = .ok a ∧ f a = b := by
  rw [fresh_map]
  cases attempt.fresh <;> simp [Except.map]

theorem fresh_map_eq_error {f : α → β} {attempt : Matching α} {e : MatchError} :
    (f <$> attempt).fresh = .error e ↔ attempt.fresh = .error e := by
  rw [fresh_map]
  cases attempt.fresh <;> simp [Except.map]

/-- If the attempt answers at all, it answers `a`. -/
def Yields (attempt : Matching α) (a : α) : Prop := ∀ answer, attempt.fresh = .ok answer → answer = a

namespace Yields

theorem pure (a : α) : Yields (pure a) a := by
  intro answer h
  cases h
  rfl

theorem throw (e : MatchError) (a : α) : Yields (throw e) a := by
  intro answer h
  cases h

theorem bind {attempt : Matching α} {a : α} {next : α → Matching β} {b : β}
    (first : Yields attempt a) (second : Yields (next a) b) : Yields (attempt >>= next) b := by
  intro answer h
  obtain ⟨a', ha, hn⟩ := fresh_bind_eq_ok.mp h
  cases first a' ha
  exact second answer hn

theorem map {attempt : Matching α} {a : α} (h : Yields attempt a) (f : α → β) :
    Yields (f <$> attempt) (f a) := by
  intro answer ha
  obtain ⟨a', ha', rfl⟩ := fresh_map_eq_ok.mp ha
  rw [h a' ha']

theorem request (source : Text) : Yields (request source) (Pattern.parse source) := by
  intro answer h
  cases h
  rfl

end Yields

end Matching

def Cache.Faithful (cache : Cache) : Prop :=
  ∀ source pattern, cache.find? source = some pattern → Pattern.parse source = .ok pattern

namespace Cache

theorem faithful_empty : empty.Faithful := by
  intro source pattern h
  simp at h

/-- What parsing gives may be added. -/
theorem Faithful.insert {cache : Cache} (h : cache.Faithful) {source : Text} {pattern : Pattern}
    (hparse : Pattern.parse source = .ok pattern) : (cache.insert source pattern).Faithful := by
  intro other found ho
  rw [find?_insert] at ho
  split at ho
  · rename_i heq
    cases ho
    exact heq ▸ hparse
  · exact h other found ho

/-- One compilation answers what parsing answers, and keeps the cache faithful. -/
theorem Faithful.compile {cache : Cache} (h : cache.Faithful) (source : Text) :
    (cache.compile source).1 = Pattern.parse source ∧ (cache.compile source).2.Faithful := by
  unfold Cache.compile
  split
  · rename_i pattern hfind
    exact ⟨(h source pattern hfind).symm, h⟩
  · split
    · rename_i pattern hparse
      exact ⟨hparse.symm, h.insert hparse⟩
    · rename_i e hparse
      exact ⟨hparse.symm, h⟩

end Cache

/-- A computation cannot tell a faithful cache from parsing anew. -/
theorem OnDemand.run_of_faithful {α : Type} (computation : OnDemand α) {cache : Cache}
    (h : cache.Faithful) :
    (computation.run cache).1 = computation.fresh ∧ (computation.run cache).2.Faithful := by
  induction computation generalizing cache with
  | done a => exact ⟨rfl, h⟩
  | compile source next ih =>
    obtain ⟨answer, faithful⟩ := h.compile source
    have hn := ih (cache.compile source).1 faithful
    rw [answer] at hn
    simp only [run, fresh, answer]
    exact hn

namespace Engine

/-- Engines after any history of compiling and matching, failed operations included. -/
inductive Reachable : Engine → Prop where
  | new (limit : Nat) : Reachable { recursionLimit := limit }
  | compile {engine : Engine} (source : Text) (before : Reachable engine) :
      Reachable (engine.compile source).2
  | isMatch {engine : Engine} (text source : Text) (before : Reachable engine) :
      Reachable (engine.isMatch text source).2
  | isMatchCompiled {engine : Engine} (text : Text) (pattern : Pattern)
      (before : Reachable engine) : Reachable (engine.isMatchCompiled text pattern).2

theorem Reachable.faithful {engine : Engine} (h : engine.Reachable) : engine.cache.Faithful := by
  induction h with
  | new limit => exact Cache.faithful_empty
  | compile source before ih => exact (OnDemand.run_of_faithful _ ih).2
  | isMatch text source before ih => exact (OnDemand.run_of_faithful _ ih).2
  | isMatchCompiled text pattern before ih => exact (OnDemand.run_of_faithful _ ih).2

/-- An engine's answer does not depend on its history. -/
theorem Reachable.isMatch_fst {engine : Engine} (h : engine.Reachable) (text source : Text) :
    (engine.isMatch text source).1 =
      (LineSearch.isMatch engine.recursionLimit text source).fresh :=
  (OnDemand.run_of_faithful _ h.faithful).1

theorem Reachable.compile_fst {engine : Engine} (h : engine.Reachable) (source : Text) :
    (engine.compile source).1 = Pattern.parse source :=
  (OnDemand.run_of_faithful _ h.faithful).1

theorem Reachable.isMatchCompiled_fst {engine : Engine} (h : engine.Reachable) (text : Text)
    (pattern : Pattern) :
    (engine.isMatchCompiled text pattern).1 =
      (Match.find text.toArray engine.recursionLimit pattern).fresh :=
  (OnDemand.run_of_faithful _ h.faithful).1

end Engine

end LineSearch
