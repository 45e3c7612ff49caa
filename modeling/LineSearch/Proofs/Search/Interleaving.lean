import Mathlib.Algebra.Order.BigOperators.Group.List
import Mathlib.Algebra.Order.Ring.Nat
import LineSearch.Proofs.Search.Gathering

/-! Files searched at the same time, by a worker each, with one cache for all of them. Main statement: no
order of the workers' steps shows in the result. -/
namespace LineSearch

def OnDemand.requests {α : Type} : OnDemand α → Nat
  | .done _ => 0
  | .compile source next => (next (Pattern.parse source)).requests + 1

/-- A computation on its way, cut where it touches a cache that it shares. -/
inductive Worker (α : Type) where
  /-- Next, the cache is asked for a pattern, unless all is done. -/
  | working (rest : OnDemand α)
  /-- The cache did not have the pattern, which has been parsed since. Next, it is put in. -/
  | adding (source : Text) (pattern : Pattern) (next : Except CompileError Pattern → OnDemand α)

namespace Worker
variable {α : Type}

/-- One step. Others may come between asking and putting in. -/
def act (cache : Cache) : Worker α → Worker α × Cache
  | .working (.done a) => (.working (.done a), cache)
  | .working (.compile source next) =>
    match cache.find? source with
    | some pattern => (.working (next (.ok pattern)), cache)
    | none =>
      match Pattern.parse source with
      | .ok pattern => (.adding source pattern next, cache)
      | .error e => (.working (next (.error e)), cache)
  | .adding source pattern next => (.working (next (.ok pattern)), cache.insert source pattern)

def value? : Worker α → Option α
  | .working (.done a) => some a
  | _ => none

def values? : List (Worker α) → Option (List α)
  | [] => some []
  | worker :: rest => do return (← worker.value?) :: (← values? rest)

def Honest : Worker α → Prop
  | .working _ => True
  | .adding source pattern _ => Pattern.parse source = .ok pattern

def goal : Worker α → α
  | .working rest => rest.fresh
  | .adding _ pattern next => (next (.ok pattern)).fresh

def left : Worker α → Nat
  | .working rest => 2 * rest.requests
  | .adding _ pattern next => 2 * (next (.ok pattern)).requests + 1

private theorem goal_compile (source : Text) (next : Except CompileError Pattern → OnDemand α) :
    (working (.compile source next)).goal = (next (Pattern.parse source)).fresh := rfl

/-- Asking and putting in are two steps. -/
private theorem left_compile (source : Text) (next : Except CompileError Pattern → OnDemand α) :
    (working (.compile source next)).left = 2 * (next (Pattern.parse source)).requests + 2 := rfl

/-- A step keeps the cache faithful and the goal as it is, and comes nearer to it. -/
private theorem act_keeps {cache : Cache} (faithful : cache.Faithful) {worker : Worker α}
    (honest : worker.Honest) :
    (worker.act cache).2.Faithful ∧ (worker.act cache).1.Honest ∧
      (worker.act cache).1.goal = worker.goal ∧ (worker.act cache).1.left ≤ worker.left - 1 := by
  match worker with
  | .working (.done a) => exact ⟨faithful, trivial, rfl, Nat.le_refl 0⟩
  | .working (.compile source next) =>
    rw [goal_compile, left_compile, act]
    rcases hfind : cache.find? source with _ | pattern
    · rcases hparse : Pattern.parse source with e | pattern
      · exact ⟨faithful, trivial, rfl, Nat.le_succ _⟩
      · exact ⟨faithful, hparse, rfl, Nat.le_refl _⟩
    · rw [faithful source pattern hfind]
      exact ⟨faithful, trivial, rfl, Nat.le_succ _⟩
  | .adding source pattern next =>
    exact ⟨faithful.insert honest, trivial, rfl, Nat.le_refl _⟩

/-- Undisturbed, a worker leaves the value and the cache that the computation leaves by itself. -/
theorem iterate_act (task : OnDemand α) (cache : Cache) :
    ∃ steps, (fun state : Worker α × Cache => state.1.act state.2)^[steps] (.working task, cache) =
      (.working (.done (task.run cache).1), (task.run cache).2) := by
  induction task generalizing cache with
  | done a => exact ⟨0, rfl⟩
  | compile source next ih =>
    obtain ⟨steps, hsteps⟩ := ih (cache.compile source).1 (cache.compile source).2
    rw [OnDemand.run, ← hsteps, Cache.compile]
    rcases hfind : cache.find? source with _ | pattern
    · rcases hparse : Pattern.parse source with e | pattern
      · refine ⟨steps + 1, ?_⟩
        rw [Function.iterate_succ_apply, act, hfind, hparse]
      · refine ⟨steps + 1 + 1, ?_⟩
        rw [Function.iterate_succ_apply, Function.iterate_succ_apply, act, hfind, hparse]
        rfl
    · refine ⟨steps + 1, ?_⟩
      rw [Function.iterate_succ_apply, act, hfind]

private theorem goal_of_value {worker : Worker α} {a : α} (h : worker.value? = some a) :
    worker.goal = a := by
  match worker with
  | .working (.done b) =>
    cases h
    rfl

private theorem value_of_left {worker : Worker α} (h : worker.left = 0) :
    worker.value? = some worker.goal := by
  match worker with
  | .working (.done b) => rfl
  | .working (.compile source next) =>
    simp [left, OnDemand.requests] at h

private theorem values?_eq_some {workers : List (Worker α)} {values : List α}
    (h : values? workers = some values) : values = workers.map goal := by
  induction workers generalizing values with
  | nil =>
    cases h
    rfl
  | cons worker rest ih =>
    simp only [values?, bind, Option.bind_eq_some_iff] at h
    obtain ⟨value, hvalue, others, hothers, hv⟩ := h
    cases hv
    rw [List.map_cons, goal_of_value hvalue, ih hothers]

private theorem values?_of_left {workers : List (Worker α)} (h : ∀ worker ∈ workers, worker.left = 0) :
    values? workers = some (workers.map goal) := by
  induction workers with
  | nil => rfl
  | cons worker rest ih =>
    have hfirst := value_of_left (h worker List.mem_cons_self)
    have hrest := ih fun other ho => h other (List.mem_cons_of_mem worker ho)
    rw [values?, hfirst, hrest]
    rfl

end Worker

structure Pool (α : Type) where
  cache : Cache
  workers : List (Worker α)

namespace Pool
variable {α : Type}

def start (cache : Cache) (tasks : List (OnDemand α)) : Pool α :=
  { cache, workers := tasks.map .working }

def turn (pool : Pool α) (number : Nat) : Pool α :=
  match pool.workers[number]? with
  | none => pool
  | some worker =>
    { cache := (worker.act pool.cache).2
      workers := pool.workers.set number (worker.act pool.cache).1 }

def play (pool : Pool α) (schedule : List Nat) : Pool α := schedule.foldl turn pool

structure Sound (pool : Pool α) (goals : List α) : Prop where
  faithful : pool.cache.Faithful
  honest : ∀ worker ∈ pool.workers, worker.Honest
  goals_eq : pool.workers.map Worker.goal = goals

def left (pool : Pool α) (number : Nat) : Nat := (pool.workers[number]?.map Worker.left).getD 0

variable {pool : Pool α} {goals : List α}

private theorem sound_start {cache : Cache} (faithful : cache.Faithful) (tasks : List (OnDemand α)) :
    (start cache tasks).Sound (tasks.map OnDemand.fresh) := by
  refine ⟨faithful, ?_, ?_⟩
  · intro worker hw
    obtain ⟨task, -, rfl⟩ := List.mem_map.mp hw
    trivial
  · rw [start, List.map_map]
    rfl

theorem Sound.turn (h : pool.Sound goals) (number : Nat) : (pool.turn number).Sound goals := by
  rw [Pool.turn]
  split
  · exact h
  · rename_i worker hw
    obtain ⟨faithful, honest, hgoal, -⟩ :=
      Worker.act_keeps h.faithful (h.honest worker (List.mem_of_getElem? hw))
    refine ⟨faithful, ?_, ?_⟩
    · intro other ho
      rcases List.mem_or_eq_of_mem_set ho with ho | rfl
      · exact h.honest other ho
      · exact honest
    · obtain ⟨hn, rfl⟩ := List.getElem?_eq_some_iff.mp hw
      rw [List.map_set, hgoal, ← List.getElem_map Worker.goal, List.set_getElem_self]
      · exact h.goals_eq
      · rwa [List.length_map]

/-- Whatever the schedule, no worker's goal changes and the cache stays faithful. -/
theorem Sound.play (h : pool.Sound goals) (schedule : List Nat) : (pool.play schedule).Sound goals := by
  induction schedule generalizing pool with
  | nil => exact h
  | cons number rest ih => exact ih (h.turn number)

/-- A step takes the worker whose turn it is nearer to its goal, and no other away from its own. -/
private theorem Sound.left_turn (h : pool.Sound goals) (number other : Nat) :
    (pool.turn number).left other ≤ pool.left other - [number].count other := by
  rw [List.count_singleton]
  rcases hw : pool.workers[number]? with _ | worker
  · have hturn : pool.turn number = pool := by
      rw [Pool.turn, hw]
    rw [hturn]
    split
    · rename_i heq
      rw [left, ← beq_iff_eq.mp heq, hw]
      exact Nat.zero_le _
    · exact Nat.le_refl _
  · obtain ⟨-, -, -, hless⟩ := Worker.act_keeps h.faithful (h.honest worker (List.mem_of_getElem? hw))
    have hn := (List.getElem?_eq_some_iff.mp hw).1
    have hturn : (pool.turn number).workers = pool.workers.set number (worker.act pool.cache).1 := by
      rw [Pool.turn, hw]
    rw [left, left, hturn]
    split
    · rename_i heq
      cases beq_iff_eq.mp heq
      rw [List.getElem?_set_self hn, hw]
      exact hless
    · rename_i hne
      rw [List.getElem?_set_ne (by simpa using hne)]
      exact Nat.le_refl _

private theorem Sound.left_play (h : pool.Sound goals) (schedule : List Nat) (number : Nat) :
    (pool.play schedule).left number ≤ pool.left number - schedule.count number := by
  induction schedule generalizing pool with
  | nil => exact Nat.le_refl _
  | cons first rest ih =>
    have hfirst := h.left_turn first number
    have hrest := ih (h.turn first)
    have hcount : (first :: rest).count number = [first].count number + rest.count number := by
      rw [← List.count_append]
      rfl
    calc ((pool.turn first).play rest).left number
        ≤ (pool.turn first).left number - rest.count number := hrest
      _ ≤ pool.left number - (first :: rest).count number := by omega

/-- What the workers come to does not depend on the schedule. -/
theorem Sound.values (h : pool.Sound goals) (schedule : List Nat) :
    Worker.values? (pool.play schedule).workers = none ∨
      Worker.values? (pool.play schedule).workers = some goals := by
  rcases hv : Worker.values? (pool.play schedule).workers with _ | values
  · exact .inl rfl
  · rw [Worker.values?_eq_some hv, (h.play schedule).goals_eq]
    exact .inr rfl

/-- Workers that are not passed over for ever are done in the end. -/
private theorem Sound.values_of_count (h : pool.Sound goals) {schedule : List Nat}
    (fair : ∀ number, pool.left number ≤ schedule.count number) :
    Worker.values? (pool.play schedule).workers = some goals := by
  have hdone : ∀ worker ∈ (pool.play schedule).workers, worker.left = 0 := by
    intro worker hw
    obtain ⟨number, hn⟩ := List.mem_iff_getElem?.mp hw
    have hleft := h.left_play schedule number
    have hfair := fair number
    rw [left, hn] at hleft
    simp only [Option.map_some, Option.getD_some] at hleft
    omega
  rw [Worker.values?_of_left hdone, (h.play schedule).goals_eq]

private theorem left_le_sum (pool : Pool α) (number : Nat) :
    pool.left number ≤ (pool.workers.map Worker.left).sum := by
  rw [left]
  rcases hw : pool.workers[number]? with _ | worker
  · exact Nat.zero_le _
  · exact List.le_sum_of_mem (List.mem_map_of_mem (List.mem_of_getElem? hw))

end Pool

namespace Searcher
variable (searcher : Searcher) (here : Directory) (paths : List Text)

def pool (cache : Cache) : Pool (Except Fault (List Text)) :=
  .start cache (paths.map (searcher.searchFile here))

/-- What a search of several files comes to once every worker is done. The results are taken in the
order of the paths. -/
def searchTogether (cache : Cache) (schedule : List Nat) : Option (Except Fault (List FileOutcome)) :=
  (Worker.values? ((searcher.pool here paths cache).play schedule).workers).map fun results =>
    FileOutcome.ofResults (paths.zip results)

variable {searcher here paths}

private theorem sound_pool {cache : Cache} (faithful : cache.Faithful) :
    (searcher.pool here paths cache).Sound (paths.map (searcher.alone here)) := by
  have hsound := Pool.sound_start faithful (paths.map (searcher.searchFile here))
  rw [List.map_map] at hsound
  have hgoals : OnDemand.fresh ∘ searcher.searchFile here = searcher.alone here := by
    funext path
    exact fresh_searchFile
  rwa [hgoals] at hsound

theorem run_searchPaths {engine : Engine} (faithful : engine.cache.Faithful) :
    (engine.run (searcher.searchPaths here paths)).1 =
      FileOutcome.ofResults (paths.map fun path => (path, searcher.alone here path)) := by
  rw [← fresh_searchPaths]
  exact (OnDemand.run_of_faithful _ faithful).1

private theorem zip_alone :
    paths.zip (paths.map (searcher.alone here)) =
      paths.map fun path => (path, searcher.alone here path) := by
  rw [List.zip, List.zipWith_map_right, List.zipWith_self]

/-- However the steps of the workers fall together, with any cache that engines come by, the search is
over only with the result of searching one file after the other, and it is over once no worker is passed
over any more. Each file has the outcome it has alone, in the order of the paths, unless some file ends
in another fault than a failure to read it. Then the fault of the first such file is the result. -/
theorem schedule_never_shows (searcher : Searcher) (here : Directory) (paths : List Text)
    (engine : Engine) (faithful : engine.cache.Faithful) :
    (∀ schedule,
      ((searcher.pool here paths engine.cache).play schedule).cache.Faithful ∧
        (searcher.searchTogether here paths engine.cache schedule = none ∨
          searcher.searchTogether here paths engine.cache schedule =
            some (engine.run (searcher.searchPaths here paths)).1)) ∧
    (∃ turns, ∀ schedule : List Nat, (∀ number < paths.length, turns ≤ schedule.count number) →
      searcher.searchTogether here paths engine.cache schedule =
        some (engine.run (searcher.searchPaths here paths)).1) ∧
    (∀ outcomes, (engine.run (searcher.searchPaths here paths)).1 = .ok outcomes ↔
      List.Forall₂ (searcher.Right here) paths outcomes) ∧
    (∀ fault, (engine.run (searcher.searchPaths here paths)).1 = .error fault ↔
      ∃ before path after, paths = before ++ path :: after ∧
        (∀ earlier ∈ before, ∃ outcome, searcher.Right here earlier outcome) ∧
        searcher.alone here path = .error fault ∧ ∀ origin cause, fault ≠ .io origin cause) ∧
    (∀ path lines, searcher.alone here path = .ok lines ↔
      ∃ bytes, here.read path = .ok bytes ∧
        (∀ line ∈ decodeLines bytes, ∃ matched, searcher.answer line = .ok matched) ∧
        lines = (decodeLines bytes).filter fun line => (searcher.answer line).toOption = some true) ∧
    (∀ path origin cause, searcher.alone here path = .error (.io origin cause) ↔
      path = origin ∧ here.read path = .error cause ∧
        ∀ line ∈ (LineSource.ofContent (here.content path)).lines,
          ∃ matched, searcher.answer line = .ok matched) := by
  have hsound : (searcher.pool here paths engine.cache).Sound (paths.map (searcher.alone here)) :=
    sound_pool faithful
  rw [run_searchPaths faithful, ← zip_alone]
  refine ⟨?_, ?_, ?_, ?_, ?_, ?_⟩
  · intro schedule
    refine ⟨(hsound.play schedule).faithful, ?_⟩
    rw [searchTogether]
    rcases hsound.values schedule with hnone | hsome
    · rw [hnone]
      exact .inl rfl
    · rw [hsome]
      exact .inr rfl
  · refine ⟨((searcher.pool here paths engine.cache).workers.map Worker.left).sum, ?_⟩
    intro schedule hturns
    have fair : ∀ number,
        (searcher.pool here paths engine.cache).left number ≤ schedule.count number := by
      intro number
      by_cases hn : number < paths.length
      · exact (Pool.left_le_sum _ number).trans (hturns number hn)
      · have habsent : (searcher.pool here paths engine.cache).workers[number]? = none := by
          simpa [pool, Pool.start] using hn
        rw [Pool.left, habsent]
        exact Nat.zero_le _
    rw [searchTogether, hsound.values_of_count fair]
    rfl
  · intro outcomes
    rw [zip_alone, ofResults_eq_ok]
  · intro fault
    rw [zip_alone, ofResults_eq_error]
  · intro path lines
    exact alone_eq_ok
  · intro path origin cause
    exact alone_eq_io

/-- Two workers ask for the branch `a` of `(a)` before either has put it in. A file that does not exist
is no matter of theirs. -/
theorem branch_put_in_twice :
    let searcher : Searcher :=
      { pattern := { source := ['(', 'a', ')'], tokens := [{ kind := .group ['a'] [['a']] none }]
                     startAnchored := false }
        recursionLimit := 4 }
    let here : Directory :=
      { entries := [(['f'], .file (.ok { bytes := [97, 10, 98, 10] })),
                    (['g'], .file (.ok { bytes := [97] }))] }
    let outcomes : List FileOutcome :=
      [{ path := ['f'], result := .ok [['a']] }, { path := ['n'], result := .error .notFound },
        { path := ['g'], result := .ok [['a']] }]
    let engine : Engine := { recursionLimit := 4 }
    engine.cache.Faithful ∧
      searcher.searchTogether here [['f'], ['n'], ['g']] engine.cache [0, 2, 2, 0, 0, 0] =
        some (.ok outcomes) ∧
      List.Forall₂ (searcher.Right here) [['f'], ['n'], ['g']] outcomes := by
  intro searcher here outcomes engine
  have faithful : engine.cache.Faithful := Cache.faithful_empty
  obtain ⟨interleaved, -, gathered, -⟩ :=
    schedule_never_shows searcher here [['f'], ['n'], ['g']] engine faithful
  have finished : searcher.searchTogether here [['f'], ['n'], ['g']] engine.cache [0, 2, 2, 0, 0, 0] =
      some (.ok outcomes) := by
    rfl
  have run : (engine.run (searcher.searchPaths here [['f'], ['n'], ['g']])).1 = .ok outcomes := by
    rcases (interleaved [0, 2, 2, 0, 0, 0]).2 with unfinished | same
    · rw [finished] at unfinished
      cases unfinished
    · exact (Option.some_inj.mp (finished.symm.trans same)).symm
  exact ⟨faithful, finished, (gathered outcomes).mp run⟩

end Searcher

end LineSearch
