import LineSearch.Proofs.Search.Gathering
import LineSearch.Proofs.Text.Lines

/-! One stream of lines and the sink of its matches. Main statement: matches are handed over in order up to
the first line that cannot be read, has no answer or is refused, and a stream may be cut between lines. -/
namespace LineSearch

theorem OnDemand.fresh_map {α β : Type} (f : α → β) (computation : OnDemand α) :
    (f <$> computation).fresh = f computation.fresh := by
  rw [map_eq_pure_bind, fresh_bind, fresh_pure]

namespace Engine
variable {α β : Type} (engine : Engine) (computation : OnDemand α)

theorem run_bind (next : α → OnDemand β) :
    engine.run (computation >>= next) = (engine.run computation).2.run (next (engine.run computation).1) := by
  simp only [run, OnDemand.run_bind]

theorem run_map (f : α → β) :
    engine.run (f <$> computation) = (f (engine.run computation).1, (engine.run computation).2) := by
  rw [map_eq_pure_bind, run_bind]
  rfl

theorem run_of_faithful {engine : Engine} (faithful : engine.cache.Faithful) (computation : OnDemand α) :
    (engine.run computation).1 = computation.fresh :=
  (OnDemand.run_of_faithful computation faithful).1

end Engine

/-- Notes each line that is handed to the sink, also one that the sink refuses then. -/
def Sink.recorded {σ : Type} (sink : Sink σ) : Sink (List Text × σ) := fun line (handed, state) =>
  ((sink line state).1, handed ++ [line], (sink line state).2)

namespace Search
variable {σ : Type}

def matching (answer : Text → Except MatchError Bool) (lines : List Text) : List Text :=
  lines.filter fun line => (answer line).toOption = some true

inductive Passes (answer : Text → Except MatchError Bool) (sink : Sink σ) : List Text → σ → σ → Prop where
  | nil (state : σ) : Passes answer sink [] state state
  | mismatch {line : Text} {rest : List Text} {state final : σ} (mismatched : answer line = .ok false)
    (after : Passes answer sink rest state final) : Passes answer sink (line :: rest) state final
  | taken {line : Text} {rest : List Text} {state next final : σ} (matched : answer line = .ok true)
    (takes : sink line state = (.ok (), next)) (after : Passes answer sink rest next final) :
    Passes answer sink (line :: rest) state final

/-- How the search of a source ends: with what result, after which lines were handed to the sink, and with
which state of it. Nothing is read behind the line that it ends at. -/
inductive Ends (answer : Text → Except MatchError Bool) (origin : Text) (source : LineSource) (sink : Sink σ)
    (state : σ) : Except Fault Nat → List Text → σ → Prop where
  | unmatched {before after : List Text} {line : Text} {final : σ} {e : MatchError}
    (split : source.lines = before ++ line :: after) (passes : Passes answer sink before state final)
    (failed : answer line = .error e) :
    Ends answer origin source sink state (.error (.unmatched e)) (matching answer before) final
  | refused {before after : List Text} {line : Text} {next final : σ} {fault : Fault}
    (split : source.lines = before ++ line :: after) (passes : Passes answer sink before state next)
    (matched : answer line = .ok true) (refuses : sink line next = (.error fault, final)) :
    Ends answer origin source sink state (.error fault) (matching answer before ++ [line]) final
  | unread {final : σ} {cause : SystemError} (passes : Passes answer sink source.lines state final)
    (failed : source.failure = some cause) :
    Ends answer origin source sink state (.error (.io origin cause)) (matching answer source.lines) final
  | finished {final : σ} (passes : Passes answer sink source.lines state final)
    (complete : source.failure = none) :
    Ends answer origin source sink state (.ok (matching answer source.lines).length)
      (matching answer source.lines) final

section Matching
variable {answer : Text → Except MatchError Bool} {line : Text} (rest : List Text)

private theorem matching_of_match (h : answer line = .ok true) :
    matching answer (line :: rest) = line :: matching answer rest := by
  simp [matching, h, Except.toOption]

private theorem matching_of_mismatch (h : answer line = .ok false) :
    matching answer (line :: rest) = matching answer rest := by
  simp [matching, h, Except.toOption]

variable {rest} {sink : Sink σ}

/-- The lines in front of the first at which the search ends, if there is one. -/
private theorem exists_passes (answer : Text → Except MatchError Bool) (sink : Sink σ) (lines : List Text)
    (state : σ) :
    ∃ before rest final, lines = before ++ rest ∧ Passes answer sink before state final ∧
      (rest = [] ∨ ∃ line after, rest = line :: after ∧
        ((∃ e, answer line = .error e) ∨
          answer line = .ok true ∧ ∃ fault refusal, sink line final = (.error fault, refusal))) := by
  induction lines generalizing state with
  | nil => exact ⟨[], [], state, rfl, .nil state, .inl rfl⟩
  | cons line lines ih =>
    rcases ha : answer line with e | matched
    · exact ⟨[], line :: lines, state, rfl, .nil state, .inr ⟨line, lines, rfl, .inl ⟨e, ha⟩⟩⟩
    cases matched with
    | false =>
      obtain ⟨before, rest, final, rfl, passes, hends⟩ := ih state
      exact ⟨line :: before, rest, final, rfl, .mismatch ha passes, hends⟩
    | true =>
      rcases hs : sink line state with ⟨fault | ⟨⟩, next⟩
      · refine ⟨[], line :: lines, state, rfl, .nil state, .inr ⟨line, lines, rfl, .inr ⟨ha, ?_⟩⟩⟩
        exact ⟨fault, next, hs⟩
      · obtain ⟨before, rest, final, rfl, passes, hends⟩ := ih next
        exact ⟨line :: before, rest, final, rfl, .taken ha hs passes, hends⟩

private theorem exists_ends (answer : Text → Except MatchError Bool) (origin : Text) (source : LineSource)
    (sink : Sink σ) (state : σ) :
    ∃ result handed final, Ends answer origin source sink state result handed final := by
  obtain ⟨before, rest, final, split, passes, rfl | ⟨line, after, rfl, ⟨e, ha⟩ | ⟨ha, fault, refusal, hs⟩⟩⟩ :=
    exists_passes answer sink source.lines state
  · rw [List.append_nil] at split
    subst split
    rcases hf : source.failure with _ | cause
    · exact ⟨_, _, final, .finished passes hf⟩
    · exact ⟨_, _, final, .unread passes hf⟩
  · exact ⟨_, _, final, .unmatched split passes ha⟩
  · exact ⟨_, _, refusal, .refused split passes ha hs⟩

end Matching

section Deliver
variable {τ : Type} (accepts : Text → Matching Bool) {sink : Sink σ} {sink' : Sink τ}

/-- One line of a delivery. -/
private theorem fresh_deliver_cons (count : Nat) (line : Text) (rest : List Text) (state : σ) :
    (deliver accepts sink count (line :: rest) state).fresh =
      match (accepts line).fresh with
      | .error e => (.error (.unmatched e), state)
      | .ok false => (deliver accepts sink count rest state).fresh
      | .ok true =>
        match sink line state with
        | (.ok (), state) => (deliver accepts sink (count + 1) rest state).fresh
        | (.error fault, state) => (.error fault, state) := by
  rw [deliver, OnDemand.fresh_bind, Matching.fresh]
  rcases (accepts line).run.fresh with e | _ | _
  · rfl
  · rfl
  · rcases sink line state with ⟨fault | ⟨⟩, next⟩ <;> rfl

/-- Lines that pass are handed over, and the search goes on behind them. -/
theorem Passes.fresh_deliver {before : List Text} {state final : σ}
    (h : Passes (fun line => (accepts line).fresh) sink before state final) (count : Nat)
    (rest handed : List Text) :
    (deliver accepts sink.recorded count (before ++ rest) (handed, state)).fresh =
      (deliver accepts sink.recorded
        (count + (matching (fun line => (accepts line).fresh) before).length) rest
        (handed ++ matching (fun line => (accepts line).fresh) before, final)).fresh := by
  induction h generalizing count handed with
  | nil state => rw [List.nil_append, matching, List.filter_nil, List.append_nil]; rfl
  | mismatch mismatched after ih =>
    rw [List.cons_append, fresh_deliver_cons, mismatched, matching_of_mismatch _ mismatched]
    exact ih count handed
  | @taken line before state next final matched takes after ih =>
    have hsink : sink.recorded line (handed, state) = (.ok (), handed ++ [line], next) := by
      rw [Sink.recorded, takes]
    rw [List.cons_append, fresh_deliver_cons, matched, matching_of_match _ matched, List.length_cons,
      ← Nat.add_assoc, Nat.add_right_comm, List.append_cons]
    simp only [hsink]
    exact ih (count + 1) (handed ++ [line])

/-- A delivery shows nothing of the state but what the sink does with it, and nothing of the count. -/
private theorem deliver_map {f : σ → τ}
    (h : ∀ line state, sink' line (f state) = ((sink line state).1, f (sink line state).2))
    (first count : Nat) (lines : List Text) (state : σ) :
    deliver accepts sink' (first + count) lines (f state) =
      (fun outcome => (outcome.1.map (first + ·), f outcome.2)) <$>
        deliver accepts sink count lines state := by
  induction lines generalizing count state with
  | nil => rfl
  | cons line rest ih =>
    rw [deliver, deliver, map_bind]
    refine congrArg _ (funext fun matched => ?_)
    rcases matched with e | _ | _
    · rfl
    · exact ih count state
    · rw [h]
      rcases sink line state with ⟨fault | ⟨⟩, next⟩
      · rfl
      · exact ih (count + 1) next

theorem deliver_append (sink : Sink σ) (count : Nat) (front rest : List Text) (state : σ) :
    deliver accepts sink count (front ++ rest) state = do
      match ← deliver accepts sink count front state with
      | (.ok count, state) => deliver accepts sink count rest state
      | (.error fault, state) => return (.error fault, state) := by
  induction front generalizing count state with
  | nil => rfl
  | cons line front ih =>
    rw [List.cons_append, deliver, deliver, bind_assoc]
    refine congrArg _ (funext fun matched => ?_)
    rcases matched with e | _ | _
    · rfl
    · exact ih count state
    · rcases sink line state with ⟨fault | ⟨⟩, next⟩
      · rfl
      · exact ih (count + 1) next

end Deliver

end Search

def LineSource.close (origin : Text) (source : LineSource) : Except Fault Nat → Except Fault Nat
  | .error fault => .error fault
  | .ok count =>
    match source.failure with
    | none => .ok count
    | some cause => .error (.io origin cause)

namespace Searcher
variable {σ τ : Type} (searcher : Searcher) (origin : Text)

private theorem forEachMatch_eq (source : LineSource) (sink : Sink σ) (state : σ) :
    searcher.forEachMatch origin source sink state =
      (fun outcome => (source.close origin outcome.1, outcome.2)) <$>
        Search.deliver searcher.accepts sink 0 source.lines state := by
  rw [forEachMatch, map_eq_pure_bind]
  refine congrArg _ (funext fun outcome => ?_)
  rcases outcome with ⟨fault | count, state⟩
  · rfl
  · simp only [LineSource.close]
    cases source.failure <;> rfl

private theorem matchingLines_eq (source : LineSource) :
    searcher.matchingLines origin source =
      (fun outcome => outcome.1.map fun _ => outcome.2.reverse) <$>
        searcher.forEachMatch origin source Sink.collect [] := by
  rw [matchingLines, map_eq_pure_bind]
  refine congrArg _ (funext fun outcome => ?_)
  rcases outcome with ⟨fault | count, kept⟩ <;> rfl

private theorem forEachMatch_map {sink : Sink σ} {sink' : Sink τ} {f : σ → τ}
    (h : ∀ line state, sink' line (f state) = ((sink line state).1, f (sink line state).2))
    (source : LineSource) (state : σ) :
    searcher.forEachMatch origin source sink' (f state) =
      (fun outcome => (outcome.1, f outcome.2)) <$> searcher.forEachMatch origin source sink state := by
  have hmap := Search.deliver_map searcher.accepts h 0 0 source.lines state
  rw [forEachMatch_eq, forEachMatch_eq, Functor.map_map, hmap, Functor.map_map]
  refine congrArg (· <$> _) (funext fun outcome => ?_)
  rcases outcome with ⟨fault | count, state⟩
  · rfl
  · simp [Except.map]

/-- Behind lines that all pass, the search of a source goes on with the rest of it. -/
theorem forEachMatch_append (front rest : List Text) (failure : Option SystemError) (sink : Sink σ)
    (state : σ) :
    searcher.forEachMatch origin { lines := front ++ rest, failure } sink state = do
      match ← searcher.forEachMatch origin { lines := front } sink state with
      | (.ok first, state) =>
        (fun outcome => (outcome.1.map (first + ·), outcome.2)) <$>
          searcher.forEachMatch origin { lines := rest, failure } sink state
      | (.error fault, state) => return (.error fault, state) := by
  simp only [forEachMatch_eq, Search.deliver_append, map_bind, bind_map_left]
  refine congrArg _ (funext fun outcome => ?_)
  rcases outcome with ⟨fault | first, state⟩
  · rfl
  · -- The second delivery counts on from the first, and the count can be taken out of it.
    have hsame (line : Text) (state : σ) :
        sink line (id state) = ((sink line state).1, id (sink line state).2) := rfl
    have hmap := Search.deliver_map searcher.accepts hsame first 0 rest state
    simp only [LineSource.close, id] at hmap ⊢
    rw [Nat.add_zero] at hmap
    rw [hmap, Functor.map_map, Functor.map_map]
    refine congrArg (· <$> _) (funext fun outcome => ?_)
    rcases outcome with ⟨fault | second, state⟩
    · rfl
    · cases failure <;> rfl

/-- The matching lines of a source that is cut between two lines. -/
theorem matchingLines_append (front rest : List Text) (failure : Option SystemError) :
    searcher.matchingLines origin { lines := front ++ rest, failure } = do
      match ← searcher.matchingLines origin { lines := front } with
      | .ok first =>
        (fun outcome => outcome.map (first ++ ·)) <$> searcher.matchingLines origin { lines := rest, failure }
      | .error fault => return .error fault := by
  simp only [matchingLines_eq, forEachMatch_append, map_bind, bind_map_left]
  refine congrArg _ (funext fun outcome => ?_)
  rcases outcome with ⟨fault | first, kept⟩
  · rfl
  · have hkept (line : Text) (more : List Text) :
        Sink.collect line (more ++ kept) =
          ((Sink.collect line more).1, (Sink.collect line more).2 ++ kept) := rfl
    have hmap := searcher.forEachMatch_map origin hkept { lines := rest, failure } []
    rw [List.nil_append] at hmap
    simp only [Except.map, hmap, Functor.map_map]
    refine congrArg (· <$> _) (funext fun outcome => ?_)
    rcases outcome with ⟨fault | second, more⟩
    · rfl
    · simp

variable {searcher origin} {source : LineSource} {sink : Sink σ} {state final : σ}
  {result : Except Fault Nat} {handed : List Text}

private theorem fresh_of_ends (h : Search.Ends searcher.answer origin source sink state result handed final) :
    (searcher.forEachMatch origin source sink.recorded ([], state)).fresh = (result, handed, final) := by
  rw [← fresh_accepts] at h
  rw [forEachMatch_eq, OnDemand.fresh_map]
  cases h with
  | unmatched split passes failed =>
    rw [split, passes.fresh_deliver, Search.fresh_deliver_cons, failed]
    rfl
  | refused split passes matched refuses =>
    rw [split, passes.fresh_deliver, Search.fresh_deliver_cons, matched]
    simp only [Sink.recorded, refuses]
    rfl
  | unread passes failed =>
    have hpasses := passes.fresh_deliver searcher.accepts 0 [] []
    rw [List.append_nil] at hpasses
    simp only [hpasses, Search.deliver, OnDemand.fresh_pure, LineSource.close, failed, List.nil_append]
  | finished passes complete =>
    have hpasses := passes.fresh_deliver searcher.accepts 0 [] []
    rw [List.append_nil] at hpasses
    simp only [hpasses, Search.deliver, OnDemand.fresh_pure, LineSource.close, complete, List.nil_append,
      Nat.zero_add]

/-- The ending that a search comes to is the one there is. -/
theorem ends_iff :
    Search.Ends searcher.answer origin source sink state result handed final ↔
      (searcher.forEachMatch origin source sink.recorded ([], state)).fresh = (result, handed, final) := by
  refine ⟨fresh_of_ends, fun h => ?_⟩
  obtain ⟨result', handed', final', hends⟩ := Search.exists_ends searcher.answer origin source sink state
  cases (fresh_of_ends hends).symm.trans h
  exact hends

/-- All matching lines of a source come of a search that does not fail. -/
theorem fresh_matchingLines_eq_ok {lines : List Text} :
    (searcher.matchingLines origin source).fresh = .ok lines ↔
      source.failure = none ∧ (∀ line ∈ source.lines, ∃ matched, searcher.answer line = .ok matched) ∧
        lines = Search.matching searcher.answer source.lines := by
  have hnone : source.fault? searcher.answer origin = none ↔ _ := LineSource.fault?_eq_none
  rw [fresh_matchingLines, ← and_assoc, ← hnone]
  rcases hf : source.fault? searcher.answer origin with _ | fault
  · have hanswers := Search.stuck?_eq_none.mpr (LineSource.fault?_eq_none.mp hf).2
    simp [Search.found_of_answers hanswers, Search.matching, eq_comm]
  · simp

/-- A sink that refuses nothing leaves the search with the fault that collecting ends in. -/
private theorem fresh_forEachMatch_of_taking {taking : Sink τ}
    (h : ∀ line seen, (taking line seen).1 = .ok ()) (seen : τ) :
    (searcher.forEachMatch origin source taking seen).fresh.1 =
      (searcher.matchingLines origin source).fresh.map List.length := by
  have hstep (line : Text) (seen : τ) : taking line seen = (.ok (), (taking line seen).2) :=
    Prod.ext (h line seen) rfl
  rw [fresh_forEachMatch_of_accepting searcher origin source (fun seen line => (taking line seen).2) hstep,
    fresh_matchingLines]
  cases source.fault? searcher.answer origin <;> rfl

end Searcher

private theorem decodeLines_append_of_getLast? {front : Bytes} (h : front.getLast? = some 10) (rest : Bytes) :
    decodeLines (front ++ rest) = decodeLines front ++ decodeLines rest := by
  obtain ⟨front, rfl⟩ := List.getLast?_eq_some_iff.mp h
  rw [List.append_assoc, List.singleton_append, decodeLines_append]

namespace Searcher
variable {σ : Type}

/-- The sink is handed each matching line once, in order, until a line cannot be read, has no answer or is
refused. Collecting the lines fails alike and else gives them all. Of an input that is cut behind a line
feed, the two parts are searched one after the other. -/
theorem matches_are_streamed (searcher : Searcher) (origin : Text) (source : LineSource) (sink : Sink σ)
    (state : σ) (engine : Engine) (faithful : engine.cache.Faithful) :
    (∀ result handed final,
      (engine.run (searcher.forEachMatch origin source sink.recorded ([], state))).1 =
          (result, handed, final) ↔
        Search.Ends searcher.answer origin source sink state result handed final) ∧
    (∀ result handed final left,
      engine.run (searcher.forEachMatch origin source sink.recorded ([], state)) =
          ((result, handed, final), left) →
        engine.run (searcher.forEachMatch origin source sink state) = ((result, final), left)) ∧
    (∀ lines, (engine.run (searcher.matchingLines origin source)).1 = .ok lines ↔
      source.failure = none ∧ (∀ line ∈ source.lines, ∃ matched, searcher.answer line = .ok matched) ∧
        lines = Search.matching searcher.answer source.lines) ∧
    (∀ (τ : Type) (taking : Sink τ) (seen : τ), (∀ line seen, (taking line seen).1 = .ok ()) →
      (engine.run (searcher.forEachMatch origin source taking seen)).1.1 =
        (engine.run (searcher.matchingLines origin source)).1.map List.length) ∧
    (∀ front rest : Bytes, front.getLast? = some 10 →
      (engine.run (searcher.forEachMatch origin (.ofBytes (front ++ rest)) sink state) =
        match engine.run (searcher.forEachMatch origin (.ofBytes front) sink state) with
        | ((.ok first, state), left) =>
          match left.run (searcher.forEachMatch origin (.ofBytes rest) sink state) with
          | ((.ok second, state), left) => ((.ok (first + second), state), left)
          | failed => failed
        | failed => failed) ∧
      engine.run (searcher.matchingLines origin (.ofBytes (front ++ rest))) =
        match engine.run (searcher.matchingLines origin (.ofBytes front)) with
        | (.ok first, left) =>
          match left.run (searcher.matchingLines origin (.ofBytes rest)) with
          | (.ok second, left) => (.ok (first ++ second), left)
          | failed => failed
        | failed => failed) := by
  refine ⟨fun result handed final => ?_, fun result handed final left hrecorded => ?_, fun lines => ?_,
    fun τ taking seen htaking => ?_, fun front rest hfront => ⟨?_, ?_⟩⟩
  · rw [ends_iff, Engine.run_of_faithful faithful]
  · have hsame (line : Text) (state : List Text × σ) :
        sink line state.2 = ((sink.recorded line state).1, (sink.recorded line state).2.2) := rfl
    rw [searcher.forEachMatch_map origin hsame source ([], state), Engine.run_map, hrecorded]
  · rw [Engine.run_of_faithful faithful, fresh_matchingLines_eq_ok]
  · rw [Engine.run_of_faithful faithful, Engine.run_of_faithful faithful]
    exact fresh_forEachMatch_of_taking htaking seen
  · have happend := searcher.forEachMatch_append origin (decodeLines front) (decodeLines rest) none sink state
    simp only [LineSource.ofBytes, decodeLines_append_of_getLast? hfront, happend, Engine.run_bind]
    rcases engine.run (searcher.forEachMatch origin { lines := decodeLines front } sink state) with
      ⟨⟨fault | first, state⟩, left⟩
    · rfl
    · simp only [Engine.run_map]
      rcases left.run (searcher.forEachMatch origin { lines := decodeLines rest } sink state) with
        ⟨⟨fault | second, state⟩, left⟩ <;> rfl
  · have happend := searcher.matchingLines_append origin (decodeLines front) (decodeLines rest) none
    simp only [LineSource.ofBytes, decodeLines_append_of_getLast? hfront, happend, Engine.run_bind]
    rcases engine.run (searcher.matchingLines origin { lines := decodeLines front }) with
      ⟨fault | first, left⟩
    · rfl
    · simp only [Engine.run_map]
      rcases left.run (searcher.matchingLines origin { lines := decodeLines rest }) with
        ⟨fault | second, left⟩ <;> rfl

/-- A sink that takes one line sees a second one, which it refuses, and does not see the third. Collecting
goes on to where the source cannot be read. -/
theorem closed_sink_ends_stream :
    let searcher : Searcher :=
      { pattern := { source := ['(', 'a', ')'], tokens := [{ kind := .group ['a'] [['a']] none }]
                     startAnchored := false }
        recursionLimit := 4 }
    let source : LineSource :=
      { lines := [['a'], ['b'], ['b', 'a'], ['a']], failure := some .notFound }
    let sink : Sink Nat := fun _ taken =>
      (if taken = 1 then .error (.internal "sink closed") else .ok (), taken + 1)
    let engine : Engine := { recursionLimit := 4 }
    engine.cache.Faithful ∧
      Search.Ends searcher.answer [] source sink 0 (.error (.internal "sink closed")) [['a'], ['b', 'a']] 2 ∧
      (engine.run (searcher.matchingLines [] source)).1 = .error (.io [] .notFound) ∧
      engine.run (searcher.matchingLines [] (.ofBytes ([98, 97, 10] ++ [97]))) =
        match engine.run (searcher.matchingLines [] (.ofBytes [98, 97, 10])) with
        | (.ok first, left) =>
          match left.run (searcher.matchingLines [] (.ofBytes [97])) with
          | (.ok second, left) => (.ok (first ++ second), left)
          | failed => failed
        | failed => failed := by
  intro searcher source sink engine
  have faithful : engine.cache.Faithful := Cache.faithful_empty
  obtain ⟨ends, -, -, -, cut⟩ := matches_are_streamed searcher [] source sink 0 engine faithful
  have refused : (engine.run (searcher.forEachMatch [] source sink.recorded ([], 0))).1 =
      (.error (.internal "sink closed"), [['a'], ['b', 'a']], 2) := by
    decide +kernel
  have unread : (engine.run (searcher.matchingLines [] source)).1 = .error (.io [] .notFound) := by
    decide +kernel
  exact ⟨faithful, (ends _ _ _).mp refused, unread, (cut [98, 97, 10] [97] rfl).2⟩

end Searcher

end LineSearch
