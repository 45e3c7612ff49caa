import Mathlib.Data.List.Forall2
import LineSearch.Proofs.Search.Delivery

/-! What a search of several files gathers: the outcome of each alone, in the order of the paths, unless
one of them ends the whole search. -/
namespace LineSearch

namespace LineSource
variable {answer : Text → Except MatchError Bool} {origin : Text} {source : LineSource}

theorem fault?_eq_none :
    source.fault? answer origin = none ↔
      source.failure = none ∧ ∀ line ∈ source.lines, ∃ matched, answer line = .ok matched := by
  rw [← Search.stuck?_eq_none, fault?]
  cases Search.stuck? answer source.lines <;> simp

private theorem fault?_eq_io {path : Text} {cause : SystemError} :
    source.fault? answer origin = some (.io path cause) ↔
      origin = path ∧ source.failure = some cause ∧
        ∀ line ∈ source.lines, ∃ matched, answer line = .ok matched := by
  rw [← Search.stuck?_eq_none, fault?]
  cases Search.stuck? answer source.lines with
  | some e => simp
  | none => cases source.failure <;> simp [and_comm]

private theorem fault?_cases {fault : Fault} (h : source.fault? answer origin = some fault) :
    (∃ cause, fault = .io origin cause) ∨ ∃ e, fault = .unmatched e := by
  rw [fault?] at h
  split at h
  · rename_i e _
    cases h
    exact .inr ⟨e, rfl⟩
  · obtain ⟨cause, -, rfl⟩ := Option.map_eq_some_iff.mp h
    exact .inl ⟨cause, rfl⟩

end LineSource

namespace Content
variable {content : Content}

private theorem whole_eq_ok {bytes : Bytes} :
    content.whole = .ok bytes ↔ content.failure = none ∧ content.bytes = bytes := by
  rw [whole]
  cases content.failure <;> simp

private theorem lineBytes_of_whole (h : content.failure = none) : content.lineBytes = content.bytes := by
  rw [lineBytes, h]

end Content

namespace Directory
variable {here : Directory} {path : Text}

/-- A file is read as a whole where its lines come without a failure. -/
private theorem read_eq_ok {bytes : Bytes} :
    here.read path = .ok bytes ↔
      ∃ content, here.content path = .ok content ∧ content.failure = none ∧
        content.bytes = bytes := by
  rw [read]
  rcases here.content path with cause | content
  · simp [bind, Except.bind]
  · simp [bind, Except.bind, Content.whole_eq_ok]

private theorem read_eq_error {cause : SystemError} :
    here.read path = .error cause ↔ (LineSource.ofContent (here.content path)).failure = some cause := by
  rw [read]
  rcases here.content path with cause | content
  · simp [bind, Except.bind, LineSource.ofContent]
  · simp only [bind, Except.bind, LineSource.ofContent, Content.whole]
    cases content.failure <;> simp

end Directory

namespace FileOutcome
variable {path : Text} {result : Except Fault (List Text)} {rest : List (Text × Except Fault (List Text))}

private theorem ofResults_cons_eq_ok {outcomes : List FileOutcome} :
    ofResults ((path, result) :: rest) = .ok outcomes ↔
      ∃ first others, ofResult path result = .ok first ∧ ofResults rest = .ok others ∧
        outcomes = first :: others := by
  rw [ofResults]
  cases ofResult path result <;> cases ofResults rest <;>
    simp [bind, Except.bind, pure, Except.pure, eq_comm]

private theorem ofResults_cons_eq_error {fault : Fault} :
    ofResults ((path, result) :: rest) = .error fault ↔
      ofResult path result = .error fault ∨
        (∃ first, ofResult path result = .ok first) ∧ ofResults rest = .error fault := by
  rw [ofResults]
  cases ofResult path result <;> cases ofResults rest <;> simp [bind, Except.bind, pure, Except.pure]

end FileOutcome

namespace Searcher
variable (searcher : Searcher) (here : Directory)

def alone (path : Text) : Except Fault (List Text) :=
  (Engine.run { recursionLimit := searcher.recursionLimit } (searcher.searchFile here path)).1

inductive Right (path : Text) : FileOutcome → Prop where
  | searched {lines : List Text} (h : searcher.alone here path = .ok lines) :
      Right path { path, result := .ok lines }
  | unreadable {cause : SystemError} (h : searcher.alone here path = .error (.io path cause)) :
      Right path { path, result := .error cause }

variable {searcher here} {path : Text} {paths : List Text}

theorem fresh_searchFile :
    (searcher.searchFile here path).fresh = searcher.alone here path :=
  ((OnDemand.run_of_faithful _ Cache.faithful_empty).1).symm

private theorem alone_eq :
    searcher.alone here path =
      match (LineSource.ofContent (here.content path)).fault? searcher.answer path with
      | some fault => .error fault
      | none => .ok (Search.found searcher.answer (LineSource.ofContent (here.content path)).lines) := by
  rw [← fresh_searchFile]
  exact searcher.fresh_matchingLines path (.ofContent (here.content path))

/-- A file alone comes to its matching lines, in order, if it can be read and each line has an answer. -/
theorem alone_eq_ok {lines : List Text} :
    searcher.alone here path = .ok lines ↔
      ∃ bytes, here.read path = .ok bytes ∧
        (∀ line ∈ decodeLines bytes, ∃ matched, searcher.answer line = .ok matched) ∧
        lines = (decodeLines bytes).filter fun line => (searcher.answer line).toOption = some true := by
  rw [alone_eq]
  constructor
  · intro h
    split at h
    · cases h
    · rename_i hfault
      obtain ⟨hfailure, hanswers⟩ := LineSource.fault?_eq_none.mp hfault
      rw [Search.found_of_answers (Search.stuck?_eq_none.mpr hanswers)] at h
      rcases hc : here.content path with cause | content
      · rw [hc] at hfailure
        cases hfailure
      · rw [hc] at hfailure hanswers h
        have hlines := Content.lineBytes_of_whole hfailure
        simp only [LineSource.ofContent, hlines] at hanswers h
        cases h
        exact ⟨content.bytes, Directory.read_eq_ok.mpr ⟨content, hc, hfailure, rfl⟩, hanswers, rfl⟩
  · rintro ⟨bytes, hread, hanswers, rfl⟩
    obtain ⟨content, hc, hfailure, rfl⟩ := Directory.read_eq_ok.mp hread
    have hlines := Content.lineBytes_of_whole hfailure
    have hsource : LineSource.ofContent (here.content path) = { lines := decodeLines content.bytes } := by
      rw [hc, LineSource.ofContent, hlines, hfailure]
    rw [hsource, LineSource.fault?_eq_none.mpr ⟨rfl, hanswers⟩,
      Search.found_of_answers (Search.stuck?_eq_none.mpr hanswers)]

/-- A failure to read shows where every line before it has an answer. -/
theorem alone_eq_io {origin : Text} {cause : SystemError} :
    searcher.alone here path = .error (.io origin cause) ↔
      path = origin ∧ here.read path = .error cause ∧
        ∀ line ∈ (LineSource.ofContent (here.content path)).lines,
          ∃ matched, searcher.answer line = .ok matched := by
  rw [alone_eq, Directory.read_eq_error, ← LineSource.fault?_eq_io]
  cases (LineSource.ofContent (here.content path)).fault? searcher.answer path <;> simp

private theorem alone_cases {fault : Fault} (h : searcher.alone here path = .error fault) :
    (∃ cause, fault = .io path cause) ∨ ∃ e, fault = .unmatched e := by
  rw [alone_eq] at h
  split at h
  · rename_i hfault
    cases h
    exact LineSource.fault?_cases hfault
  · cases h

private theorem right_iff {outcome : FileOutcome} :
    searcher.Right here path outcome ↔
      FileOutcome.ofResult path (searcher.alone here path) = .ok outcome := by
  constructor
  · rintro (⟨h⟩ | ⟨h⟩)
    · rw [h]
      rfl
    · rw [h]
      rfl
  · intro h
    rcases ha : searcher.alone here path with fault | lines
    · rw [ha] at h
      obtain ⟨cause, rfl⟩ | ⟨e, rfl⟩ := alone_cases ha
      · cases h
        exact .unreadable ha
      · cases h
    · rw [ha] at h
      cases h
      exact .searched ha

private theorem ofResult_alone_eq_error {fault : Fault} :
    FileOutcome.ofResult path (searcher.alone here path) = .error fault ↔
      searcher.alone here path = .error fault ∧ ∀ origin cause, fault ≠ .io origin cause := by
  rcases ha : searcher.alone here path with other | lines
  · obtain ⟨cause, rfl⟩ | ⟨e, rfl⟩ := alone_cases ha
    · simp only [FileOutcome.ofResult, reduceCtorEq, Except.error.injEq, false_iff]
      rintro ⟨rfl, hio⟩
      exact hio path cause rfl
    · simp only [FileOutcome.ofResult, Except.error.injEq, iff_self_and]
      rintro rfl origin cause ⟨⟩
  · simp [FileOutcome.ofResult]

/-- A file among others: a line without an answer ends the whole search, a failure to read does not. -/
theorem ofResult_alone :
    FileOutcome.ofResult path (searcher.alone here path) =
      match Search.stuck? searcher.answer (LineSource.ofContent (here.content path)).lines with
      | some e => .error (.unmatched e)
      | none => .ok
          { path
            result := (here.read path).map fun bytes =>
              (decodeLines bytes).filter fun line => (searcher.answer line).toOption = some true } := by
  rcases hs : Search.stuck? searcher.answer (LineSource.ofContent (here.content path)).lines with _ | e
  · have hanswers := Search.stuck?_eq_none.mp hs
    rcases hr : here.read path with cause | bytes
    · rw [alone_eq_io.mpr ⟨rfl, hr, hanswers⟩]
      rfl
    · obtain ⟨content, hc, hfailure, rfl⟩ := Directory.read_eq_ok.mp hr
      rw [hc, LineSource.ofContent, Content.lineBytes_of_whole hfailure] at hanswers
      rw [alone_eq_ok.mpr ⟨content.bytes, hr, hanswers, rfl⟩]
      rfl
  · rw [alone_eq, LineSource.fault?, hs]
    rfl

private theorem fresh_searchEach (paths : List Text) :
    (searcher.searchEach here paths).fresh = paths.map fun path => (path, searcher.alone here path) := by
  induction paths with
  | nil => rfl
  | cons path rest ih =>
    simp only [searchEach, OnDemand.fresh_bind, OnDemand.fresh_pure, fresh_searchFile, ih, List.map_cons]

theorem fresh_searchPaths (paths : List Text) :
    (searcher.searchPaths here paths).fresh =
      FileOutcome.ofResults (paths.map fun path => (path, searcher.alone here path)) := by
  rw [searchPaths, OnDemand.fresh_bind, fresh_searchEach]
  rfl

theorem ofResults_eq_ok {outcomes : List FileOutcome} :
    FileOutcome.ofResults (paths.map fun path => (path, searcher.alone here path)) = .ok outcomes ↔
      List.Forall₂ (searcher.Right here) paths outcomes := by
  induction paths generalizing outcomes with
  | nil => simp [FileOutcome.ofResults, eq_comm]
  | cons path rest ih =>
    simp only [List.map_cons, FileOutcome.ofResults_cons_eq_ok, List.forall₂_cons_left_iff, ih,
      right_iff]

theorem ofResults_eq_error {fault : Fault} :
    FileOutcome.ofResults (paths.map fun path => (path, searcher.alone here path)) = .error fault ↔
      ∃ before path after, paths = before ++ path :: after ∧
        (∀ earlier ∈ before, ∃ outcome, searcher.Right here earlier outcome) ∧
        searcher.alone here path = .error fault ∧ ∀ origin cause, fault ≠ .io origin cause := by
  induction paths with
  | nil => simp [FileOutcome.ofResults]
  | cons path rest ih =>
    rw [List.map_cons, FileOutcome.ofResults_cons_eq_error, ih, ofResult_alone_eq_error]
    constructor
    · rintro (hfault | ⟨⟨first, hfirst⟩, before, path', after, rfl, hbefore, hfault⟩)
      · exact ⟨[], path, rest, rfl, by simp, hfault⟩
      · refine ⟨path :: before, path', after, rfl, ?_, hfault⟩
        intro earlier he
        rcases List.mem_cons.mp he with rfl | he
        · exact ⟨first, right_iff.mpr hfirst⟩
        · exact hbefore earlier he
    · rintro ⟨_ | ⟨first, before⟩, path', after, hpaths, hbefore, hfault⟩
      · cases hpaths
        exact .inl hfault
      · cases hpaths
        obtain ⟨outcome, hright⟩ := hbefore path List.mem_cons_self
        refine .inr ⟨⟨outcome, right_iff.mp hright⟩, before, path', after, rfl, ?_, hfault⟩
        exact fun earlier he => hbefore earlier (List.mem_cons_of_mem path he)

end Searcher

end LineSearch
