import LineSearch.Proofs.Match.Range
import LineSearch.Proofs.Program.Writing
import LineSearch.Proofs.Search.Gathering

/-! What a search has before it, and what it makes of it in each mode of reading: the fault that ends it,
if there is one, and what it writes and says until then. -/
namespace LineSearch.Program

/-- A search ends in the fault, if there is one, and otherwise tells whether anything has matched,
before it (`matched`) or in its output. Until then it adds the output and the messages. -/
def Search.Comes (search : Search) (before : Progress) (matched : Bool) (fault? : Option Fault)
    (output : Text) (messages : List String) : Prop :=
  ∃ after, search.fresh =
      (match fault? with
        | some fault => .error fault
        | none => .ok (matched || !output.isEmpty), after) ∧
    before.Adds after output messages

structure Scene where
  searcher : Searcher
  input : Content
  here : Directory
  options : WalkOptions
  style : RecordStyle

namespace Scene
variable (scene : Scene)

def answer (line : Text) : Except MatchError Bool := scene.searcher.answer line

def linesOf (path : Text) : LineSource := .ofContent (scene.here.content path)

def spoiler? (paths : List Text) : Option Fault :=
  paths.findSome? fun path =>
    (Search.stuck? scene.answer (scene.linesOf path).lines).map .unmatched

def walked (root : Text) : List Text :=
  (WalkEvent.files (scene.here.walk scene.options root)).map (·.path)

def notices (root : Text) : List String := WalkEvent.messages (scene.here.walk scene.options root)

def isClean (root : Text) : Bool := (scene.spoiler? (scene.walked root)).isNone

def fault? : Source → Option Fault
  | .standardInput => (LineSource.ofContent (.ok scene.input)).fault? scene.answer standardInputName
  | .file path => (scene.linesOf path).fault? scene.answer path
  | .files paths => scene.spoiler? paths
  | .trees roots => roots.findSome? fun root => scene.spoiler? (scene.walked root)

def Stuck (source : LineSource) : Prop := ∃ line ∈ source.lines, ∃ e, scene.answer line = .error e

/-- Does a run end before its time? A failure to read counts only where there is one source. -/
def Aborts : Source → Prop
  | .standardInput => scene.Stuck (.ofContent (.ok scene.input)) ∨ scene.input.failure ≠ none
  | .file path => scene.Stuck (scene.linesOf path) ∨ (scene.linesOf path).failure ≠ none
  | .files paths => ∃ path ∈ paths, scene.Stuck (scene.linesOf path)
  | .trees roots => ∃ root ∈ roots, ∃ path ∈ scene.walked root, scene.Stuck (scene.linesOf path)

def streamed (source : LineSource) : Text :=
  (Search.found scene.answer source.lines).flatMap fun line => line ++ ['\n']

def outcome (path : Text) : FileOutcome :=
  { path
    result := (scene.here.read path).map fun bytes =>
      (decodeLines bytes).filter fun line => (scene.answer line).toOption = some true }

def records (path : Text) : Text :=
  match (scene.outcome path).result with
  | .ok lines => lines.flatMap (scene.style.record path)
  | .error _ => []

def complaints (path : Text) : List String :=
  match (scene.outcome path).result with
  | .ok _ => []
  | .error cause => [(Fault.io path cause).message]

/-- What a run writes. Files that are searched together are written together or not at all. -/
def printed : Source → Text
  | .standardInput => scene.streamed (.ofContent (.ok scene.input))
  | .file path => scene.streamed (scene.linesOf path)
  | .files paths => if (scene.spoiler? paths).isSome then [] else paths.flatMap scene.records
  | .trees roots =>
    (roots.takeWhile scene.isClean).flatMap fun root => (scene.walked root).flatMap scene.records

def said : Source → List String
  | .standardInput | .file _ => []
  | .files paths => if (scene.spoiler? paths).isSome then [] else paths.flatMap scene.complaints
  | .trees roots =>
    (roots.takeWhile scene.isClean).flatMap
        (fun root => scene.notices root ++ (scene.walked root).flatMap scene.complaints) ++
      ((roots.dropWhile scene.isClean).take 1).flatMap scene.notices

variable {scene}

private theorem adds_outcome {progress : Progress} (hstyle : progress.report.style = scene.style)
    (path : Text) :
    progress.Adds (progress.addOutcome (scene.outcome path)) (scene.records path)
      (scene.complaints path) := by
  rw [Progress.addOutcome, records, complaints]
  rcases hr : (scene.outcome path).result with cause | lines
  · exact progress.adds_say _
  · rw [← hstyle, Report.writeOutcome, hr]
    exact progress.adds_writeLines path lines

private theorem adds_outcomes {progress : Progress} (hstyle : progress.report.style = scene.style)
    (paths : List Text) :
    progress.Adds (progress.addOutcomes (paths.map scene.outcome)) (paths.flatMap scene.records)
      (paths.flatMap scene.complaints) := by
  induction paths generalizing progress with
  | nil => exact .refl progress
  | cons path rest ih =>
    have first := adds_outcome hstyle path
    exact first.trans (ih (first.style_eq.trans hstyle))

/-- A file counts as matched exactly if something is written about it. -/
private theorem matched_outcome (path : Text) :
    (scene.outcome path).matched = !(scene.records path).isEmpty := by
  rw [FileOutcome.matched, records]
  rcases (scene.outcome path).result with cause | lines
  · rfl
  · cases lines with
    | nil => rfl
    | cons line rest =>
      have hrecord := scene.style.record_ne_nil path line
      simp [hrecord]

private theorem not_isEmpty_append {α : Type} (front back : List α) :
    (!front.isEmpty || !back.isEmpty) = !(front ++ back).isEmpty := by
  cases front <;> rfl

private theorem any_matched (paths : List Text) :
    (paths.map scene.outcome).any (·.matched) = !(paths.flatMap scene.records).isEmpty := by
  induction paths with
  | nil => rfl
  | cons path rest ih =>
    rw [List.map_cons, List.any_cons, ih, matched_outcome, List.flatMap_cons, not_isEmpty_append]

private theorem spoiler?_cons (path : Text) (rest : List Text) :
    scene.spoiler? (path :: rest) =
      match Search.stuck? scene.answer (scene.linesOf path).lines with
      | some e => some (.unmatched e)
      | none => scene.spoiler? rest := by
  rw [spoiler?, List.findSome?_cons]
  cases Search.stuck? scene.answer (scene.linesOf path).lines <;> rfl

/-- Files that are searched together have the outcomes that the scene gives them, or none has one. -/
theorem fresh_searchPaths (paths : List Text) :
    (scene.searcher.searchPaths scene.here paths).fresh =
      match scene.spoiler? paths with
      | some fault => .error fault
      | none => .ok (paths.map scene.outcome) := by
  rw [Searcher.fresh_searchPaths]
  induction paths with
  | nil => rfl
  | cons path rest ih =>
    have hfirst : FileOutcome.ofResult path (scene.searcher.alone scene.here path) =
        match Search.stuck? scene.answer (scene.linesOf path).lines with
        | some e => .error (.unmatched e)
        | none => .ok (scene.outcome path) := Searcher.ofResult_alone
    rw [List.map_cons, FileOutcome.ofResults, ih, hfirst, spoiler?_cons]
    cases Search.stuck? scene.answer (scene.linesOf path).lines with
    | some e => rfl
    | none => cases scene.spoiler? rest <;> rfl

private theorem isEmpty_streamed (source : LineSource) :
    (!(scene.streamed source).isEmpty) = decide (0 < (Search.found scene.answer source.lines).length) := by
  rw [streamed]
  cases Search.found scene.answer source.lines with
  | nil => rfl
  | cons line rest => simp

theorem comes_searchStream {progress : Progress} (hstyle : progress.report.style = scene.style)
    (hl : scene.style.labelled = false) (origin : Text) (source : LineSource) :
    (searchStream scene.searcher origin source progress).Comes progress false
      (source.fault? scene.answer origin) (scene.streamed source) [] := by
  have hwrite : ∀ line (report : Report),
      (fun line report => (.ok (), report.writeLine origin line) : Sink Report) line report =
        (.ok (), report.writeLine origin line) := fun _ _ => rfl
  refine ⟨{ progress with
    report := progress.report.writeLines origin (Search.found scene.answer source.lines) }, ?_, ?_⟩
  · rw [searchStream, OnDemand.fresh_bind, Searcher.fresh_forEachMatch_of_accepting _ _ _ _ hwrite,
      isEmpty_streamed]
    have hanswer : scene.answer = scene.searcher.answer := rfl
    rw [hanswer]
    cases source.fault? scene.searcher.answer origin <;> rfl
  · have hadds := progress.adds_writeLines origin (Search.found scene.answer source.lines)
    have hrecord : progress.report.style.record origin = fun line => line ++ ['\n'] := by
      funext line
      rw [hstyle, RecordStyle.record_of_unlabelled hl]
    rwa [hrecord] at hadds

theorem comes_searchFiles {progress : Progress} (hstyle : progress.report.style = scene.style)
    (paths : List Text) :
    (searchFiles scene.searcher scene.here paths progress).Comes progress false
      (scene.fault? (.files paths)) (scene.printed (.files paths)) (scene.said (.files paths)) := by
  unfold Search.Comes
  rw [searchFiles, OnDemand.fresh_bind, fresh_searchPaths, fault?, printed, said]
  cases scene.spoiler? paths with
  | some fault => exact ⟨progress, rfl, .refl progress⟩
  | none =>
    refine ⟨progress.addOutcomes (paths.map scene.outcome), ?_, adds_outcomes hstyle paths⟩
    rw [if_neg (by simp), ← any_matched]
    rfl

section Trees
variable {root : Text} {rest : List Text}

private theorem fault?_of_clean (h : scene.spoiler? (scene.walked root) = none) :
    scene.fault? (.trees (root :: rest)) = scene.fault? (.trees rest) := by
  simp [fault?, h]

private theorem fault?_of_spoiled {fault : Fault} (h : scene.spoiler? (scene.walked root) = some fault) :
    scene.fault? (.trees (root :: rest)) = some fault := by
  simp [fault?, h]

private theorem printed_of_clean (h : scene.spoiler? (scene.walked root) = none) :
    scene.printed (.trees (root :: rest)) =
      (scene.walked root).flatMap scene.records ++ scene.printed (.trees rest) := by
  simp [printed, isClean, h]

private theorem printed_of_spoiled {fault : Fault} (h : scene.spoiler? (scene.walked root) = some fault) :
    scene.printed (.trees (root :: rest)) = [] := by
  simp [printed, isClean, h]

private theorem said_of_clean (h : scene.spoiler? (scene.walked root) = none) :
    scene.said (.trees (root :: rest)) =
      scene.notices root ++ (scene.walked root).flatMap scene.complaints ++ scene.said (.trees rest) := by
  simp [said, isClean, h]

private theorem said_of_spoiled {fault : Fault} (h : scene.spoiler? (scene.walked root) = some fault) :
    scene.said (.trees (root :: rest)) = scene.notices root := by
  simp [said, isClean, h]

private theorem fresh_searchTree :
    (scene.searcher.searchTree scene.here scene.options root).fresh =
      { events := scene.here.walk scene.options root
        outcomes :=
          match scene.spoiler? (scene.walked root) with
          | some fault => .error fault
          | none => .ok ((scene.walked root).map scene.outcome) } := by
  rw [Searcher.searchTree, OnDemand.fresh_bind, OnDemand.fresh_pure, ← fresh_searchPaths]
  rfl

/-- What has matched below earlier roots is carried along as `matched`. -/
theorem comes_searchTrees {progress : Progress} (hstyle : progress.report.style = scene.style)
    (roots : List Text) (matched : Bool) :
    (searchTrees scene.searcher scene.here scene.options roots matched progress).Comes progress matched
      (scene.fault? (.trees roots)) (scene.printed (.trees roots)) (scene.said (.trees roots)) := by
  induction roots generalizing matched progress with
  | nil =>
    refine ⟨progress, ?_, .refl progress⟩
    rw [searchTrees]
    simp [fault?, printed]
  | cons root rest ih =>
    have hnotices := progress.adds_say (scene.notices root)
    unfold Search.Comes
    rw [searchTrees, OnDemand.fresh_bind, fresh_searchTree]
    rcases hs : scene.spoiler? (scene.walked root) with _ | fault
    · have hrecords := adds_outcomes (hnotices.style_eq.trans hstyle) (scene.walked root)
      have hroot := hnotices.trans hrecords
      obtain ⟨after, hfresh, hadds⟩ := ih (hroot.style_eq.trans hstyle)
        (matched || ((scene.walked root).map scene.outcome).any (·.matched))
      refine ⟨after, ?_, ?_⟩
      · rw [fault?_of_clean hs, printed_of_clean hs, ← not_isEmpty_append, ← any_matched,
          ← Bool.or_assoc]
        exact hfresh
      · rw [printed_of_clean hs, said_of_clean hs]
        exact hroot.trans hadds
    · refine ⟨progress.say (scene.notices root), ?_, ?_⟩
      · rw [fault?_of_spoiled hs]
        rfl
      · rw [printed_of_spoiled hs, said_of_spoiled hs]
        exact hnotices

end Trees

theorem comes_searchSource {progress : Progress} (hstyle : progress.report.style = scene.style)
    {invocation : Invocation} (hhere : invocation.here = scene.here)
    (hinput : invocation.input = scene.input)
    {source : Source} (hlabelled : scene.style.labelled = source.isLabelled) :
    (searchSource scene.searcher invocation scene.options progress source).Comes progress false
      (scene.fault? source) (scene.printed source) (scene.said source) := by
  rw [searchSource.eq_def, hhere, hinput]
  cases source with
  | standardInput => exact comes_searchStream hstyle hlabelled _ _
  | file path => exact comes_searchStream hstyle hlabelled _ _
  | files paths => exact comes_searchFiles hstyle paths
  | trees roots => exact comes_searchTrees hstyle roots false

private theorem stuck_iff {source : LineSource} :
    scene.Stuck source ↔ (Search.stuck? scene.answer source.lines).isSome := by
  rw [← not_iff_not, Option.not_isSome_iff_eq_none, Search.stuck?_eq_none, Stuck]
  simp only [not_exists, not_and]
  refine forall₂_congr fun line _ => ?_
  cases scene.answer line <;> simp

private theorem spoiler?_isSome {paths : List Text} :
    (scene.spoiler? paths).isSome ↔ ∃ path ∈ paths, scene.Stuck (scene.linesOf path) := by
  simp [spoiler?, List.findSome?_isSome_iff, stuck_iff]

private theorem fault?_isSome_of_source {source : LineSource} {origin : Text} :
    (source.fault? scene.answer origin).isSome ↔ scene.Stuck source ∨ source.failure ≠ none := by
  rw [stuck_iff, LineSource.fault?]
  cases Search.stuck? scene.answer source.lines with
  | some e => simp
  | none => cases source.failure <;> simp

theorem aborts_iff {source : Source} : scene.Aborts source ↔ (scene.fault? source).isSome := by
  cases source with
  | standardInput => exact fault?_isSome_of_source.symm
  | file path => exact fault?_isSome_of_source.symm
  | files paths => exact spoiler?_isSome.symm
  | trees roots => simp [Aborts, fault?, List.findSome?_isSome_iff, spoiler?_isSome]

instance (source : Source) : Decidable (scene.Aborts source) := decidable_of_iff _ aborts_iff.symm

/-- No fault that ends a run counts against the program. -/
private theorem status_of_answer {line : Text} {e : MatchError} (h : scene.answer line = .error e) :
    (Fault.unmatched e).status = .error := by
  have hfind : (Match.find line.toArray scene.searcher.recursionLimit scene.searcher.pattern).fresh =
      .error e := by
    rw [← h, answer, ← Searcher.fresh_accepts]
    rfl
  cases e with
  | compile error => rfl
  | depthExceeded limit => rfl
  | cursorOutOfRange cursor length =>
    exact absurd hfind ((Match.find_outcome _ _).ne_cursorOutOfRange cursor length)

theorem status_of_source {source : LineSource} {origin : Text} {fault : Fault}
    (h : source.fault? scene.answer origin = some fault) : fault.status = .error := by
  rw [LineSource.fault?] at h
  rcases hs : Search.stuck? scene.answer source.lines with _ | e
  · rw [hs] at h
    obtain ⟨cause, -, rfl⟩ := Option.map_eq_some_iff.mp h
    rfl
  · rw [hs] at h
    cases h
    obtain ⟨line, -, hanswer⟩ := Search.stuck?_eq_some hs
    exact status_of_answer hanswer

private theorem status_of_spoiler {paths : List Text} {fault : Fault}
    (h : scene.spoiler? paths = some fault) : fault.status = .error := by
  obtain ⟨path, -, hpath⟩ := List.exists_of_findSome?_eq_some h
  obtain ⟨e, hs, rfl⟩ := Option.map_eq_some_iff.mp hpath
  obtain ⟨line, -, hanswer⟩ := Search.stuck?_eq_some hs
  exact status_of_answer hanswer

theorem status_of_fault {source : Source} {fault : Fault} (h : scene.fault? source = some fault) :
    fault.status = .error := by
  cases source with
  | standardInput => exact status_of_source h
  | file path => exact status_of_source h
  | files paths => exact status_of_spoiler h
  | trees roots =>
    obtain ⟨root, -, hroot⟩ := List.exists_of_findSome?_eq_some h
    exact status_of_spoiler hroot

end Scene

end LineSearch.Program
