import Mathlib.Data.List.Nodup
import LineSearch.Proofs.FileSystem.Spelling
import LineSearch.Proofs.Search.Streaming
import LineSearch.Proofs.Walk.Places

/-! What a walk finds in a tree without links, where no ignore file is obeyed: exactly the files, in the order
of the names that lead to them. -/
namespace LineSearch

namespace Entries

inductive FileAt : Entries → List Text → Prop where
  | file {entries : Entries} {name : Text} {content : Except SystemError Content}
      (entry : (name, .file content) ∈ entries) : FileAt entries [name]
  | inside {entries inner : Entries} {name : Text} {names : List Text}
      (entry : (name, .directory inner) ∈ entries) (rest : FileAt inner names) :
      FileAt entries (name :: names)

/-- A tree of directories and regular files that can be read from this path on. Each directory holds
distinct names and no links, and its path is not too long for it to be opened. -/
inductive Readable : Text → Entries → Prop where
  | intro {path : Text} {entries : Entries} (short : Path.size path ≤ Path.maxPathBytes)
      (distinct : (entries.map Prod.fst).Nodup) (named : ∀ entry ∈ entries, Path.IsName entry.1)
      (linkless : ∀ name target, (name, .link target) ∉ entries)
      (inside : ∀ name inner, (name, .directory inner) ∈ entries → Readable (Path.join path name) inner) :
      Readable path entries

variable {path name : Text} {entries : Entries} {names : List Text}

theorem FileAt.ne_nil (h : FileAt entries names) : names ≠ [] := by
  cases h <;> exact List.cons_ne_nil _ _

namespace Readable

theorem short (h : Readable path entries) : Path.size path ≤ Path.maxPathBytes := by
  cases h
  assumption

theorem distinct (h : Readable path entries) : (entries.map Prod.fst).Nodup := by
  cases h
  assumption

private theorem linkless (h : Readable path entries) {target : Text} : (name, .link target) ∉ entries := by
  cases h with
  | intro short distinct named linkless inside => exact linkless name target

theorem inside (h : Readable path entries) {inner : Entries} (entry : (name, .directory inner) ∈ entries) :
    Readable (Path.join path name) inner := by
  cases h with
  | intro short distinct named linkless inside => exact inside name inner entry

private theorem isName (h : Readable path entries) {node : Node} (entry : (name, node) ∈ entries) :
    Path.IsName name := by
  cases h with
  | intro short distinct named linkless inside => exact named _ entry

private theorem isName_of_fileAt (h : Readable path entries) (hfile : FileAt entries names) :
    ∀ name ∈ names, Path.IsName name := by
  induction hfile generalizing path with
  | file entry => exact List.forall_mem_singleton.mpr (h.isName entry)
  | inside entry rest ih => exact List.forall_mem_cons.mpr ⟨h.isName entry, ih (h.inside entry)⟩

end Readable

end Entries

namespace Walk
variable {options : WalkOptions} {visit : Visit} {name : Text} {node : Node} {names : List Text}

/-- In a readable tree an entry leads to itself. -/
theorem lead_cases (options : WalkOptions) (h : visit.directory.entries.Readable visit.path)
    (entry : (name, node) ∈ visit.directory.entries) :
    (∃ content, node = .file content ∧ lead options.followLinks visit name node = .file) ∨
      ∃ inner, node = .directory inner ∧
        lead options.followLinks visit name node = .directory (visit.directory.enter name inner) := by
  cases node with
  | file content => exact .inl ⟨content, rfl, rfl⟩
  | directory inner => exact .inr ⟨inner, rfl, rfl⟩
  | link target => exact (h.linkless entry).elim

/-- In a readable tree a walk comes upon nothing but files. -/
private theorem file?_of_mem_ofDirectory {levels : Nat} (h : visit.directory.entries.Readable visit.path)
    {event : WalkEvent} (hevent : event ∈ ofDirectory options levels visit) :
    event.file?.isSome = true := by
  induction levels generalizing visit with
  | zero => cases hevent
  | succ levels ih =>
    rw [ofDirectory, if_neg (Nat.not_lt.mpr h.short)] at hevent
    obtain ⟨⟨name, node⟩, hentry, hevent⟩ := List.mem_flatMap.mp hevent
    have entry := mem_inOrder.mp hentry
    rw [ofEntry_eq] at hevent
    obtain ⟨content, rfl, hlead⟩ | ⟨inner, rfl, hlead⟩ := lead_cases options h entry
    · simp only [hlead] at hevent
      split at hevent
      · cases List.mem_singleton.mp hevent
        rfl
      · cases hevent
    · simp only [hlead] at hevent
      split at hevent
      · exact ih (h.inside entry) hevent
      · cases hevent

/-- A walk finds the files that are deep enough and not left out by a name. -/
theorem mem_places_iff {levels : Nat} (hignore : options.gitIgnore = false) (hlevels : visit.levels = [])
    (h : visit.directory.entries.Readable visit.path) :
    names ∈ places options levels visit ↔
      visit.directory.entries.FileAt names ∧ names.length ≤ levels ∧ options.shows names = true := by
  induction levels generalizing visit names with
  | zero =>
    constructor
    · rintro ⟨⟩
    · rintro ⟨hfile, hlength, -⟩
      exact (hfile.ne_nil (List.length_eq_zero_iff.mp (Nat.le_zero.mp hlength))).elim
  | succ levels ih =>
    rw [mem_places]
    constructor
    · rintro ⟨-, name, node, entry, hplace⟩
      obtain ⟨content, rfl, hlead⟩ | ⟨inner, rfl, hlead⟩ := lead_cases options h entry
      · obtain ⟨-, hadmits, rfl⟩ | ⟨_, _, hother, -⟩ := mem_placesOf.mp hplace
        · rw [Visit.admits_of_levels hlevels] at hadmits
          exact ⟨.file entry, Nat.succ_le_succ (Nat.zero_le _), by simp [hadmits, WalkOptions.shows]⟩
        · cases hlead.symm.trans hother
      · obtain ⟨hother, -⟩ | ⟨_, rest, hsame, hadmits, hrest, rfl⟩ := mem_placesOf.mp hplace
        · cases hlead.symm.trans hother
        · cases hlead.symm.trans hsame
          rw [Visit.admits_of_levels hlevels] at hadmits
          obtain ⟨hfile, hlength, hshows⟩ :=
            (ih (Visit.levels_enter hignore hlevels _ _) (h.inside entry)).mp hrest
          exact ⟨.inside entry hfile, Nat.succ_le_succ hlength, by simp [hadmits, hshows]⟩
    · rintro ⟨hfile, hlength, hshows⟩
      refine ⟨h.short, ?_⟩
      cases hfile with
      | @file _ name content entry =>
        refine ⟨name, _, entry, mem_placesOf.mpr (.inl ⟨rfl, ?_, rfl⟩)⟩
        rw [Visit.admits_of_levels hlevels]
        exact (Bool.and_eq_true_iff.mp hshows).1
      | @inside _ inner name rest entry hfile =>
        obtain ⟨hname, hrest⟩ := Bool.and_eq_true_iff.mp hshows
        refine ⟨name, _, entry, mem_placesOf.mpr (.inr ⟨_, rest, rfl, ?_, ?_, rfl⟩)⟩
        · rwa [Visit.admits_of_levels hlevels]
        · exact (ih (Visit.levels_enter hignore hlevels _ _) (h.inside entry)).mpr
            ⟨hfile, Nat.le_of_succ_le_succ hlength, hrest⟩

/-- Names in the order of their bytes. -/
theorem pairwise_inOrder {entries : Entries} (h : (entries.map Prod.fst).Nodup) :
    (inOrder entries).Pairwise fun a b => Utf8.encode a.1 < Utf8.encode b.1 := by
  have hsorted : (inOrder entries).Pairwise fun a b => Utf8.le a.1 b.1 = true :=
    List.pairwise_mergeSort (fun a b c => Utf8.le_trans a.1 b.1 c.1) (fun a b => Utf8.le_total a.1 b.1) entries
  have hdistinct : (inOrder entries).Pairwise fun a b => a.1 ≠ b.1 := by
    have hperm : (inOrder entries).Perm entries := List.mergeSort_perm _ _
    exact List.pairwise_map.mp ((hperm.map Prod.fst).nodup_iff.mpr h)
  exact hsorted.imp₂ (fun a b hle hne => Utf8.lt_of_le_of_ne hle hne) hdistinct

/-- The order of a directory's entries is the only one that goes by the bytes of the names. -/
private theorem inOrder_eq_of_perm {entries sorted : Entries} (same : entries.Perm sorted)
    (ordered : sorted.Pairwise fun a b => Utf8.encode a.1 < Utf8.encode b.1) :
    inOrder entries = sorted := by
  have distinct : (entries.map Prod.fst).Nodup := by
    refine (same.map Prod.fst).nodup_iff.mpr (List.pairwise_map.mpr (ordered.imp fun hlt heq => ?_))
    rw [heq] at hlt
    exact List.lt_irrefl _ hlt
  have hperm : (inOrder entries).Perm sorted := (List.mergeSort_perm _ _).trans same
  refine hperm.eq_of_pairwise (fun a b _ _ hab hba => ?_) (pairwise_inOrder distinct) ordered
  exact absurd (List.lt_trans hab hba) (List.lt_irrefl _)

private theorem head_of_mem_placesOf {inside : Visit → List (List Text)}
    (h : names ∈ placesOf options inside visit name node) : ∃ rest, names = name :: rest := by
  obtain ⟨-, -, rfl⟩ | ⟨_, rest, -, -, -, rfl⟩ := mem_placesOf.mp h
  · exact ⟨[], rfl⟩
  · exact ⟨rest, rfl⟩

/-- The places of a readable tree come in the order of their names, and none comes twice: what is in a
directory comes where the directory does. -/
theorem pairwise_places {levels : Nat} (h : visit.directory.entries.Readable visit.path) :
    (places options levels visit).Pairwise fun a b => a.map Utf8.encode < b.map Utf8.encode := by
  induction levels generalizing visit with
  | zero => exact .nil
  | succ levels ih =>
    rw [places, if_neg (Nat.not_lt.mpr h.short), List.pairwise_flatMap]
    constructor
    · rintro ⟨name, node⟩ hentry
      have entry := mem_inOrder.mp hentry
      unfold placesOf
      obtain ⟨content, rfl, hlead⟩ | ⟨inner, rfl, hlead⟩ := lead_cases options h entry
      · simp only [hlead]
        split
        · exact List.pairwise_singleton _ _
        · exact .nil
      · simp only [hlead]
        split
        · refine List.pairwise_map.mpr ((ih (h.inside entry)).imp fun hlt => ?_)
          exact List.cons_lt_cons_iff.mpr (.inr ⟨rfl, hlt⟩)
        · exact .nil
    · refine (pairwise_inOrder h.distinct).imp fun hlt first hfirst second hsecond => ?_
      obtain ⟨_, rfl⟩ := head_of_mem_placesOf hfirst
      obtain ⟨_, rfl⟩ := head_of_mem_placesOf hsecond
      exact List.cons_lt_cons_iff.mpr (.inl hlt)

end Walk

namespace Directory
variable {here directory : Directory} {options : WalkOptions} {root : Text}

private theorem ne_nil_of_resolve {target : Target} (h : here.resolve root = .ok target) : root ≠ [] := by
  rintro rfl
  cases h

private theorem walk_of_directory (hroot : Path.isStandardInput root = false)
    (hresolve : here.resolve root = .ok (.directory directory)) :
    here.walk options root = Walk.ofDirectory options options.maxDepth (.start options root directory) := by
  rw [walk, hroot, hresolve]
  rfl

private theorem places_of_directory (hroot : Path.isStandardInput root = false)
    (hresolve : here.resolve root = .ok (.directory directory)) :
    here.places options root = Walk.places options options.maxDepth (.start options root directory) := by
  rw [places, hroot, hresolve]
  rfl

end Directory

private theorem WalkEvent.counts_of_files {events : List WalkEvent}
    (h : ∀ event ∈ events, event.file?.isSome = true) :
    counts events = { found := (files events).length, loops := 0, errors := 0 } := by
  have hloops : events.countP isLoop = 0 := by
    refine List.countP_eq_zero.mpr fun event hevent => ?_
    have hfile := h event hevent
    cases event <;> simp_all [file?, isLoop]
  have hmessages : messages events = [] := by
    refine List.filterMap_eq_nil_iff.mpr fun event hevent => ?_
    have hfile := h event hevent
    cases event <;> simp_all [file?, message?]
  rw [counts, hloops, hmessages]
  rfl

theorem Searcher.run_searchTree (searcher : Searcher) (here : Directory) (options : WalkOptions) (root : Text)
    {engine : Engine} (faithful : engine.cache.Faithful) :
    (engine.run (searcher.searchTree here options root)).1.outcomes =
      FileOutcome.ofResults (((WalkEvent.files (here.walk options root)).map (·.path)).map
        fun path => (path, searcher.alone here path)) := by
  rw [Engine.run_of_faithful faithful, searchTree, OnDemand.fresh_bind, OnDemand.fresh_pure,
    fresh_searchPaths]

/-- Below a directory that is not given as `-` a walk that obeys no ignore files finds the regular files that
are deep enough and under no name that it leaves out, and no others: each once, in the order of the names that
lead to them. More levels and more names only put files between those there are. A search has one outcome for
each file, in this order, unless a file has a line without an answer. -/
theorem Directory.walk_is_exact (here directory : Directory) (options : WalkOptions) (root : Text)
    (hroot : Path.isStandardInput root = false)
    (hresolve : here.resolve root = .ok (.directory directory))
    (hreadable : directory.entries.Readable root) (hignore : options.gitIgnore = false) :
    let places := here.places options root
    let files := WalkEvent.files (here.walk options root)
    files = places.map (fun names => { path := names.foldl Path.join root, depth := names.length }) ∧
      (∀ names, names ∈ places ↔
        directory.entries.FileAt names ∧ names.length ≤ options.maxDepth ∧
          (options.hidden = true ∨ ∀ name ∈ names, Path.isHidden name = false)) ∧
      places.Pairwise (fun a b => a.map Utf8.encode < b.map Utf8.encode) ∧
      (files.map (·.path)).Nodup ∧
      WalkEvent.counts (here.walk options root) = { found := files.length, loops := 0, errors := 0 } ∧
      (∀ more : WalkOptions, more.gitIgnore = false → more.followLinks = options.followLinks →
        options.maxDepth ≤ more.maxDepth → (options.hidden = true → more.hidden = true) →
        files.Sublist (WalkEvent.files (here.walk more root))) ∧
      ∀ (searcher : Searcher) (engine : Engine), engine.cache.Faithful →
        (∀ outcomes, (engine.run (searcher.searchTree here options root)).1.outcomes = .ok outcomes ↔
          List.Forall₂ (searcher.Right here) (files.map (·.path)) outcomes) ∧
        ∀ fault, (engine.run (searcher.searchTree here options root)).1.outcomes = .error fault ↔
          ∃ before path after, files.map (·.path) = before ++ path :: after ∧
            (∀ earlier ∈ before, ∃ outcome, searcher.Right here earlier outcome) ∧
            searcher.alone here path = .error fault ∧ ∀ origin cause, fault ≠ .io origin cause := by
  intro places files
  have hstart : (Visit.start options root directory).levels = [] := by simp [Visit.start, hignore]
  have hfiles : files = places.map fun names =>
      { path := names.foldl Path.join root, depth := names.length } := by
    rw [show files = _ from files_walk here options root]
    simp [WalkedFile.below, places]
  have hmem (names : List Text) : names ∈ places ↔
      directory.entries.FileAt names ∧ names.length ≤ options.maxDepth ∧
        (options.hidden = true ∨ ∀ name ∈ names, Path.isHidden name = false) := by
    rw [show places = _ from places_of_directory hroot hresolve, ← WalkOptions.shows_iff]
    exact Walk.mem_places_iff hignore hstart hreadable
  have hsorted : places.Pairwise fun a b => a.map Utf8.encode < b.map Utf8.encode := by
    rw [show places = _ from places_of_directory hroot hresolve]
    exact Walk.pairwise_places hreadable
  refine ⟨hfiles, hmem, hsorted, ?_, ?_, ?_, ?_⟩
  · have hdistinct : places.Nodup := by
      refine hsorted.imp fun hlt => ?_
      rintro rfl
      exact List.lt_irrefl _ hlt
    have isName {names : List Text} (h : names ∈ places) :=
      hreadable.isName_of_fileAt ((hmem names).mp h).1
    rw [hfiles, List.map_map]
    refine List.Nodup.map_on (fun names hnames others hothers heq => ?_) hdistinct
    exact Path.foldl_join_injective (ne_nil_of_resolve hresolve) (isName hnames) (isName hothers) heq
  · refine WalkEvent.counts_of_files fun event hevent => ?_
    rw [walk_of_directory hroot hresolve] at hevent
    exact Walk.file?_of_mem_ofDirectory hreadable hevent
  · exact fun more hmore hlinks hdepth hhidden =>
      files_sublist here hignore hmore hlinks hdepth hhidden root
  · intro searcher engine faithful
    rw [searcher.run_searchTree here options root faithful]
    exact ⟨fun outcomes => Searcher.ofResults_eq_ok, fun fault => Searcher.ofResults_eq_error⟩

/-- A name that goes on where another ends comes after what is in the other's directory. -/
theorem Directory.walk_goes_by_names :
    let inner : Entries :=
      [(['a', '-'], .file (.ok { bytes := [] })), (['.', 'h'], .file (.ok { bytes := [] })),
        (['a'], .directory [(['c'], .file (.ok { bytes := [] }))])]
    let here : Directory := { entries := [(['d'], .directory inner)] }
    let files : List WalkedFile :=
      [{ path := ['d', '/', 'a', '/', 'c'], depth := 2 }, { path := ['d', '/', 'a', '-'], depth := 1 }]
    here.resolve ['d'] = .ok (.directory (here.enter ['d'] inner)) ∧ inner.Readable ['d'] ∧
      WalkEvent.files (here.walk {} ['d']) = files ∧
      WalkEvent.counts (here.walk {} ['d']) = { found := 2, loops := 0, errors := 0 } ∧
      [['a'], ['c']] ∈ here.places {} ['d'] := by
  intro inner here files
  have hroot : Path.isStandardInput ['d'] = false := by decide
  have hresolve : here.resolve ['d'] = .ok (.directory (here.enter ['d'] inner)) := rfl
  have hreadable : inner.Readable ['d'] := by
    refine .intro (by decide) (by decide) (by simp [inner, Path.IsName]) (by simp [inner]) ?_
    intro name entries entry
    obtain ⟨rfl, rfl⟩ : name = ['a'] ∧ entries = [(['c'], .file (.ok { bytes := [] }))] := by
      simpa [inner] using entry
    exact .intro (by decide) (by decide) (by simp [Path.IsName]) (by simp) (by simp)
  obtain ⟨-, hmem, -, -, hcounts, -⟩ :=
    walk_is_exact here (here.enter ['d'] inner) {} ['d'] hroot hresolve hreadable rfl
  have hsorted : Walk.inOrder inner =
      [(['.', 'h'], .file (.ok { bytes := [] })), (['a'], .directory [(['c'], .file (.ok { bytes := [] }))]),
        (['a', '-'], .file (.ok { bytes := [] }))] :=
    Walk.inOrder_eq_of_perm (List.perm_append_singleton _ _).symm (by decide)
  have hwalk : here.walk {} ['d'] = (Walk.inOrder inner).flatMap fun entry =>
      Walk.ofEntry {} (Walk.ofDirectory {} 99) (.start {} ['d'] (here.enter ['d'] inner)) entry.1 entry.2 :=
    rfl
  have hfiles : WalkEvent.files (here.walk {} ['d']) = files := by
    rw [hwalk, hsorted]
    decide +kernel
  refine ⟨hresolve, hreadable, hfiles, ?_, (hmem _).mpr ⟨?_, by decide, .inr (by decide)⟩⟩
  · rw [hcounts, hfiles]
    rfl
  · exact .inside (.tail _ (.tail _ (.head _))) (.file (.head _))

/-- A directory that is given as `-` is taken for standard input. A line without an answer leaves a search
without outcomes. -/
theorem Directory.exceptions_to_exactness :
    let inner : Entries := [(['a'], .file (.ok { bytes := [97] }))]
    let here : Directory := { entries := [(['-'], .directory inner)] }
    let searcher : Searcher :=
      { pattern := { source := ['(', 'a', ')'], tokens := [{ kind := .group ['a'] [['a']] none }]
                     startAnchored := false }
        recursionLimit := 0 }
    let engine : Engine := { recursionLimit := 0 }
    here.resolve ['-'] = .ok (.directory (here.enter ['-'] inner)) ∧ inner.Readable ['-'] ∧
      inner.FileAt [['a']] ∧ WalkEvent.files (here.walk {} ['-']) = [] ∧
      WalkEvent.files (here.walk {} ['.', '/', '-']) = [{ path := ['.', '/', '-', '/', 'a'], depth := 1 }] ∧
      (engine.run (searcher.searchTree here {} ['.', '/', '-'])).1.outcomes =
        .error (.unmatched (.depthExceeded 0)) := by
  intro inner here searcher engine
  have hfiles : WalkEvent.files (here.walk {} ['.', '/', '-']) =
      [{ path := ['.', '/', '-', '/', 'a'], depth := 1 }] := by
    decide +kernel
  have hreadable : inner.Readable ['-'] :=
    .intro (by decide) (by decide) (by simp [inner, Path.IsName]) (by simp [inner]) (by simp [inner])
  refine ⟨rfl, hreadable, .file (.head _), by decide +kernel, hfiles, ?_⟩
  rw [searcher.run_searchTree here {} ['.', '/', '-'] Cache.faithful_empty, hfiles]
  rfl

end LineSearch
