import Mathlib.Data.List.DropRight
import LineSearch.Proofs.Walk.Places

/-! Hidden names in walks that leave them out: only a line of an ignore file that begins with `!` lets one
of them in. -/
namespace LineSearch

private theorem Text.trimRight_prefix (text : Text) : text.trimRight <+: text :=
  List.rdropWhile_prefix isBlank text

namespace IgnoreRule
variable {line path : Text} {rule : IgnoreRule} {verdict : Verdict} {isDirectory : Bool}

private theorem trimLine_prefix (line : Text) : trimLine line <+: line := by
  unfold trimLine
  split
  · exact List.prefix_refl line
  · exact line.trimRight_prefix

private theorem verdict_of_ofBody? {anchored : Bool} {body : Text}
    (h : ofBody? verdict anchored body = some rule) : rule.verdict = verdict := by
  obtain ⟨glob, -, rfl⟩ := Option.map_eq_some_iff.mp h
  rfl

/-- Only a line that begins with `!` asks for entries to be kept. -/
theorem head?_of_kept (h : ofLine? line = some rule) (hkept : rule.verdict = .kept) :
    line.head? = some '!' := by
  have head?_line {rest : Text} (htrim : trimLine line = '!' :: rest) : line.head? = some '!' := by
    obtain ⟨tail, htail⟩ := trimLine_prefix line
    rw [← htail, htrim]
    rfl
  have not_ignored {anchored : Bool} {body : Text} (hbody : ofBody? .ignored anchored body = some rule) :
      False := by
    rw [verdict_of_ofBody? hbody] at hkept
    cases hkept
  unfold ofLine? at h
  split at h
  · cases h
  · split at h
    · cases h
    · exact (not_ignored h).elim
    · exact (not_ignored h).elim
    · exact head?_line ‹_›
    · exact head?_line ‹_›
    · exact (not_ignored h).elim
    · exact (not_ignored h).elim

private theorem decide?_eq_some {rules : List IgnoreRule}
    (h : decide? rules path isDirectory = some verdict) :
    ∃ rule ∈ rules, rule.covers path isDirectory = true ∧ rule.verdict = verdict := by
  obtain ⟨rule, hrule, rfl⟩ := Option.map_eq_some_iff.mp h
  have hcovers : rule.covers path isDirectory = true := by simpa using List.find?_some hrule
  exact ⟨rule, List.mem_reverse.mp (List.mem_of_find?_eq_some hrule), hcovers, rfl⟩

end IgnoreRule

private theorem IgnoreLevel.decide?_eq_some {levels : List IgnoreLevel} {path : Text} {isDirectory : Bool}
    {verdict : Verdict} (h : decide? levels path isDirectory = some verdict) :
    ∃ level ∈ levels, ∃ rule ∈ level.shared ++ level.personal,
      rule.covers (level.relativePath path) isDirectory = true ∧ rule.verdict = verdict := by
  rcases Option.or_eq_some_iff.mp h with hshared | ⟨-, hpersonal⟩
  · obtain ⟨level, hlevel, hdecide⟩ := List.exists_of_findSome?_eq_some hshared
    obtain ⟨rule, hrule, hcovers⟩ := IgnoreRule.decide?_eq_some hdecide
    exact ⟨level, hlevel, rule, List.mem_append_left _ hrule, hcovers⟩
  · obtain ⟨level, hlevel, hdecide⟩ := List.exists_of_findSome?_eq_some hpersonal
    obtain ⟨rule, hrule, hcovers⟩ := IgnoreRule.decide?_eq_some hdecide
    exact ⟨level, hlevel, rule, List.mem_append_right _ hrule, hcovers⟩

/-- An ignore file of the directory has a line that begins with `!` and is for the entry. -/
def Visit.Reincludes (visit : Visit) (path : Text) (isDirectory : Bool) : Prop :=
  ∃ file ∈ [".gitignore", ".git/info/exclude"], ∃ line ∈ IgnoreLevel.linesIn visit.path visit.directory file,
    line.head? = some '!' ∧ ∃ rule, IgnoreRule.ofLine? line = some rule ∧
      rule.covers ((IgnoreLevel.ofDirectory visit.path visit.directory).relativePath path) isDirectory = true

private theorem Visit.reincludes_of_kept {visit : Visit} {path : Text} {isDirectory : Bool}
    {rule : IgnoreRule}
    (hrule : rule ∈ (IgnoreLevel.ofDirectory visit.path visit.directory).shared ++
      (IgnoreLevel.ofDirectory visit.path visit.directory).personal)
    (hcovers : rule.covers ((IgnoreLevel.ofDirectory visit.path visit.directory).relativePath path)
      isDirectory = true)
    (hkept : rule.verdict = .kept) : visit.Reincludes path isDirectory := by
  rcases List.mem_append.mp hrule with hshared | hpersonal
  · obtain ⟨line, hline, hof⟩ := List.mem_filterMap.mp hshared
    exact ⟨_, List.mem_cons_self, line, hline, IgnoreRule.head?_of_kept hof hkept, rule, hof, hcovers⟩
  · obtain ⟨line, hline, hof⟩ := List.mem_filterMap.mp hpersonal
    exact ⟨_, List.mem_cons_of_mem _ List.mem_cons_self, line, hline, IgnoreRule.head?_of_kept hof hkept,
      rule, hof, hcovers⟩

namespace Walk
variable {options : WalkOptions} {name : Text} {front back : List Text}

/-- A hidden name that a walk lets in is asked for in the directory it stands in or in one on the way
there. -/
theorem reincluded_of_mem_places {root : Text} {directory : Directory} {levels : Nat}
    (hhidden : options.hidden = false)
    (h : front ++ name :: back ∈ places options levels (.start options root directory))
    (hname : Path.isHidden name = true) :
    options.gitIgnore = true ∧ ∃ above upper, above <+: front ∧
      Leads options (.start options root directory) above upper ∧
      upper.Reincludes ((front ++ [name]).foldl Path.join root) (!back.isEmpty) := by
  obtain ⟨last, hleads, hadmits⟩ := admitted_of_mem_places h
  have hpath : Path.join last.path name = (front ++ [name]).foldl Path.join root := by
    rw [hleads.path_eq, List.foldl_append]
    rfl
  have hdecide : IgnoreLevel.decide? last.levels (Path.join last.path name) (!back.isEmpty) = some .kept := by
    unfold Visit.admits at hadmits
    split at hadmits
    · rename_i verdict hverdict
      rw [hverdict, eq_of_beq hadmits]
    · simp [hhidden, hname] at hadmits
  obtain ⟨level, hlevel, rule, hrule, hcovers, hkept⟩ := IgnoreLevel.decide?_eq_some hdecide
  have hignore : options.gitIgnore = true := by
    by_contra hoff
    rw [Bool.not_eq_true] at hoff
    rw [hleads.levels_eq_nil hoff (by simp [Visit.start, hoff])] at hlevel
    cases hlevel
  rcases hleads.mem_levels hlevel with hfirst | ⟨above, between, upper, rfl, habove, -, rfl⟩
  · have heq : level = .ofDirectory root directory := by simpa [Visit.start, hignore] using hfirst
    subst heq
    exact ⟨hignore, [], .start options root directory, List.nil_prefix, .here _,
      Visit.reincludes_of_kept hrule (hpath ▸ hcovers) hkept⟩
  · exact ⟨hignore, above, upper, List.prefix_append above between, habove,
      Visit.reincludes_of_kept hrule (hpath ▸ hcovers) hkept⟩

end Walk

/-- A walk that leaves hidden names out finds a file at or below one only where ignore files are obeyed, and
one in the directory that holds the name, or in a directory on the way there, has a line with `!` for it.
Apart from such files, obeying ignore files only takes files away. -/
theorem Directory.hidden_only_if_reincluded (here : Directory) (options : WalkOptions) (root : Text)
    (h : options.hidden = false) :
    WalkEvent.files (here.walk options root) =
        (here.places options root).map (WalkedFile.below root 0) ∧
      (∀ front name back, front ++ name :: back ∈ here.places options root → Path.isHidden name = true →
        options.gitIgnore = true ∧ ∃ directory above upper,
          here.resolve root = .ok (.directory directory) ∧ above <+: front ∧
          Walk.Leads options (.start options root directory) above upper ∧
          upper.Reincludes ((front ++ [name]).foldl Path.join root) (!back.isEmpty)) ∧
      ((here.places options root).filter fun names => !names.any Path.isHidden).Sublist
        (here.places { options with gitIgnore := false } root) := by
  refine ⟨files_walk here options root, fun front name back hmem hname => ?_, ?_⟩
  · obtain hnil | ⟨directory, hresolve, hplace⟩ := mem_places_cases hmem
    · simp at hnil
    · obtain ⟨hignore, above, upper, hrest⟩ := Walk.reincluded_of_mem_places h hplace hname
      exact ⟨hignore, directory, above, upper, hresolve, hrest⟩
  · have hshows : (fun names : List Text => !names.any Path.isHidden) =
        WalkOptions.shows { options with gitIgnore := false } := by
      funext names
      simp [WalkOptions.shows, h, List.all_eq_not_any_not]
    rw [hshows]
    exact here.filter_places_sublist options { options with gitIgnore := false } rfl rfl (Nat.le_refl _) root

def Walk.withKeptEnv : Directory where
  entries := [(".env".toList, .file (.ok { bytes := [] })),
    (".gitignore".toList, .file (.ok { bytes := Utf8.encode "!.env\n".toList }))]

private theorem Directory.places_withKeptEnv (options : WalkOptions) {levels : Nat}
    (h : options.maxDepth = levels + 1) :
    Walk.withKeptEnv.places options ['.'] = Walk.withKeptEnv.entries.flatMap fun entry =>
      Walk.placesOf options (Walk.places options levels) (.start options ['.'] Walk.withKeptEnv)
        entry.1 entry.2 := by
  have hsorted : Walk.inOrder Walk.withKeptEnv.entries = Walk.withKeptEnv.entries :=
    List.mergeSort_of_pairwise (by decide)
  have hplaces : Walk.withKeptEnv.places options ['.'] =
      Walk.places options options.maxDepth (.start options ['.'] Walk.withKeptEnv) := rfl
  have hshort : ¬Path.maxPathBytes < Path.size ['.'] := by decide
  rw [hplaces, h, Walk.places]
  exact (if_neg hshort).trans (congrArg _ hsorted)

theorem Directory.env_is_reincluded :
    { gitIgnore := true : WalkOptions }.hidden = false ∧
      { gitIgnore := true : WalkOptions }.gitIgnore = true ∧ ∃ directory above upper,
        Walk.withKeptEnv.resolve ['.'] = .ok (.directory directory) ∧ above <+: [] ∧
        Walk.Leads { gitIgnore := true } (.start { gitIgnore := true } ['.'] directory) above upper ∧
        upper.Reincludes "./.env".toList false := by
  have hname : Path.isHidden ".env".toList = true := rfl
  have hmem : [".env".toList] ∈ Walk.withKeptEnv.places { gitIgnore := true } ['.'] := by
    rw [places_withKeptEnv { gitIgnore := true } rfl]
    decide +kernel
  refine ⟨rfl, ?_⟩
  exact (Walk.withKeptEnv.hidden_only_if_reincluded { gitIgnore := true } ['.'] rfl).2.1 [] _ [] hmem hname

/-- Obeying ignore files can add a hidden file to a walk that leaves hidden names out. -/
theorem Walk.kept_env_is_found :
    Path.isHidden ".env".toList = true ∧
      WalkEvent.files (withKeptEnv.walk { gitIgnore := true } ['.']) =
        [{ path := "./.env".toList, depth := 1 }] ∧
      WalkEvent.files (withKeptEnv.walk { gitIgnore := false } ['.']) = [] := by
  refine ⟨rfl, ?_, ?_⟩
  · rw [files_walk, Directory.places_withKeptEnv { gitIgnore := true } rfl]
    decide +kernel
  · rw [files_walk, Directory.places_withKeptEnv { gitIgnore := false } rfl]
    decide +kernel

end LineSearch
