import Mathlib.Data.List.Basic
import Mathlib.Data.List.Flatten
import LineSearch.Walk.Basic

/-! Where a walk finds files: the names that lead to each of them, and the directories on the way. -/
namespace LineSearch

def WalkedFile.below (path : Text) (depth : Nat) (names : List Text) : WalkedFile where
  path := names.foldl Path.join path
  depth := depth + names.length

def WalkOptions.shows (options : WalkOptions) (names : List Text) : Bool :=
  names.all fun name => options.hidden || !Path.isHidden name

@[simp]
theorem WalkOptions.shows_cons (options : WalkOptions) (name : Text) (names : List Text) :
    options.shows (name :: names) = ((options.hidden || !Path.isHidden name) && options.shows names) :=
  List.all_cons

theorem WalkOptions.shows_iff {options : WalkOptions} {names : List Text} :
    options.shows names = true ↔ options.hidden = true ∨ ∀ name ∈ names, Path.isHidden name = false := by
  cases hhidden : options.hidden <;> simp [shows, hhidden]

namespace Visit

def bare (visit : Visit) : Visit := { visit with levels := [] }

@[simp]
theorem depth_enter (options : WalkOptions) (visit : Visit) (path : Text) (directory : Directory) :
    (visit.enter options path directory).depth = visit.depth + 1 := by
  simp [depth, enter, start]

/-- With no ignore file in force, the name decides. -/
@[simp]
theorem admits_bare (options : WalkOptions) (visit : Visit) (name path : Text) (isDirectory : Bool) :
    visit.bare.admits options name path isDirectory = (options.hidden || !Path.isHidden name) := rfl

private theorem bare_start {options plain : WalkOptions} (h : plain.gitIgnore = false) (path : Text)
    (directory : Directory) : (start options path directory).bare = start plain path directory := by
  simp [bare, start, h]

private theorem bare_enter {options plain : WalkOptions} (h : plain.gitIgnore = false) (visit : Visit)
    (path : Text) (directory : Directory) :
    (visit.enter options path directory).bare = visit.bare.enter plain path directory := by
  simp [bare, enter, start, h]

theorem admits_of_levels {options : WalkOptions} {visit : Visit} (h : visit.levels = []) (name path : Text)
    (isDirectory : Bool) :
    visit.admits options name path isDirectory = (options.hidden || !Path.isHidden name) := by
  rw [← admits_bare options visit name path isDirectory, bare, ← h]

theorem levels_enter {options : WalkOptions} {visit : Visit} (hignore : options.gitIgnore = false)
    (h : visit.levels = []) (path : Text) (directory : Directory) :
    (visit.enter options path directory).levels = [] := by
  simp [enter, start, hignore, h]

end Visit

namespace Walk

inductive Lead where
  | file
  | directory (inner : Directory)
  | failure (cause : SystemError)
  | loop
  /-- A link that is not followed. -/
  | nowhere

def lead (followLinks : Bool) (visit : Visit) (name : Text) : Node → Lead
  | .file _ => .file
  | .directory entries => .directory (visit.directory.enter name entries)
  | .link _ =>
    if !followLinks then .nowhere
    else if Path.maxPathBytes < Path.size (Path.join visit.path name) then .failure .nameTooLong
    else
      match visit.directory.follow Directory.maxLinks [name] with
      | .error cause => .failure cause
      | .ok (.file _) => .file
      | .ok (.directory inner) =>
        if visit.trail.contains inner.names then .loop else .directory inner

def placesOf (options : WalkOptions) (inside : Visit → List (List Text)) (visit : Visit) (name : Text)
    (node : Node) : List (List Text) :=
  let path := Path.join visit.path name
  match lead options.followLinks visit name node with
  | .file => if visit.admits options name path false then [[name]] else []
  | .directory inner =>
    if visit.admits options name path true then (inside (visit.enter options path inner)).map (name :: ·)
    else []
  | _ => []

/-- The places of the files that a walk finds below a directory, in its order: for each the names that
lead to it. -/
def places (options : WalkOptions) : (levels : Nat) → Visit → List (List Text)
  | 0, _ => []
  | levels + 1, visit =>
    if Path.maxPathBytes < Path.size visit.path then []
    else
      (inOrder visit.directory.entries).flatMap fun entry =>
        placesOf options (places options levels) visit entry.1 entry.2

inductive Leads (options : WalkOptions) : Visit → List Text → Visit → Prop where
  | here (visit : Visit) : Leads options visit [] visit
  | into {visit last : Visit} {name : Text} {node : Node} {inner : Directory} {names : List Text}
      (entry : (name, node) ∈ visit.directory.entries)
      (way : lead options.followLinks visit name node = .directory inner)
      (admitted : visit.admits options name (Path.join visit.path name) true = true)
      (next : Leads options (visit.enter options (Path.join visit.path name) inner) names last) :
      Leads options visit (name :: names) last

variable {options : WalkOptions} {visit last : Visit} {name : Text} {node : Node} {names : List Text}

theorem ofEntry_eq (options : WalkOptions) (inside : Visit → List WalkEvent) (visit : Visit) (name : Text)
    (node : Node) :
    ofEntry options inside visit name node =
      let path := Path.join visit.path name
      match lead options.followLinks visit name node with
      | .file => if visit.admits options name path false then [.file path visit.depth] else []
      | .directory inner =>
        if visit.admits options name path true then inside (visit.enter options path inner) else []
      | .failure cause => [.failure path cause]
      | .loop => [.loop path]
      | .nowhere => [] := by
  cases node with
  | file content => rfl
  | directory entries => rfl
  | link target =>
    simp only [ofEntry, lead]
    split
    · rfl
    · split
      · rfl
      · rcases visit.directory.follow Directory.maxLinks [name] with cause | (content | inner)
        · rfl
        · rfl
        · dsimp only
          split <;> rfl

theorem mem_inOrder {entries : Entries} {entry : Text × Node} :
    entry ∈ inOrder entries ↔ entry ∈ entries := List.mem_mergeSort

theorem mem_placesOf {inside : Visit → List (List Text)} :
    names ∈ placesOf options inside visit name node ↔
      (lead options.followLinks visit name node = .file ∧
        visit.admits options name (Path.join visit.path name) false = true ∧ names = [name]) ∨
      ∃ inner rest, lead options.followLinks visit name node = .directory inner ∧
        visit.admits options name (Path.join visit.path name) true = true ∧
        rest ∈ inside (visit.enter options (Path.join visit.path name) inner) ∧ names = name :: rest := by
  unfold placesOf
  cases lead options.followLinks visit name node with
  | file => simp
  | directory inner =>
    dsimp only
    split
    · simp only [List.mem_map, Lead.directory.injEq]
      constructor
      · rintro ⟨rest, hrest, rfl⟩
        exact .inr ⟨inner, rest, rfl, ‹_›, hrest, rfl⟩
      · rintro (⟨⟨⟩, -⟩ | ⟨_, rest, rfl, -, hrest, rfl⟩)
        exact ⟨rest, hrest, rfl⟩
    · constructor
      · rintro ⟨⟩
      · rintro (⟨⟨⟩, -⟩ | ⟨_, rest, -, hadmits, -⟩)
        contradiction
  | _ => simp

theorem mem_places {levels : Nat} :
    names ∈ places options (levels + 1) visit ↔ Path.size visit.path ≤ Path.maxPathBytes ∧
      ∃ name node, (name, node) ∈ visit.directory.entries ∧
        names ∈ placesOf options (places options levels) visit name node := by
  rw [places]
  split
  · rename_i hlong
    exact ⟨fun hmem => (List.not_mem_nil hmem).elim, fun h => absurd h.1 (Nat.not_le.mpr hlong)⟩
  · rename_i hshort
    simp only [List.mem_flatMap, mem_inOrder, Prod.exists]
    exact ⟨fun hmem => ⟨Nat.le_of_not_lt hshort, hmem⟩, And.right⟩

private theorem files_ofEntry {found : Visit → List WalkEvent} {inside : Visit → List (List Text)}
    (hinside : ∀ {visit depth}, visit.depth = depth + 1 →
      WalkEvent.files (found visit) = (inside visit).map (WalkedFile.below visit.path depth))
    {depth : Nat} (h : visit.depth = depth + 1) (name : Text) (node : Node) :
    WalkEvent.files (ofEntry options found visit name node) =
      (placesOf options inside visit name node).map (WalkedFile.below visit.path depth) := by
  rw [ofEntry_eq, placesOf]
  dsimp only
  cases lead options.followLinks visit name node with
  | file =>
    dsimp only
    split
    · simp [WalkEvent.files, WalkEvent.file?, WalkedFile.below, h]
    · rfl
  | directory inner =>
    dsimp only
    split
    · have hdepth : (visit.enter options (Path.join visit.path name) inner).depth = depth + 1 + 1 := by
        rw [Visit.depth_enter, h]
      have hbelow : WalkedFile.below visit.path depth ∘ (name :: ·) =
          WalkedFile.below (Path.join visit.path name) (depth + 1) := by
        funext names
        simp [WalkedFile.below, Nat.add_assoc, Nat.add_comm 1]
      rw [List.map_map, hbelow]
      exact hinside hdepth
    · rfl
  | failure cause | loop | nowhere => rfl

/-- A walk finds files at its places, in their order. -/
theorem files_ofDirectory (options : WalkOptions) (levels : Nat) {visit : Visit} {depth : Nat}
    (h : visit.depth = depth + 1) :
    WalkEvent.files (ofDirectory options levels visit) =
      (places options levels visit).map (WalkedFile.below visit.path depth) := by
  induction levels generalizing visit depth with
  | zero => rfl
  | succ levels ih =>
    rw [WalkEvent.files, ofDirectory, places]
    split
    · rfl
    · rw [List.filterMap_flatMap, List.map_flatMap]
      exact List.flatMap_congr fun entry _ => files_ofEntry ih h entry.1 entry.2

private theorem ne_nil_of_mem_places {levels : Nat} (h : names ∈ places options levels visit) :
    names ≠ [] := by
  cases levels with
  | zero => cases h
  | succ levels =>
    obtain ⟨-, name, node, -, hplace⟩ := mem_places.mp h
    rcases mem_placesOf.mp hplace with ⟨-, -, rfl⟩ | ⟨inner, rest, -, -, -, rfl⟩
    · exact List.cons_ne_nil _ _
    · exact List.cons_ne_nil _ _

/-- Each name on the way to a file is admitted where it stands: the last one as a file, the others as
directories. -/
theorem admitted_of_mem_places {levels : Nat} {front back : List Text}
    (h : front ++ name :: back ∈ places options levels visit) :
    ∃ last, Leads options visit front last ∧
      last.admits options name (Path.join last.path name) (!back.isEmpty) = true := by
  induction front generalizing levels visit with
  | nil =>
    cases levels with
    | zero => cases h
    | succ levels =>
      obtain ⟨-, first, node, -, hplace⟩ := mem_places.mp h
      rcases mem_placesOf.mp hplace with ⟨-, hadmits, heq⟩ | ⟨inner, rest, -, hadmits, hrest, heq⟩
      · cases heq
        exact ⟨visit, .here visit, hadmits⟩
      · cases heq
        have hback : back.isEmpty = false := List.isEmpty_eq_false_iff.mpr (ne_nil_of_mem_places hrest)
        rw [hback]
        exact ⟨visit, .here visit, hadmits⟩
  | cons first front ih =>
    cases levels with
    | zero => cases h
    | succ levels =>
      obtain ⟨-, other, node, hentry, hplace⟩ := mem_places.mp h
      rcases mem_placesOf.mp hplace with ⟨-, -, heq⟩ | ⟨inner, rest, hway, hadmits, hrest, heq⟩
      · simp at heq
      · obtain ⟨rfl, rfl⟩ := List.cons.inj heq
        obtain ⟨last, hleads, hlast⟩ := ih hrest
        exact ⟨last, .into hentry hway hadmits hleads, hlast⟩

theorem Leads.path_eq (h : Leads options visit names last) :
    last.path = names.foldl Path.join visit.path := by
  induction h with
  | here visit => rfl
  | into entry way admitted next ih => exact ih

theorem Leads.levels_eq_nil (h : Leads options visit names last) (hignore : options.gitIgnore = false)
    (hlevels : visit.levels = []) : last.levels = [] := by
  induction h with
  | here visit => exact hlevels
  | into entry way admitted next ih =>
    exact ih (Visit.levels_enter hignore hlevels _ _)

/-- The ignore files in force where a walk comes to are those it began with, and those of the directories
on its way. -/
theorem Leads.mem_levels (h : Leads options visit names last) {level : IgnoreLevel}
    (hlevel : level ∈ last.levels) :
    level ∈ visit.levels ∨ ∃ above between upper, above ++ between = names ∧
      Leads options visit above upper ∧ Leads options upper between last ∧
      level = .ofDirectory upper.path upper.directory := by
  induction h with
  | here visit => exact .inl hlevel
  | @into visit last name node inner names entry way admitted next ih =>
    rcases ih hlevel with hinner | ⟨above, between, upper, rfl, habove, hbetween, heq⟩
    · rcases List.mem_append.mp hinner with hown | houter
      · have heq : level = .ofDirectory (Path.join visit.path name) inner := by
          simp only [Visit.start] at hown
          split at hown
          · exact List.mem_singleton.mp hown
          · cases hown
        exact .inr ⟨[name], names, _, rfl, .into entry way admitted (.here _), next, heq⟩
      · exact .inl houter
    · exact .inr ⟨name :: above, between, upper, rfl, .into entry way admitted habove, hbetween, heq⟩

theorem shows_of_mem_places {levels : Nat} (hignore : options.gitIgnore = false)
    (hlevels : visit.levels = []) (h : names ∈ places options levels visit) :
    options.shows names = true := by
  refine List.all_eq_true.mpr fun name hname => ?_
  obtain ⟨front, back, rfl⟩ := List.append_of_mem hname
  obtain ⟨last, hleads, hadmits⟩ := admitted_of_mem_places h
  rwa [Visit.admits_of_levels (hleads.levels_eq_nil hignore hlevels)] at hadmits

private theorem filter_ite_sublist {α : Type} {p : α → Bool} {xs ys : List α} {a b : Bool}
    (h : b = true → (xs.filter p).Sublist ys) (hnone : ¬ b = true → xs.filter p = []) :
    ((if a then xs else []).filter p).Sublist (if b then ys else []) := by
  cases a with
  | false => exact List.nil_sublist _
  | true =>
    cases b with
    | false => exact (hnone Bool.false_ne_true).symm ▸ List.nil_sublist _
    | true => exact h rfl

private theorem filter_placesOf_sublist {plain : WalkOptions} (hignore : plain.gitIgnore = false)
    (hlinks : plain.followLinks = options.followLinks) {inside more : Visit → List (List Text)}
    (hinside : ∀ visit, ((inside visit).filter plain.shows).Sublist (more visit.bare)) (visit : Visit)
    (name : Text) (node : Node) :
    ((placesOf options inside visit name node).filter plain.shows).Sublist
      (placesOf plain more visit.bare name node) := by
  have hlead : lead plain.followLinks visit.bare name node = lead options.followLinks visit name node := by
    rw [hlinks]
    rfl
  unfold placesOf
  rw [hlead]
  cases lead options.followLinks visit name node with
  | file =>
    dsimp only
    rw [Visit.admits_bare]
    refine filter_ite_sublist (fun _ => List.filter_sublist) fun hshown => ?_
    simp [WalkOptions.shows, hshown]
  | directory inner =>
    dsimp only
    rw [Visit.admits_bare, ← Visit.bare_enter hignore]
    refine filter_ite_sublist (fun hshown => ?_) fun hshown => ?_
    · have hcons : plain.shows ∘ (name :: ·) = plain.shows := by
        funext names
        simp [hshown]
      rw [List.filter_map, hcons]
      exact (hinside _).map _
    · simp only [List.filter_eq_nil_iff, List.mem_map]
      rintro _ ⟨names, -, rfl⟩ hnames
      exact hshown (List.all_eq_true.mp hnames name List.mem_cons_self)
  | _ => exact List.Sublist.refl _

/-- Ignore files aside, more levels and more names only put more places between those there are. -/
theorem filter_places_sublist {plain : WalkOptions} (hignore : plain.gitIgnore = false)
    (hlinks : plain.followLinks = options.followLinks) {levels more : Nat} (hlevels : levels ≤ more)
    (visit : Visit) :
    ((places options levels visit).filter plain.shows).Sublist (places plain more visit.bare) := by
  induction levels generalizing more visit with
  | zero => exact List.nil_sublist _
  | succ levels ih =>
    obtain ⟨more, rfl⟩ := Nat.exists_eq_add_of_lt hlevels
    have hmore : levels ≤ levels + more := Nat.le_add_right levels more
    have hpath : visit.bare.path = visit.path := rfl
    rw [places, places, hpath]
    split
    · exact List.Sublist.refl _
    · rw [List.filter_flatMap]
      exact List.Sublist.flatMap_right _ fun entry _ =>
        filter_placesOf_sublist hignore hlinks (ih hmore) visit entry.1 entry.2

end Walk

/-- The places of the files that a walk finds, from its root on. A root that is a file is a place by
itself. -/
def Directory.places (here : Directory) (options : WalkOptions) (root : Text) : List (List Text) :=
  if Path.isStandardInput root then []
  else
    match here.resolve root with
    | .error _ => []
    | .ok (.file _) => [[]]
    | .ok (.directory directory) =>
      Walk.places options options.maxDepth (.start options root directory)

/-- Ignore files aside, more levels and more names only put more places between those there are. -/
theorem Directory.filter_places_sublist (here : Directory) (options plain : WalkOptions)
    (hignore : plain.gitIgnore = false) (hlinks : plain.followLinks = options.followLinks)
    (hdepth : options.maxDepth ≤ plain.maxDepth) (root : Text) :
    ((here.places options root).filter plain.shows).Sublist (here.places plain root) := by
  unfold Directory.places
  split
  · exact List.Sublist.refl _
  · rcases here.resolve root with cause | (content | directory)
    · exact List.Sublist.refl _
    · exact List.filter_sublist
    · dsimp only
      rw [← Visit.bare_start hignore]
      exact Walk.filter_places_sublist hignore hlinks hdepth _

/-- A file is found as the root itself, or inside the directory that the root is. -/
theorem Directory.mem_places_cases {here : Directory} {options : WalkOptions} {root : Text}
    {names : List Text} (h : names ∈ here.places options root) :
    names = [] ∨ ∃ directory, here.resolve root = .ok (.directory directory) ∧
      names ∈ Walk.places options options.maxDepth (.start options root directory) := by
  unfold Directory.places at h
  split at h
  · cases h
  · rcases hr : here.resolve root with cause | (content | directory)
    · rw [hr] at h
      cases h
    · rw [hr] at h
      exact .inl (List.mem_singleton.mp h)
    · rw [hr] at h
      exact .inr ⟨directory, rfl, h⟩

/-- Without ignore files a walk finds nothing under a name that it leaves out. -/
theorem Directory.shows_of_mem_places {here : Directory} {options : WalkOptions} {root : Text}
    {names : List Text} (hignore : options.gitIgnore = false) (h : names ∈ here.places options root) :
    options.shows names = true := by
  obtain rfl | ⟨directory, -, hmem⟩ := mem_places_cases h
  · rfl
  · exact Walk.shows_of_mem_places hignore (by simp [Visit.start, hignore]) hmem

theorem files_walk (here : Directory) (options : WalkOptions) (root : Text) :
    WalkEvent.files (here.walk options root) =
      (here.places options root).map (WalkedFile.below root 0) := by
  unfold Directory.walk Directory.places
  split
  · rfl
  · rcases here.resolve root with cause | (content | directory)
    · rfl
    · rfl
    · exact Walk.files_ofDirectory options options.maxDepth rfl

/-- Ignore files aside, more levels and more names only put more files between those there are. -/
theorem Directory.files_sublist (here : Directory) {options more : WalkOptions}
    (hignore : options.gitIgnore = false) (hmore : more.gitIgnore = false)
    (hlinks : more.followLinks = options.followLinks) (hdepth : options.maxDepth ≤ more.maxDepth)
    (hhidden : options.hidden = true → more.hidden = true) (root : Text) :
    (WalkEvent.files (here.walk options root)).Sublist (WalkEvent.files (here.walk more root)) := by
  have hshown : (here.places options root).filter more.shows = here.places options root := by
    refine List.filter_eq_self.mpr fun names hnames => WalkOptions.shows_iff.mpr ?_
    exact (WalkOptions.shows_iff.mp (shows_of_mem_places hignore hnames)).imp_left hhidden
  have hsublist := here.filter_places_sublist options more hmore hlinks hdepth root
  rw [hshown] at hsublist
  rw [files_walk here options root, files_walk here more root]
  exact hsublist.map _

end LineSearch
