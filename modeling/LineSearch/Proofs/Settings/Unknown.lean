import Mathlib.Data.List.Basic
import LineSearch.Proofs.Text.Lossy
import LineSearch.Settings

/-! Keys of a configuration file that mean nothing. Main statement: exactly these are reported, and what is
read does not depend on them. -/
namespace LineSearch.Settings

def knownValue (known : List Text) : Toml.Value → Toml.Value
  | .table entries => .table (entries.filter fun entry => known.contains entry.1)
  | value => value

/-- A table without the keys that mean nothing, at the top and in each section that is a table. -/
def knownPart (table : Toml.Table) : Toml.Table :=
  table.filterMap fun entry => (keysOf? entry.1).map fun known => (entry.1, knownValue known entry.2)

/-- The names of the keys that `knownPart` leaves out: at the top level, and with the section in front
below it. -/
inductive Unknown (table : Toml.Table) : Text → Prop where
  | top {name : Text} {value : Toml.Value} (member : (name, value) ∈ table)
      (meaningless : keysOf? name = none) : Unknown table name
  | inside {name key : Text} {entries : List (Text × Toml.Value)} {known : List Text}
      {value : Toml.Value} (member : (name, .table entries) ∈ table)
      (meaningful : keysOf? name = some known) (entry : (key, value) ∈ entries)
      (meaningless : key ∉ known) : Unknown table (name ++ '.' :: key)

variable {table : Toml.Table}

/-- A name is unknown by itself, or as a key of its table. -/
private theorem mem_unknownIn {name : Text} {value : Toml.Value} {unknown : Text} :
    unknown ∈ unknownIn name value ↔
      (keysOf? name = none ∧ unknown = name) ∨
        ∃ known entries key inner, keysOf? name = some known ∧ value = .table entries ∧
          (key, inner) ∈ entries ∧ key ∉ known ∧ unknown = name ++ '.' :: key := by
  unfold unknownIn
  rcases hkeys : keysOf? name with _ | known
  · simp
  · cases value with
    | table entries =>
      simp only [List.mem_map, List.mem_filter, Bool.not_eq_true', List.contains_eq_mem,
        decide_eq_false_iff_not]
      constructor
      · rintro ⟨key, ⟨⟨⟨key, inner⟩, hentry, rfl⟩, hnot⟩, rfl⟩
        exact .inr ⟨known, entries, key, inner, rfl, rfl, hentry, hnot, rfl⟩
      · rintro (⟨⟨⟩, -⟩ | ⟨_, _, key, inner, ⟨⟩, ⟨⟩, hentry, hnot, rfl⟩)
        exact ⟨key, ⟨⟨_, hentry, rfl⟩, hnot⟩, rfl⟩
    | _ => simp

theorem mem_unknownKeys {name : Text} : name ∈ unknownKeys table ↔ Unknown table name := by
  rw [unknownKeys, List.mem_eraseDups, List.mem_mergeSort, List.mem_flatMap]
  constructor
  · rintro ⟨⟨section_, value⟩, hmem, hunknown⟩
    rcases mem_unknownIn.mp hunknown with
      ⟨hnone, rfl⟩ | ⟨known, entries, key, inner, hsome, rfl, hkey, hnot, rfl⟩
    · exact .top hmem hnone
    · exact .inside hmem hsome hkey hnot
  · rintro (⟨hmem, hnone⟩ | ⟨hmem, hsome, hkey, hnot⟩)
    · exact ⟨_, hmem, mem_unknownIn.mpr (.inl ⟨hnone, rfl⟩)⟩
    · exact ⟨_, hmem, mem_unknownIn.mpr (.inr ⟨_, _, _, _, hsome, rfl, hkey, hnot, rfl⟩)⟩

/-- Leaving out repetitions keeps the order. -/
private theorem pairwise_eraseDups {α : Type} [BEq α] [LawfulBEq α] {R : α → α → Prop} {xs : List α}
    (h : xs.Pairwise R) : xs.eraseDups.Pairwise fun a b => R a b ∧ a ≠ b := by
  induction hlen : xs.length using Nat.strong_induction_on generalizing xs with
  | _ length ih =>
    subst hlen
    cases xs with
    | nil => simp
    | cons a rest =>
      obtain ⟨ha, hrest⟩ := List.pairwise_cons.mp h
      rw [List.eraseDups_cons]
      refine List.pairwise_cons.mpr ⟨fun b hb => ?_, ih _ ?_ (hrest.filter _) rfl⟩
      · obtain ⟨hmem, hne⟩ := List.mem_filter.mp (List.mem_eraseDups.mp hb)
        refine ⟨ha b hmem, ?_⟩
        rintro rfl
        simp at hne
      · exact Nat.lt_succ_of_le (List.length_filter_le _ _)

/-- Unknown keys are listed by their bytes, each once. -/
theorem pairwise_unknownKeys (table : Toml.Table) :
    (unknownKeys table).Pairwise fun a b => Utf8.encode a < Utf8.encode b := by
  have sorted := List.pairwise_mergeSort Utf8.le_trans Utf8.le_total
    (table.flatMap fun entry => unknownIn entry.1 entry.2)
  exact (pairwise_eraseDups sorted).imp fun h => Utf8.lt_of_le_of_ne h.1 h.2

private theorem not_unknown_knownPart (name : Text) : ¬Unknown (knownPart table) name := by
  intro h
  cases h with
  | top member meaningless =>
    obtain ⟨entry, -, hentry⟩ := List.mem_filterMap.mp member
    obtain ⟨known, hknown, heq⟩ := Option.map_eq_some_iff.mp hentry
    cases heq
    rw [hknown] at meaningless
    cases meaningless
  | inside member meaningful entry meaningless =>
    obtain ⟨⟨name, value⟩, -, hentry⟩ := List.mem_filterMap.mp member
    obtain ⟨known, hknown, heq⟩ := Option.map_eq_some_iff.mp hentry
    obtain ⟨rfl, hvalue⟩ := Prod.mk.inj heq
    rw [hknown] at meaningful
    cases meaningful
    cases value with
    | table entries =>
      cases hvalue
      have := (List.mem_filter.mp entry).2
      simp only [List.contains_iff_mem] at this
      exact meaningless this
    | _ => cases hvalue

section Reading

private theorem lookup_filter {keep : Text → Bool} {key : Text} (h : keep key = true)
    (entries : List (Text × Toml.Value)) :
    (entries.filter fun entry => keep entry.1).lookup key = entries.lookup key := by
  induction entries with
  | nil => rfl
  | cons entry rest ih =>
    obtain ⟨other, value⟩ := entry
    by_cases heq : key = other
    · subst heq
      rw [List.filter_cons_of_pos (by exact h), List.lookup_cons, List.lookup_cons, beq_self_eq_true]
    · have hne : (key == other) = false := beq_false_of_ne heq
      rw [List.lookup_cons, hne, ← ih, List.filter_cons]
      split
      · rw [List.lookup_cons, hne]
      · rfl

private theorem lookup_knownPart {name : Text} {known : List Text} (h : keysOf? name = some known)
    (table : Toml.Table) : (knownPart table).lookup name = (table.lookup name).map (knownValue known) := by
  induction table with
  | nil => rfl
  | cons entry rest ih =>
    obtain ⟨other, value⟩ := entry
    rw [knownPart, List.filterMap_cons]
    by_cases heq : name = other
    · subst heq
      simp [h]
    · have hne : (name == other) = false := beq_false_of_ne heq
      rw [List.lookup_cons, hne, ← ih]
      cases keysOf? other with
      | none => rfl
      | some known => simp [List.lookup_cons, hne, knownPart]

/-- A section whose keys all mean something is read alike from what is left of a table. -/
private theorem fields_knownPart (name : String) (keys : List String) {known : List Text}
    (h : keysOf? name.toList = some known) (hkeys : ∀ key ∈ keys, key.toList ∈ known)
    (table : Toml.Table) : fields name keys (knownPart table) = fields name keys table := by
  unfold fields
  rw [lookup_knownPart h]
  cases table.lookup name.toList with
  | none => rfl
  | some value =>
    cases value with
    | table entries =>
      simp only [Option.map_some, knownValue, Except.ok.injEq, List.map_inj_left]
      intro key hkey
      exact lookup_filter (by simpa using hkeys key hkey) entries
    | _ => rfl

/-- What is read of a table are its meaningful keys. -/
theorem ofTable_knownPart (table : Toml.Table) : ofTable (knownPart table) = ofTable table := by
  have engine := fields_knownPart "engine" ["max_recursion"] rfl (by decide) table
  have walk := fields_knownPart "walk" ["max_depth", "hidden", "git_ignore", "follow_links"] rfl
    (by decide) table
  have search := fields_knownPart "search" ["parallel"] rfl (by decide) table
  rw [ofTable, ofTable, recursionLimitOf, recursionLimitOf, walkOf, walkOf, parallelOf, parallelOf, engine,
    walk, search]

end Reading

/-- A key that means something can spoil the reading. -/
private theorem exists_ofTable_ne {name : String} {keys : List String} (h : (name, keys) ∈ sections) :
    ∀ key ∈ keys, ∃ value, ofTable [(name.toList, .table [(key.toList, value)])] ≠ ofTable [] := by
  intro key hkey
  refine ⟨.string [], ?_⟩
  simp only [sections, List.mem_cons, List.not_mem_nil, or_false, Prod.mk.injEq] at h
  rcases h with ⟨rfl, rfl⟩ | ⟨rfl, rfl⟩ | ⟨rfl, rfl⟩
  · cases List.mem_singleton.mp hkey
    nofun
  · simp only [List.mem_cons, List.not_mem_nil, or_false] at hkey
    rcases hkey with rfl | rfl | rfl | rfl <;> nofun
  · cases List.mem_singleton.mp hkey
    nofun

/-- The keys reported as unknown are those that the known part of a table leaves out, in order and each once,
so that none is reported of the known part. They have no effect on what is read, whatever their values are
and whether it is settings or a fault; every other key has. -/
theorem unknown_keys_are_inert :
    (∀ table name, name ∈ unknownKeys table ↔ Unknown table name) ∧
    (∀ table, (unknownKeys table).Pairwise fun a b => Utf8.encode a < Utf8.encode b) ∧
    (∀ table, unknownKeys (knownPart table) = []) ∧
    (∀ table, ofTable (knownPart table) = ofTable table) ∧
    (∀ name keys, (name, keys) ∈ sections → ∀ key ∈ keys,
      ∃ value, ofTable [(name.toList, .table [(key.toList, value)])] ≠ ofTable []) ∧
    (∀ path text text' table, Toml.parse text = some table → Toml.parse text' = some (knownPart table) →
      (parse path text).unknownKeys = unknownKeys table ∧ (parse path text').unknownKeys = [] ∧
        (parse path text).settings = (parse path text').settings) := by
  have nothing (table : Toml.Table) : unknownKeys (knownPart table) = [] := by
    rw [List.eq_nil_iff_forall_not_mem]
    exact fun name hname => not_unknown_knownPart name (mem_unknownKeys.mp hname)
  refine ⟨fun _ _ => mem_unknownKeys, pairwise_unknownKeys, nothing, ofTable_knownPart,
    fun _ _ => exists_ofTable_ne, ?_⟩
  intro path text text' table htext htext'
  simp only [parse, htext, htext', nothing, ofTable_knownPart, and_self]

/-- The document `walk={x=1}` with a line `y=[]` behind it reads as `walk={}` does. Both its unknown keys are
reported. -/
theorem unknown_keys_with_section :
    let text : Text := ['w', 'a', 'l', 'k', '=', '{', 'x', '=', '1', '}', '\n', 'y', '=', '[', ']']
    let known : Text := ['w', 'a', 'l', 'k', '=', '{', '}']
    (parse [] text).unknownKeys = [['w', 'a', 'l', 'k', '.', 'x'], ['y']] ∧
      (parse [] known).unknownKeys = [] ∧ (parse [] text).settings = (parse [] known).settings ∧
      (parse [] known).settings = .ok {} ∧
      ∃ value, ofTable [("walk".toList, .table [("hidden".toList, value)])] ≠ ofTable [] := by
  intro text known
  obtain ⟨-, -, -, -, matters, parses⟩ := unknown_keys_are_inert
  let table : Toml.Table :=
    [(['w', 'a', 'l', 'k'], .table [(['x'], .integer 1)]), (['y'], .array [])]
  have htext : Toml.parse text = some table := rfl
  have hknown : Toml.parse known = some (knownPart table) := rfl
  obtain ⟨reported, nothing, same⟩ := parses [] text known table htext hknown
  refine ⟨reported.trans ?_, nothing, same, ?_, matters "walk" _ (.tail _ (.head _)) "hidden" (by decide)⟩
  · rw [unknownKeys, List.mergeSort_of_pairwise (by decide)]
    rfl
  · rw [parse, hknown]
    rfl

end LineSearch.Settings
