import LineSearch.FileSystem

/-! Paths spelled on from a directory's path by names: the names can be read back. -/
namespace LineSearch.Path

def IsName (name : Text) : Prop := name ≠ [] ∧ '/' ∉ name

variable {directory name : Text}

private theorem components_ne_nil (path : Text) : components path ≠ [] := by
  cases path with
  | nil => exact List.cons_ne_nil _ _
  | cons c rest =>
    unfold components
    split
    · exact List.cons_ne_nil _ _
    · split <;> exact List.cons_ne_nil _ _

private theorem components_cons_of_ne {c : Char} (hc : c ≠ '/') {rest name : Text} {names : List Text}
    (h : components rest = name :: names) : components (c :: rest) = (c :: name) :: names := by
  rw [components, if_neg hc, h]

private theorem components_append_slash (front back : Text) :
    components (front ++ '/' :: back) = components front ++ components back := by
  induction front with
  | nil => rfl
  | cons c rest ih =>
    rw [List.cons_append]
    by_cases hc : c = '/'
    · rw [components, components, if_pos hc, if_pos hc, ih, List.cons_append]
    · obtain ⟨name, names, hrest⟩ := List.exists_cons_of_ne_nil (components_ne_nil rest)
      rw [hrest] at ih
      rw [components_cons_of_ne hc hrest, components_cons_of_ne hc ih]
      rfl

private theorem components_of_notMem (h : '/' ∉ name) : components name = [name] := by
  induction name with
  | nil => rfl
  | cons c rest ih =>
    obtain ⟨hc, hrest⟩ := not_or.mp fun hmem => h (List.mem_cons.mpr hmem)
    exact components_cons_of_ne (Ne.symm hc) (ih hrest)

/-- The pieces of a path, without the empty one after a slash at its end. -/
def pieces (path : Text) : List Text :=
  if path.getLast? = some '/' then components path.dropLast else components path

theorem components_join (hdirectory : directory ≠ []) (hname : '/' ∉ name) :
    components (join directory name) = pieces directory ++ [name] := by
  unfold join pieces
  by_cases hslash : directory.getLast? = some '/'
  · obtain ⟨front, rfl⟩ := List.getLast?_eq_some_iff.mp hslash
    rw [if_pos (.inr hslash), if_pos hslash, List.dropLast_concat, List.append_assoc]
    exact (components_append_slash front name).trans (by rw [components_of_notMem hname])
  · rw [if_neg (not_or.mpr ⟨hdirectory, hslash⟩), if_neg hslash, components_append_slash,
      components_of_notMem hname]

private theorem join_ne_nil (h : directory ≠ []) : join directory name ≠ [] := by
  unfold join
  split <;> simp [h]

private theorem getLast?_join (hname : IsName name) : (join directory name).getLast? ≠ some '/' := by
  have hlast (front : Text) : (front ++ name).getLast? ≠ some '/' := by
    rw [List.getLast?_append, List.getLast?_eq_some_getLast hname.1, Option.some_or]
    exact fun h => hname.2 (Option.some_inj.mp h ▸ List.getLast_mem hname.1)
  unfold join
  split
  · exact hlast directory
  · rw [List.append_cons]
    exact hlast (directory ++ ['/'])

private theorem pieces_join (hdirectory : directory ≠ []) (hname : IsName name) :
    pieces (join directory name) = pieces directory ++ [name] := by
  rw [pieces, if_neg (getLast?_join hname), components_join hdirectory hname.2]

private theorem pieces_foldl_join (hdirectory : directory ≠ []) {names : List Text}
    (h : ∀ name ∈ names, IsName name) :
    pieces (names.foldl join directory) = pieces directory ++ names := by
  induction names generalizing directory with
  | nil => exact (List.append_nil _).symm
  | cons name names ih =>
    obtain ⟨hname, hnames⟩ := List.forall_mem_cons.mp h
    rw [List.foldl_cons, ih (join_ne_nil hdirectory) hnames, pieces_join hdirectory hname,
      List.append_assoc, List.singleton_append]

/-- Different names lead to different paths. -/
theorem foldl_join_injective (hdirectory : directory ≠ []) {names others : List Text}
    (hnames : ∀ name ∈ names, IsName name) (hothers : ∀ name ∈ others, IsName name)
    (h : names.foldl join directory = others.foldl join directory) : names = others := by
  have hpieces := pieces_foldl_join hdirectory hnames
  rw [h, pieces_foldl_join hdirectory hothers] at hpieces
  exact (List.append_cancel_left hpieces).symm

end LineSearch.Path
