import LineSearch.Proofs.Pattern.Relexing

/-! What the scans over brackets see. All of them walk through a text alike, past escapes and closed
classes, and count the groups that are open. Main statements: the body of a group is balanced, and stands
in front of the first `)` too many; a part of a text that the scan enters and leaves unshielded is scanned
alike without what surrounds it. -/
namespace LineSearch.Bracket

/-- How many characters of `rest` are shielded once a scan of `front ++ rest` has passed `front`. At its
start `skip` characters are shielded. -/
def skipAfter : (skip : Nat) → (front rest : Text) → Nat
  | skip, [], _ => skip
  | skip + 1, _ :: front, rest => skipAfter skip front rest
  | 0, c :: front, rest => skipAfter (shield c (front ++ rest)) front rest

/-- How many groups are open then, of which `depth` were at the start. There is no such number if the scan
comes to a `)` with no group open. -/
def depthAfter : (depth skip : Nat) → (front rest : Text) → Option Nat
  | depth, _, [], _ => some depth
  | depth, skip + 1, _ :: front, rest => depthAfter depth skip front rest
  | depth, 0, c :: front, rest =>
    if c = ')' then
      match depth with
      | 0 => none
      | outer + 1 => depthAfter outer 0 front rest
    else if c = '(' then depthAfter (depth + 1) 0 front rest
    else depthAfter depth (shield c (front ++ rest)) front rest

def Exposed (front rest : Text) : Prop := skipAfter 0 front rest = 0

/-- The scan of `text ++ rest` leaves `text` unshielded, and has closed the groups that were open before
and all that it has opened, but never one too many. -/
structure Balanced (depth skip : Nat) (text rest : Text) : Prop where
  exposed : skipAfter skip text rest = 0
  closed : depthAfter depth skip text rest = some 0

section Append
variable (depth skip : Nat) (front more rest : Text)

theorem skipAfter_append :
    skipAfter skip (front ++ more) rest =
      skipAfter (skipAfter skip front (more ++ rest)) more rest := by
  induction front generalizing skip with
  | nil => simp [skipAfter]
  | cons c front ih => cases skip <;> simp only [List.cons_append, skipAfter, ih, List.append_assoc]

theorem depthAfter_append :
    depthAfter depth skip (front ++ more) rest =
      (depthAfter depth skip front (more ++ rest)).bind fun opened =>
        depthAfter opened (skipAfter skip front (more ++ rest)) more rest := by
  induction front generalizing depth skip with
  | nil => simp [skipAfter, depthAfter]
  | cons c front ih =>
    cases skip with
    | succ skip => simp only [List.cons_append, skipAfter, depthAfter, ih]
    | zero =>
      simp only [List.cons_append, skipAfter, depthAfter, ih, List.append_assoc]
      split_ifs with hclose hopen
      · subst hclose
        cases depth <;> rfl
      · subst hopen
        rfl
      · rfl

end Append

/-- A scan that closes no group too many has closed none too many on its way. -/
theorem depthAfter_front {depth skip closed : Nat} {front more rest : Text}
    (h : depthAfter depth skip (front ++ more) rest = some closed) :
    ∃ opened, depthAfter depth skip front (more ++ rest) = some opened ∧
      depthAfter opened (skipAfter skip front (more ++ rest)) more rest = some closed := by
  rw [depthAfter_append] at h
  exact Option.bind_eq_some_iff.mp h

/-- A group is open wherever such a scan closes one. -/
theorem pos_of_close {opened closed : Nat} {later rest : Text}
    (h : depthAfter opened 0 later rest = some closed) (hhead : later.head? = some ')') : 0 < opened := by
  cases later with
  | nil => cases hhead
  | cons c later =>
    cases hhead
    cases opened with
    | zero => cases h
    | succ outer => exact Nat.succ_pos outer

/-- Groups that were open before and are not closed stay open. -/
theorem depthAfter_add {depth skip opened : Nat} {front rest : Text}
    (h : depthAfter depth skip front rest = some opened) (outer : Nat) :
    depthAfter (depth + outer) skip front rest = some (opened + outer) := by
  induction front generalizing depth skip with
  | nil =>
    cases h
    rfl
  | cons c front ih =>
    cases skip with
    | succ skip => exact ih h
    | zero =>
      simp only [depthAfter] at h ⊢
      split_ifs at h ⊢ with hclose hopen
      · cases depth with
        | zero => cases h
        | succ depth =>
          rw [Nat.add_right_comm]
          exact ih h
      · rw [Nat.add_right_comm]
        exact ih h
      · exact ih h

theorem skipAfter_length (front rest : Text) : skipAfter front.length front rest = 0 := by
  induction front with
  | nil => rfl
  | cons c front ih => exact ih

private theorem skip_le_of_skipAfter {skip : Nat} {front rest : Text} (h : skipAfter skip front rest = 0) :
    skip ≤ front.length := by
  induction front generalizing skip with
  | nil => exact Nat.le_of_eq h
  | cons c front ih =>
    cases skip with
    | zero => exact Nat.zero_le _
    | succ skip => exact Nat.succ_le_succ (ih h)

/-- A scan that leaves a text unshielded sees the same in it in front of another text, unless that text
closes a class which is left open. -/
theorem scan_retail {rest other : Text} (hclosed : ']' ∈ other → ']' ∈ rest) {skip : Nat}
    {front more : Text} (h : skipAfter skip (front ++ more) rest = 0) (depth : Nat) :
    skipAfter skip front (more ++ other) = skipAfter skip front (more ++ rest) ∧
      depthAfter depth skip front (more ++ other) = depthAfter depth skip front (more ++ rest) := by
  induction front generalizing depth skip with
  | nil => exact ⟨rfl, rfl⟩
  | cons c front ih =>
    cases skip with
    | succ skip => exact ih h depth
    | zero =>
      simp only [List.cons_append, skipAfter, depthAfter] at h ⊢
      -- What `c` shields ends within the text, so it does not depend on what is behind.
      have hshield := shield_retail c hclosed (skip_le_of_skipAfter h)
      simp only [List.append_assoc] at hshield h
      rw [hshield]
      refine ⟨(ih h depth).1, ?_⟩
      split_ifs with hclose hopen
      · subst hclose
        cases depth with
        | zero => rfl
        | succ outer => exact (ih h outer).2
      · subst hopen
        exact (ih h (depth + 1)).2
      · exact (ih h depth).2

/-- A scan that leaves a text unshielded sees the same in it with nothing behind. -/
private theorem scan_alone {skip : Nat} {front more rest : Text}
    (h : skipAfter skip (front ++ more) rest = 0) (depth : Nat) :
    skipAfter skip front more = skipAfter skip front (more ++ rest) ∧
      depthAfter depth skip front more = depthAfter depth skip front (more ++ rest) := by
  have same := scan_retail (List.not_mem_nil.elim ·) h depth
  rwa [List.append_nil] at same

/-- The case of a whole text. -/
private theorem depthAfter_alone {skip : Nat} {text rest : Text} (h : skipAfter skip text rest = 0)
    (depth : Nat) : depthAfter depth skip text [] = depthAfter depth skip text rest := by
  rw [← List.append_nil text] at h
  exact (scan_alone h depth).2

/-- What is balanced in front of a text is so by itself. -/
theorem Balanced.alone {depth skip : Nat} {text rest : Text} (h : Balanced depth skip text rest) :
    Balanced depth skip text [] := by
  have left : skipAfter skip (text ++ []) rest = 0 := by
    rw [List.append_nil]
    exact h.exposed
  exact ⟨(scan_alone left depth).1.trans h.exposed, (depthAfter_alone h.exposed depth).trans h.closed⟩

/-- What is balanced by itself is so in front of every text for which it leaves the scan unshielded. -/
theorem Balanced.beside {depth skip : Nat} {text rest : Text} (h : Balanced depth skip text [])
    (left : skipAfter skip text rest = 0) : Balanced depth skip text rest :=
  ⟨left, (depthAfter_alone left depth).symm.trans h.closed⟩

/-- What follows a balanced front within a balanced text is balanced. -/
theorem Balanced.behind {depth skip : Nat} {front more rest : Text}
    (h : Balanced depth skip (front ++ more) rest) (hfront : Balanced depth skip front (more ++ rest)) :
    Balanced 0 0 more rest := by
  obtain ⟨exposed, closed⟩ := h
  rw [skipAfter_append, hfront.exposed] at exposed
  rw [depthAfter_append, hfront.exposed, hfront.closed] at closed
  exact ⟨exposed, closed⟩

section Past
variable {depth skip : Nat} {text rest : Text}

theorem Balanced.past_shielded {c : Char} (h : Balanced depth skip text rest) :
    Balanced depth (skip + 1) (c :: text) rest :=
  ⟨h.exposed, h.closed⟩

theorem Balanced.past_close (h : Balanced depth 0 text rest) :
    Balanced (depth + 1) 0 (')' :: text) rest :=
  ⟨h.exposed, h.closed⟩

theorem Balanced.past_open (h : Balanced (depth + 1) 0 text rest) : Balanced depth 0 ('(' :: text) rest :=
  ⟨h.exposed, h.closed⟩

theorem Balanced.past_plain {c : Char} (hclose : c ≠ ')') (hopen : c ≠ '(')
    (h : Balanced depth (shield c (text ++ rest)) text rest) : Balanced depth 0 (c :: text) rest := by
  refine ⟨h.exposed, ?_⟩
  simp only [depthAfter, if_neg hclose, if_neg hopen]
  exact h.closed

end Past

/-- The scan for the end of a group carries the depth, as long as it does not come to that end. -/
theorem bodyFrom_of_depthAfter {depth skip opened : Nat} {front : Text} (rest : Text)
    (h : depthAfter depth skip front rest = some opened) :
    bodyFrom depth skip (front ++ rest) =
      (bodyFrom opened (skipAfter skip front rest) rest).map (front ++ ·) := by
  induction front generalizing depth skip with
  | nil =>
    cases h
    simp [skipAfter]
  | cons c front ih =>
    have step {depth skip : Nat} (h : depthAfter depth skip front rest = some opened) :
        (bodyFrom depth skip (front ++ rest)).map (c :: ·) =
          (bodyFrom opened (skipAfter skip front rest) rest).map (c :: front ++ ·) := by
      rw [ih h, Option.map_map]
      rfl
    cases skip with
    | succ skip => exact step h
    | zero =>
      simp only [List.cons_append, bodyFrom, skipAfter, depthAfter] at h ⊢
      split_ifs at h ⊢ with hclose hopen
      · cases depth with
        | zero => cases h
        | succ outer =>
          subst hclose
          exact step h
      · subst hopen
        exact step h
      · exact step h

/-- A scan that finds no end closes no group too many. -/
private theorem depthAfter_of_bodyFrom {depth skip : Nat} {text : Text}
    (h : bodyFrom depth skip text = none) : ∃ opened, depthAfter depth skip text [] = some opened := by
  induction text generalizing depth skip with
  | nil => exact ⟨depth, rfl⟩
  | cons c text ih =>
    cases skip with
    | succ skip => exact ih (Option.map_eq_none_iff.mp h)
    | zero =>
      simp only [bodyFrom, depthAfter, List.append_nil] at h ⊢
      split_ifs at h ⊢ with hclose hopen
      · cases depth with
        | zero => cases h
        | succ outer => exact ih (Option.map_eq_none_iff.mp h)
      · exact ih (Option.map_eq_none_iff.mp h)
      · exact ih (Option.map_eq_none_iff.mp h)

/-- The body that a scan finds is balanced. -/
theorem balanced_of_bodyFrom {depth skip : Nat} {body tail : Text}
    (h : bodyFrom depth skip (body ++ ')' :: tail) = some body) :
    Balanced depth skip body (')' :: tail) := by
  induction body generalizing depth skip with
  | nil =>
    cases skip with
    | succ skip => simp [bodyFrom] at h
    | zero =>
      cases depth with
      | zero => exact ⟨rfl, rfl⟩
      | succ outer => simp [bodyFrom] at h
  | cons c body ih =>
    have step {depth skip : Nat}
        (hm : (bodyFrom depth skip (body ++ ')' :: tail)).map (c :: ·) = some (c :: body)) :
        Balanced depth skip body (')' :: tail) := by
      obtain ⟨inner, hi, heq⟩ := Option.map_eq_some_iff.mp hm
      rw [List.tail_eq_of_cons_eq heq] at hi
      exact ih hi
    cases skip with
    | succ skip => exact (step h).past_shielded
    | zero =>
      simp only [List.cons_append, bodyFrom] at h
      split_ifs at h with hclose hopen
      · subst hclose
        cases depth with
        | zero => cases h
        | succ outer => exact (step h).past_close
      · subst hopen
        exact (step h).past_open
      · exact (step h).past_plain hclose hopen

/-- A group ends at the first `)` too many. -/
theorem bodyFrom_eq_some {depth skip : Nat} {text body : Text} :
    bodyFrom depth skip text = some body ↔
      ∃ tail, text = body ++ ')' :: tail ∧ Balanced depth skip body (')' :: tail) := by
  constructor
  · intro h
    obtain ⟨tail, rfl⟩ := bodyFrom_eq_append h
    exact ⟨tail, rfl, balanced_of_bodyFrom h⟩
  · rintro ⟨tail, rfl, exposed, closed⟩
    rw [bodyFrom_of_depthAfter _ closed, exposed]
    simp [bodyFrom]

/-- A group that closes within a text closes at the same bracket with more behind the text, if the scan
leaves the text unshielded. -/
private theorem bodyFrom_widen {depth skip : Nat} {text rest body : Text}
    (left : skipAfter skip text rest = 0)
    (h : bodyFrom depth skip text = some body) : bodyFrom depth skip (text ++ rest) = some body := by
  obtain ⟨tail, rfl, exposed, closed⟩ := bodyFrom_eq_some.mp h
  obtain ⟨hskip, hdepth⟩ := scan_alone left depth
  refine bodyFrom_eq_some.mpr ⟨tail ++ rest, by simp, ?_, ?_⟩
  · exact hskip.symm.trans exposed
  · exact hdepth.symm.trans closed

structure Part (before text after : Text) : Prop where
  entered : Exposed before (text ++ after)
  left : Exposed text after

namespace Part
variable {before text after front later : Text}

/-- The scan takes the same steps in a part as it does in the whole. -/
private theorem skipAfter_eq (h : Part before (front ++ later) after) :
    skipAfter 0 (before ++ front) (later ++ after) = skipAfter 0 front later := by
  have entered : skipAfter 0 before (front ++ (later ++ after)) = 0 := by
    simpa [Exposed] using h.entered
  rw [skipAfter_append, entered, (scan_alone h.left 0).1]

theorem exposed_iff (h : Part before (front ++ later) after) :
    Exposed (before ++ front) (later ++ after) ↔ Exposed front later := by
  rw [Exposed, Exposed, h.skipAfter_eq]

/-- A part of a part. -/
theorem trans {outer beyond : Text} (h : Part outer (before ++ (text ++ after)) beyond)
    (inner : Part before text after) : Part (outer ++ before) text (after ++ beyond) := by
  have entered : Exposed (outer ++ before) (text ++ after ++ beyond) :=
    h.exposed_iff.mpr inner.entered
  rw [List.append_assoc] at entered
  refine ⟨entered, ?_⟩
  have hleft : Exposed (outer ++ (before ++ text)) (after ++ beyond) := by
    rw [← List.append_assoc before] at h
    refine h.exposed_iff.mpr ?_
    rw [Exposed, skipAfter_append, inner.entered]
    exact inner.left
  rw [Exposed, ← List.append_assoc, skipAfter_append, entered] at hleft
  exact hleft

/-- A class closes at the same place in a part as in the whole, or in neither. -/
theorem classBody?_eq (h : Part before (front ++ '[' :: later) after)
    (exposed : Exposed front ('[' :: later)) : classBody? (later ++ after) = classBody? later := by
  have entered := (scan_alone h.left 0).1
  have left := h.left
  rw [exposed] at entered
  rw [Exposed, skipAfter_append, ← entered] at left
  have short : shield '[' (later ++ after) ≤ later.length := skip_le_of_skipAfter left
  rcases hclass : classBody? (later ++ after) with _ | body
  · rw [classBody?_eq_none, List.mem_append, not_or] at hclass
    exact (classBody?_eq_none.mpr hclass.1).symm
  · obtain ⟨hbody, tail, hsplit⟩ := classBody?_eq_some hclass
    have hlength : (body ++ [']']).length ≤ later.length := by
      simpa [shield, hclass] using short
    have hprefix : body ++ [']'] <+: later := by
      refine List.prefix_of_prefix_length_le ?_ (List.prefix_append later after) hlength
      rw [hsplit]
      exact ⟨tail, by simp⟩
    obtain ⟨more, rfl⟩ := hprefix
    simpa using (classBody?_append hbody more).symm

end Part

/-- In a balanced text every group closes, at the same bracket with more behind the text. -/
theorem groupBody?_of_balanced {front later rest : Text} (h : Balanced 0 0 (front ++ '(' :: later) rest)
    (exposed : Exposed front ('(' :: later)) :
    ∃ body, groupBody? later = some body ∧ groupBody? (later ++ rest) = some body := by
  obtain ⟨hleft, hclosed⟩ := h
  have entered := (scan_alone hleft 0).1
  rw [exposed] at entered
  rw [skipAfter_append, ← entered] at hleft
  obtain ⟨opened, -, hopened⟩ := depthAfter_front hclosed
  rw [← entered] at hopened
  have behind : skipAfter 0 later rest = 0 := hleft
  have alone : depthAfter (opened + 1) 0 later [] = some 0 :=
    (depthAfter_alone behind (opened + 1)).trans hopened
  rcases hbody : groupBody? later with _ | body
  · obtain ⟨more, hmore⟩ := depthAfter_of_bodyFrom hbody
    have stillOpen := depthAfter_add hmore (opened + 1)
    rw [Nat.zero_add, alone] at stillOpen
    cases stillOpen
  · exact ⟨body, rfl, bodyFrom_widen behind hbody⟩

end LineSearch.Bracket
