import LineSearch.Proofs.Pattern.Boundary

/-! How a group body splits into branches. Main statement: the scan that finds the end of a group, the one
that splits its body, and those that read a branch by itself agree on every class and every group. -/
namespace LineSearch

namespace Bracket

def leading (pieces : List Text) : Text := pieces.flatMap (· ++ ['|'])

def trailing (pieces : List Text) : Text := pieces.flatMap ('|' :: ·)

private theorem joined_cons (piece : Text) (pieces : List Text) :
    joined (piece :: pieces) = piece ++ trailing pieces := by
  induction pieces generalizing piece with
  | nil => simp [joined, trailing]
  | cons next pieces ih =>
    have hj : joined (piece :: next :: pieces) = piece ++ '|' :: joined (next :: pieces) := by
      simp [joined, List.intersperse]
    rw [hj, ih]
    rfl

private theorem trailing_eq {pieces : List Text} (h : pieces ≠ []) :
    trailing pieces = '|' :: joined pieces := by
  cases pieces with
  | nil => exact absurd rfl h
  | cons piece pieces =>
    rw [joined_cons]
    rfl

private theorem joined_append_cons (left : List Text) (piece : Text) (right : List Text) :
    joined (left ++ piece :: right) = leading left ++ (piece ++ trailing right) := by
  induction left with
  | nil => exact joined_cons piece right
  | cons first left ih =>
    rw [List.cons_append, joined_cons, trailing_eq (by simp), ih]
    simp [leading]

/-- Every character but a bar stands in one of the pieces. -/
private theorem mem_joined {pieces : List Text} {front later : Text} {c : Char}
    (h : joined pieces = front ++ c :: later) (hc : c ≠ '|') :
    ∃ left piece right inside behind, pieces = left ++ piece :: right ∧
      piece = inside ++ c :: behind ∧ front = leading left ++ inside ∧
      later = behind ++ trailing right := by
  induction pieces generalizing front with
  | nil => simp [joined] at h
  | cons piece pieces ih =>
    rw [joined_cons] at h
    rcases List.append_eq_append_iff.mp h with ⟨more, rfl, hmore⟩ | ⟨more, rfl, hmore⟩
    · have hne : pieces ≠ [] := by
        rintro rfl
        simp [trailing] at hmore
      rw [trailing_eq hne] at hmore
      cases more with
      | nil => exact absurd (List.cons.inj hmore).1.symm hc
      | cons bar more =>
        obtain ⟨rfl, hlater⟩ := List.cons.inj hmore
        obtain ⟨left, next, right, inside, behind, rfl, rfl, rfl, rfl⟩ := ih hlater
        exact ⟨piece :: left, _, right, inside, behind, rfl, rfl, by simp [leading], rfl⟩
    · cases more with
      | nil =>
        cases pieces with
        | nil => simp [trailing] at hmore
        | cons next pieces => exact absurd (List.cons.inj hmore).1 hc
      | cons first behind =>
        obtain ⟨rfl, rfl⟩ := List.cons.inj hmore
        exact ⟨[], _, pieces, front, behind, rfl, rfl, rfl, rfl⟩

section Step
variable (depth : Nat) (rest : Text)

private theorem branchesFrom_close :
    branchesFrom (depth + 1) 0 (')' :: rest) = (branchesFrom depth 0 rest).modifyHead (')' :: ·) := by
  simp [branchesFrom]

private theorem branchesFrom_open :
    branchesFrom depth 0 ('(' :: rest) = (branchesFrom (depth + 1) 0 rest).modifyHead ('(' :: ·) := by
  simp [branchesFrom]

private theorem branchesFrom_bar : branchesFrom 0 0 ('|' :: rest) = [] :: branches rest := by
  simp [branchesFrom, branches]

private theorem branchesFrom_plain {c : Char} (hclose : c ≠ ')') (hopen : c ≠ '(')
    (hbar : ¬ (c = '|' ∧ depth = 0)) :
    branchesFrom depth 0 (c :: rest) =
      (branchesFrom depth (shield c rest) rest).modifyHead (c :: ·) := by
  rw [branchesFrom, if_neg hbar, if_neg hopen, if_neg hclose]

end Step

/-- The scan that splits a body carries the depth, as long as no group is closed too many. -/
private theorem branchesFrom_of_depthAfter {depth skip opened : Nat} {front : Text} (rest : Text)
    (h : depthAfter depth skip front rest = some opened) :
    ∃ left current, front = leading left ++ current ∧
      branchesFrom depth skip (front ++ rest) =
        left ++ (branchesFrom opened (skipAfter skip front rest) rest).modifyHead (current ++ ·) := by
  induction front generalizing depth skip with
  | nil =>
    cases h
    refine ⟨[], [], rfl, ?_⟩
    cases hb : branchesFrom opened skip rest <;> simp [skipAfter, hb]
  | cons c front ih =>
    have step {depth skip : Nat} (h : depthAfter depth skip front rest = some opened) :
        ∃ left current, c :: front = leading left ++ current ∧
          (branchesFrom depth skip (front ++ rest)).modifyHead (c :: ·) =
            left ++
              (branchesFrom opened (skipAfter skip front rest) rest).modifyHead (current ++ ·) := by
      obtain ⟨left, current, hfront, hb⟩ := ih h
      rw [hb, hfront]
      cases left with
      | nil =>
        refine ⟨[], c :: current, rfl, ?_⟩
        rw [List.nil_append, List.modifyHead_modifyHead]
        rfl
      | cons first left => exact ⟨(c :: first) :: left, current, rfl, rfl⟩
    cases skip with
    | succ skip => exact step h
    | zero =>
      rw [List.cons_append]
      by_cases hclose : c = ')'
      · subst hclose
        cases depth with
        | zero => cases h
        | succ outer =>
          rw [branchesFrom_close]
          exact step h
      by_cases hopen : c = '('
      · subst hopen
        rw [branchesFrom_open]
        exact step h
      simp only [depthAfter, if_neg hclose, if_neg hopen] at h
      by_cases hbar : c = '|' ∧ depth = 0
      · obtain ⟨rfl, rfl⟩ := hbar
        obtain ⟨left, current, rfl, hb⟩ := ih h
        refine ⟨[] :: left, current, rfl, ?_⟩
        rw [branchesFrom_bar, branches]
        exact congrArg ([] :: ·) hb
      · rw [branchesFrom_plain _ _ hclose hopen hbar]
        exact step h

/-- The first branch ends at the first bar outside of groups, classes and escapes. -/
private theorem branchesFrom_eq_cons {depth skip opened : Nat} {text branch : Text} {right : List Text}
    (h : branchesFrom depth skip text = branch :: right)
    (sound : depthAfter depth skip text [] = some opened) :
    (right = [] ∧ text = branch) ∨
      ∃ after, text = branch ++ '|' :: after ∧ branches after = right ∧
        Balanced depth skip branch ('|' :: after) := by
  induction text generalizing depth skip branch with
  | nil =>
    cases h
    exact .inl ⟨rfl, rfl⟩
  | cons c text ih =>
    have step {inner hidden : Nat}
        (hm : (branchesFrom inner hidden text).modifyHead (c :: ·) = branch :: right)
        (sound : depthAfter inner hidden text [] = some opened)
        (past : ∀ first after, text = first ++ '|' :: after →
          Balanced inner hidden first ('|' :: after) → Balanced depth skip (c :: first) ('|' :: after)) :
        (right = [] ∧ c :: text = branch) ∨
          ∃ after, c :: text = branch ++ '|' :: after ∧ branches after = right ∧
            Balanced depth skip branch ('|' :: after) := by
      rcases hb : branchesFrom inner hidden text with _ | ⟨first, others⟩
      · exact absurd hb (branchesFrom_ne_nil inner hidden text)
      · rw [hb] at hm
        obtain ⟨rfl, rfl⟩ := List.cons.inj hm
        rcases ih hb sound with ⟨rfl, rfl⟩ | ⟨after, hsplit, hafter, hbalanced⟩
        · exact .inl ⟨rfl, rfl⟩
        · refine .inr ⟨after, ?_, hafter, past first after hsplit hbalanced⟩
          rw [hsplit, List.cons_append]
    cases skip with
    | succ skip => exact step h sound fun _ _ _ => Balanced.past_shielded
    | zero =>
      by_cases hclose : c = ')'
      · subst hclose
        cases depth with
        | zero => cases sound
        | succ outer =>
          rw [branchesFrom_close] at h
          exact step h sound fun _ _ _ => Balanced.past_close
      by_cases hopen : c = '('
      · subst hopen
        rw [branchesFrom_open] at h
        exact step h sound fun _ _ _ => Balanced.past_open
      by_cases hbar : c = '|' ∧ depth = 0
      · obtain ⟨rfl, rfl⟩ := hbar
        rw [branchesFrom_bar] at h
        obtain ⟨rfl, rfl⟩ := List.cons.inj h
        exact .inr ⟨text, rfl, rfl, rfl, rfl⟩
      · rw [branchesFrom_plain _ _ hclose hopen hbar] at h
        simp only [depthAfter, if_neg hclose, if_neg hopen, List.append_nil] at sound
        refine step h sound fun first after hsplit hbalanced => ?_
        rw [hsplit] at hbalanced
        exact hbalanced.past_plain hclose hopen

/-- A balanced body splits into balanced branches, each of them a part that the scan of the body enters
and leaves unshielded. -/
theorem part_of_branch {body branch : Text} {left right : List Text} (h : Balanced 0 0 body [])
    (hb : branches body = left ++ branch :: right) :
    Part (leading left) branch (trailing right) ∧ Balanced 0 0 branch (trailing right) := by
  induction left generalizing body with
  | nil =>
    rcases branchesFrom_eq_cons hb h.closed with ⟨rfl, rfl⟩ | ⟨after, rfl, rfl, hbalanced⟩
    · exact ⟨⟨rfl, h.exposed⟩, h⟩
    · have hne : branches after ≠ [] := branchesFrom_ne_nil 0 0 after
      have htrailing : trailing (branches after) = '|' :: after := by
        rw [trailing_eq hne, joined_branches]
      rw [htrailing]
      exact ⟨⟨rfl, hbalanced.exposed⟩, hbalanced⟩
  | cons first left ih =>
    rcases branchesFrom_eq_cons hb h.closed with ⟨hnil, -⟩ | ⟨after, rfl, hafter, hfirst⟩
    · simp at hnil
    · have hbar : Balanced 0 0 ('|' :: after) [] := h.behind (by rwa [List.append_nil])
      have hrest : Balanced 0 0 after [] := ⟨hbar.exposed, hbar.closed⟩
      have hlater : branches after = left ++ branch :: right := hafter
      obtain ⟨part, hbranch⟩ := ih hrest hlater
      refine ⟨⟨?_, part.left⟩, hbranch⟩
      have hsplit : after = leading left ++ (branch ++ trailing right) := by
        rw [← joined_append_cons, ← hlater, joined_branches]
      have hleading : leading (first :: left) = first ++ '|' :: leading left := by
        simp [leading]
      rw [hleading, Exposed, skipAfter_append, List.cons_append, ← hsplit, hfirst.exposed]
      exact part.entered

end Bracket

/-- Around the part of a pattern text that is read token by token stand its anchors. -/
private theorem Pattern.source_eq (source : Text) : ∃ caret dollar,
    source = caret ++ (scanned source ++ dollar) ∧ (caret = [] ∨ caret = ['^']) ∧
      (dollar = [] ∨ dollar = ['$']) := by
  have hbody : ∃ caret, source = caret ++ body source ∧ (caret = [] ∨ caret = ['^']) := by
    cases source with
    | nil => exact ⟨[], rfl, .inl rfl⟩
    | cons c rest =>
      by_cases hc : c = '^'
      · subst hc
        exact ⟨['^'], rfl, .inr rfl⟩
      · exact ⟨[], by simp [body, offset, hc], .inl rfl⟩
  obtain ⟨caret, hsource, hcaret⟩ := hbody
  unfold scanned
  split
  · rename_i hends
    have hlast : (body source).getLast? = some '$' := by
      simp only [endsAnchored, Bool.and_eq_true, beq_iff_eq] at hends
      exact hends.1
    obtain ⟨text, htext⟩ := List.getLast?_eq_some_iff.mp hlast
    refine ⟨caret, ['$'], ?_, hcaret, .inr rfl⟩
    rw [htext, List.dropLast_concat, ← htext]
    exact hsource
  · exact ⟨caret, [], by rwa [List.append_nil], hcaret, .inl rfl⟩

namespace Bracket

/-- A branch by itself is read with every group of the body: no `(` that the scan of its tokens comes to
stands for itself. -/
theorem groupBody?_of_boundary {branch rest front later : Text} (h : Balanced 0 0 branch rest)
    (hscanned : Pattern.scanned branch = front ++ '(' :: later)
    (boundary : Lexeme.Boundary front ('(' :: later)) : ∃ body, groupBody? later = some body := by
  obtain ⟨caret, dollar, hbranch, hcaret, hdollar⟩ := Pattern.source_eq branch
  rw [hscanned] at hbranch
  have inside : skipAfter 0 (front ++ []) ('(' :: later) = 0 := by
    rw [List.append_nil]
    exact boundary.exposed (List.cons_ne_nil _ _)
  have hclosed : ']' ∈ '(' :: (later ++ dollar) → ']' ∈ '(' :: later := by
    rcases hdollar with rfl | rfl <;> simp
  have exposed : Exposed (caret ++ front) ('(' :: (later ++ dollar)) := by
    have behind := (scan_retail hclosed inside 0).1
    rw [List.append_nil] at inside
    rw [List.nil_append, List.nil_append, inside] at behind
    rcases hcaret with rfl | rfl <;> exact behind
  have hsplit : branch = (caret ++ front) ++ '(' :: (later ++ dollar) := by simp [hbranch]
  rw [hsplit] at h
  obtain ⟨body, hbody, -⟩ := groupBody?_of_balanced h exposed
  rcases hdollar with rfl | rfl
  · exact ⟨body, by rwa [List.append_nil] at hbody⟩
  · obtain ⟨tail, htail⟩ := groupBody?_eq_append hbody
    rcases List.eq_nil_or_concat' tail with rfl | ⟨more, last, rfl⟩
    · simpa using (List.append_inj' htail rfl).2
    · have hlast : later ++ ['$'] = (body ++ ')' :: more) ++ [last] := by simp [htail]
      obtain ⟨rfl, hdollar⟩ := List.append_inj' hlast rfl
      cases hdollar
      refine ⟨body, groupBody?_retail (List.mem_append_left ['$']) ?_⟩
      simpa using hbody

/-- The scans over a group body in front of the `)` that closes it, and over its branches by themselves, read
alike. -/
structure ScansAgree (body tail : Text) : Prop where
  /-- The scan for the end has a group open all the way to it, and none behind it. -/
  ends : depthAfter 0 0 ('(' :: body ++ [')']) tail = some 0 ∧
    ∀ front later, body = front ++ later → ∃ opened,
      depthAfter 0 0 ('(' :: front) (later ++ ')' :: tail) = some (opened + 1) ∧
      groupBody? (body ++ ')' :: tail) =
        (bodyFrom opened (skipAfter 0 front (later ++ ')' :: tail)) (later ++ ')' :: tail)).map
          (front ++ ·)
  /-- The scan that splits the body has a group open wherever it closes one, and none at its end. -/
  splits : depthAfter 0 0 body [] = some 0 ∧
    ∀ front later, body = front ++ later → ∃ opened left current,
      depthAfter 0 0 front later = some opened ∧ front = leading left ++ current ∧
      branches body =
        left ++ (branchesFrom opened (skipAfter 0 front later) later).modifyHead (current ++ ·) ∧
      (Exposed front later → later.head? = some ')' → 0 < opened)
  /-- Joined by bars, the branches are the body. -/
  joins : joined (branches body) = body
  /-- A class closes at the same place in the whole text, in the body and in its branch, or in none. -/
  classes : ∀ front later, body = front ++ '[' :: later → Exposed front ('[' :: later) →
    Exposed ('(' :: front) ('[' :: later ++ ')' :: tail) ∧
    classBody? (later ++ ')' :: tail) = classBody? later ∧
    ∃ left branch right inside behind, branches body = left ++ branch :: right ∧
      branch = inside ++ '[' :: behind ∧ front = leading left ++ inside ∧
      later = behind ++ trailing right ∧ Exposed inside ('[' :: behind) ∧
      classBody? later = classBody? behind
  /-- A group of a branch closes within the branch, at the same place as in the whole text. -/
  groups : ∀ left branch right, branches body = left ++ branch :: right →
    ∀ front later, branch = front ++ '(' :: later → Exposed front ('(' :: later) →
      Exposed ('(' :: leading left ++ front) ('(' :: later ++ (trailing right ++ ')' :: tail)) ∧
      ∃ inner, groupBody? later = some inner ∧
        groupBody? (later ++ (trailing right ++ ')' :: tail)) = some inner
  /-- Where a branch is compiled, every `(` that its tokens come to is read as a group. -/
  compiles : ∀ branch ∈ branches body, ∀ front later,
    Pattern.scanned branch = front ++ '(' :: later → Lexeme.Boundary front ('(' :: later) →
      ∃ inner, ∀ position, Lexeme.read position '(' later = (.group inner, inner.length + 1)

/-- Whatever follows a `(` that is closed, the scan for its end, the one that splits its body and those that
read a branch by itself agree. -/
theorem bracket_scans_agree (rest body : Text) (h : groupBody? rest = some body) :
    ∃ tail, rest = body ++ ')' :: tail ∧ ScansAgree body tail := by
  obtain ⟨tail, rfl, balanced⟩ := bodyFrom_eq_some.mp h
  have alone := balanced.alone
  have whole : Part ['('] body (')' :: tail) := ⟨rfl, balanced.exposed⟩
  refine ⟨tail, rfl, ?_⟩
  constructor
  case ends =>
    constructor
    · have closing : depthAfter 1 0 (body ++ [')']) tail = some 0 := by
        rw [depthAfter_append, List.singleton_append, balanced.exposed,
          depthAfter_add balanced.closed 1]
        rfl
      exact closing
    · rintro front later rfl
      rw [List.append_assoc]
      obtain ⟨opened, hopened, -⟩ := depthAfter_front balanced.closed
      exact ⟨opened, depthAfter_add hopened 1, bodyFrom_of_depthAfter _ hopened⟩
  case splits =>
    refine ⟨alone.closed, ?_⟩
    rintro front later rfl
    obtain ⟨opened, hopened, hlater⟩ := depthAfter_front alone.closed
    rw [List.append_nil] at hopened hlater
    obtain ⟨left, current, hfront, hb⟩ := branchesFrom_of_depthAfter later hopened
    refine ⟨opened, left, current, hopened, hfront, hb, ?_⟩
    intro exposed hhead
    rw [exposed] at hlater
    exact pos_of_close hlater hhead
  case joins => exact joined_branches body
  case classes =>
    rintro front later rfl exposed
    refine ⟨whole.exposed_iff.mpr exposed, whole.classBody?_eq exposed, ?_⟩
    obtain ⟨left, branch, right, inside, behind, hb, rfl, rfl, rfl⟩ :=
      mem_joined (joined_branches (front ++ '[' :: later)) (by decide)
    obtain ⟨part, -⟩ := part_of_branch alone hb
    have exposedInside : Exposed inside ('[' :: behind) := part.exposed_iff.mp exposed
    exact ⟨left, _, right, inside, behind, hb, rfl, rfl, rfl, exposedInside,
      part.classBody?_eq exposedInside⟩
  case groups =>
    rintro left branch right hb front later rfl exposed
    obtain ⟨part, inside⟩ := part_of_branch alone hb
    have hsplit : body = leading left ++ (front ++ '(' :: later ++ trailing right) := by
      rw [← joined_append_cons, ← hb, joined_branches]
    rw [hsplit] at whole
    have nested := whole.trans part
    refine ⟨nested.exposed_iff.mpr exposed, ?_⟩
    exact groupBody?_of_balanced (inside.alone.beside nested.left) exposed
  case compiles =>
    intro branch hbranch front later hscanned boundary
    obtain ⟨left, right, hb⟩ := List.append_of_mem hbranch
    obtain ⟨-, inside⟩ := part_of_branch alone hb
    obtain ⟨inner, hinner⟩ := groupBody?_of_boundary inside hscanned boundary
    exact ⟨inner, fun position => by simp [Lexeme.read, hinner]⟩

/-- Behind its `(`, the group of `(x[|)]|(\\)[y))z` splits at its second bar only. The escape keeps the inner
group open, which ends behind a class that nothing closes. -/
theorem bracket_scans_agree_on_open_class :
    branches ['x', '[', '|', ')', ']', '|', '(', '\\', ')', '[', 'y', ')'] =
      [['x', '[', '|', ')', ']'], ['(', '\\', ')', '[', 'y', ')']] ∧
    classBody? ['y', ')', ')', 'z'] = classBody? ['y', ')'] ∧
    ∃ inner, groupBody? ['\\', ')', '[', 'y', ')'] = some inner ∧
      groupBody? ['\\', ')', '[', 'y', ')', ')', 'z'] = some inner := by
  obtain ⟨tail, htail, agree⟩ := bracket_scans_agree
    ['x', '[', '|', ')', ']', '|', '(', '\\', ')', '[', 'y', ')', ')', 'z']
    ['x', '[', '|', ')', ']', '|', '(', '\\', ')', '[', 'y', ')'] rfl
  obtain rfl : ['z'] = tail := by simpa using htail
  have classes := agree.classes ['x', '[', '|', ')', ']', '|', '(', '\\', ')'] ['y', ')'] rfl rfl
  have groups := agree.groups [['x', '[', '|', ')', ']']] _ [] rfl [] ['\\', ')', '[', 'y', ')'] rfl rfl
  exact ⟨rfl, classes.2.1, groups.2⟩

end Bracket

end LineSearch
