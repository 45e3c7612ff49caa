import LineSearch.Pattern.Parser
import LineSearch.Proofs.Pattern.Brackets

/-! How tokens are put together from lexemes, as a relation, and a pattern from its tokens. -/
namespace LineSearch

private theorem map_eq_ok {ε α β : Type} {f : α → β} {x : Except ε α} {b : β} :
    x.map f = .ok b ↔ ∃ a, x = .ok a ∧ f a = b := by
  cases x <;> simp [Except.map]

namespace TokenKind

/-- The tokens of a list of lexemes that compiles. A suffix belongs to the atom or group before it,
and literals that meet are one token. -/
inductive Assembled : List Lexeme → List TokenKind → Prop where
  | nil : Assembled [] []
  | repeatedAtom (atom : Atom) (suffix : Suffix) (position : Nat) {rest : List Lexeme}
      {kinds : List TokenKind} (next : Assembled rest kinds) :
      Assembled (.atom atom :: .suffix suffix position :: rest) (ofRepeated atom suffix :: kinds)
  | repeatedGroup (body : Text) (suffix : Suffix) (position : Nat) {rest : List Lexeme}
      {kinds : List TokenKind} (next : Assembled rest kinds) :
      Assembled (.group body :: .suffix suffix position :: rest)
        (ofGroup body (some suffix) :: kinds)
  | bareAtom (atom : Atom) {rest : List Lexeme} {kinds : List TokenKind}
      (bare : ∀ suffix position tail, rest ≠ .suffix suffix position :: tail)
      (next : Assembled rest kinds) :
      Assembled (.atom atom :: rest) ((ofAtom atom).join kinds)
  | bareGroup (body : Text) {rest : List Lexeme} {kinds : List TokenKind}
      (bare : ∀ suffix position tail, rest ≠ .suffix suffix position :: tail)
      (next : Assembled rest kinds) :
      Assembled (.group body :: rest) (ofGroup body none :: kinds)

theorem ofLexemes_atom {previous : Option TokenKind} {atom : Atom} {rest : List Lexeme}
    (bare : ∀ suffix position tail, rest ≠ .suffix suffix position :: tail) :
    ofLexemes previous (.atom atom :: rest) =
      (ofLexemes (some (ofAtom atom)) rest).map (ofAtom atom).join := by
  rw [ofLexemes.eq_def]
  split <;> simp_all

theorem ofLexemes_group {previous : Option TokenKind} {body : Text} {rest : List Lexeme}
    (bare : ∀ suffix position tail, rest ≠ .suffix suffix position :: tail) :
    ofLexemes previous (.group body :: rest) =
      (ofLexemes (some (ofGroup body none)) rest).map (ofGroup body none :: ·) := by
  rw [ofLexemes.eq_def]
  split <;> simp_all

/-- The token before the first lexeme matters to errors only. -/
theorem ofLexemes_eq_ok {previous : Option TokenKind} {lexemes : List Lexeme}
    {kinds : List TokenKind} : ofLexemes previous lexemes = .ok kinds ↔ Assembled lexemes kinds := by
  constructor
  · intro h
    induction previous, lexemes using ofLexemes.induct generalizing kinds with
    | case1 previous => cases h; exact .nil
    | case2 previous suffix position tail => cases h
    | case3 previous atom suffix position rest ih =>
      obtain ⟨kinds, hr, rfl⟩ := map_eq_ok.mp h
      exact .repeatedAtom atom suffix position (ih hr)
    | case4 previous body suffix position rest ih =>
      obtain ⟨kinds, hr, rfl⟩ := map_eq_ok.mp h
      exact .repeatedGroup body suffix position (ih hr)
    | case5 previous atom rest bare ih =>
      rw [ofLexemes_atom bare] at h
      obtain ⟨kinds, hr, rfl⟩ := map_eq_ok.mp h
      exact .bareAtom atom bare (ih hr)
    | case6 previous body rest bare ih =>
      rw [ofLexemes_group bare] at h
      obtain ⟨kinds, hr, rfl⟩ := map_eq_ok.mp h
      exact .bareGroup body bare (ih hr)
  · intro h
    induction h generalizing previous with
    | nil => rfl
    | repeatedAtom atom suffix position next ih => exact map_eq_ok.mpr ⟨_, ih, rfl⟩
    | repeatedGroup body suffix position next ih => exact map_eq_ok.mpr ⟨_, ih, rfl⟩
    | bareAtom atom bare next ih => rw [ofLexemes_atom bare, ih]; rfl
    | bareGroup body bare next ih => rw [ofLexemes_group bare, ih]; rfl

/-- Every token of an assembly is made from one of its atoms, one of them with a suffix or a group, or is
a literal joined from two. -/
theorem Assembled.forall {P : TokenKind → Prop} {lexemes : List Lexeme} {kinds : List TokenKind}
    (h : Assembled lexemes kinds) (atoms : ∀ atom, .atom atom ∈ lexemes → P (ofAtom atom))
    (repeated : ∀ atom suffix, .atom atom ∈ lexemes → P (ofRepeated atom suffix))
    (groups : ∀ body suffix, P (ofGroup body suffix))
    (joins : ∀ text more, P (.literal text) → P (.literal more) → P (.literal (text ++ more))) :
    ∀ kind ∈ kinds, P kind := by
  induction h with
  | nil => simp
  | repeatedAtom atom suffix position next ih =>
    have later := ih (fun other ho => atoms other (.tail _ (.tail _ ho)))
      (fun other own ho => repeated other own (.tail _ (.tail _ ho)))
    exact List.forall_mem_cons.mpr ⟨repeated atom suffix (.head _), later⟩
  | repeatedGroup body suffix position next ih =>
    have later := ih (fun other ho => atoms other (.tail _ (.tail _ ho)))
      (fun other own ho => repeated other own (.tail _ (.tail _ ho)))
    exact List.forall_mem_cons.mpr ⟨groups body _, later⟩
  | bareAtom atom bare next ih =>
    have here := atoms atom (.head _)
    have later := ih (fun other ho => atoms other (.tail _ ho))
      (fun other own ho => repeated other own (.tail _ ho))
    unfold join
    split
    · rename_i text more rest hatom
      obtain ⟨hmore, hrest⟩ := List.forall_mem_cons.mp later
      exact List.forall_mem_cons.mpr ⟨joins text more (hatom ▸ here) hmore, hrest⟩
    · exact List.forall_mem_cons.mpr ⟨here, later⟩
  | bareGroup body bare next ih =>
    have later := ih (fun other ho => atoms other (.tail _ ho))
      (fun other own ho => repeated other own (.tail _ ho))
    exact List.forall_mem_cons.mpr ⟨groups body none, later⟩

end TokenKind

namespace Pattern
variable {source : Text} {pattern : Pattern}

def offset (source : Text) : Nat := if source.head? == some '^' then 1 else 0

def body (source : Text) : Text := source.drop (offset source)

def scanned (source : Text) : Text :=
  if endsAnchored (body source) then (body source).dropLast else body source

def ofKinds (source : Text) (kinds : List TokenKind) : Pattern where
  source := source
  tokens :=
    if endsAnchored (body source) then anchorLast (kinds.map fun kind => { kind })
    else kinds.map fun kind => { kind }
  startAnchored := source.head? == some '^'

theorem parse_eq_ok : parse source = .ok pattern ↔ ∃ kinds,
    TokenKind.Assembled (Lexeme.scan (offset source) (scanned source)) kinds ∧
      ofKinds source kinds = pattern := by
  have hp : parse source =
      (TokenKind.ofLexemes none (Lexeme.scan (offset source) (scanned source))).map
        (ofKinds source) := rfl
  simp only [hp, map_eq_ok, TokenKind.ofLexemes_eq_ok]

theorem source_of_parse (h : parse source = .ok pattern) : pattern.source = source := by
  obtain ⟨kinds, _, rfl⟩ := parse_eq_ok.mp h
  rfl

theorem length_scanned_le (source : Text) : (scanned source).length ≤ source.length := by
  have hb : (body source).length ≤ source.length := by simp [body]
  unfold scanned
  split
  · rw [List.length_dropLast]
    omega
  · exact hb

private theorem map_kind_anchorLast (tokens : List Token) :
    (anchorLast tokens).map Token.kind =
      if tokens = [] then [.endAnchor] else tokens.map Token.kind := by
  induction tokens with
  | nil => rfl
  | cons token rest ih =>
    cases rest with
    | nil => rfl
    | cons next rest => simpa [anchorLast] using ih

/-- Only a pattern without any other token holds a bare end anchor. -/
theorem map_kind_ofKinds (source : Text) (kinds : List TokenKind) :
    (ofKinds source kinds).tokens.map Token.kind = kinds ∨
      kinds = [] ∧ (ofKinds source kinds).tokens.map Token.kind = [.endAnchor] := by
  have hk : (kinds.map fun kind => ({ kind } : Token)).map Token.kind = kinds := by
    rw [List.map_map]
    exact List.map_id' kinds
  simp only [ofKinds]
  split
  · rw [map_kind_anchorLast]
    cases kinds with
    | nil => exact .inr ⟨rfl, rfl⟩
    | cons kind kinds => exact .inl (by simpa using hk)
  · exact .inl hk

private theorem dropLast_anchorLast (tokens : List Token) :
    (anchorLast tokens).dropLast = tokens.dropLast := by
  induction tokens with
  | nil => rfl
  | cons token rest ih =>
    cases rest with
    | nil => rfl
    | cons next rest =>
      have hne : anchorLast (next :: rest) ≠ [] := by cases rest <;> simp [anchorLast]
      rw [anchorLast, List.dropLast_cons_of_ne_nil hne, ih]
      · rfl
      · simp

/-- Only the last token of a pattern carries the end anchor. -/
theorem endAnchor_eq_false (h : parse source = .ok pattern) :
    ∀ token ∈ pattern.tokens.dropLast, token.endAnchor = false := by
  obtain ⟨kinds, _, rfl⟩ := parse_eq_ok.mp h
  intro token ht
  have hplain : token ∈ kinds.map fun kind => ({ kind } : Token) := by
    simp only [ofKinds] at ht
    split at ht
    · rw [dropLast_anchorLast] at ht
      exact (List.dropLast_sublist _).subset ht
    · exact (List.dropLast_sublist _).subset ht
  obtain ⟨kind, _, rfl⟩ := List.mem_map.mp hplain
  rfl

end Pattern

end LineSearch
