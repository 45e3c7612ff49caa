import LineSearch.Proofs.Match.Enumeration

/-! An engine put to any use. Main statement: each of its answers, errors included, is the one that a
brand-new engine gives to that question alone. -/
namespace LineSearch.Engine

/-- One use of an engine. A slot names one of the patterns handed out before, in that order. -/
inductive Operation where
  | compile (source : Text)
  | isMatch (text source : Text)
  | isMatchCompiled (text : Text) (slot : Nat)
  | isCached (source : Text)
  deriving DecidableEq, Repr

inductive Answer where
  | compiled (result : Except CompileError Pattern)
  | matched (result : Except MatchError Bool)
  | emptySlot
  | cached (known : Bool)

def Answer.handOut (patterns : List Pattern) : Answer → List Pattern
  | .compiled (.ok pattern) => patterns ++ [pattern]
  | _ => patterns

/-- Equal answers. What is said about the cache may differ. -/
inductive Answer.Alike : Answer → Answer → Prop where
  | same (answer : Answer) : Alike answer answer
  | cached (known known' : Bool) : Alike (.cached known) (.cached known')

def perform (engine : Engine) (patterns : List Pattern) : Operation → Answer × Engine
  | .compile source => (engine.compile source).map .compiled id
  | .isMatch text source => (engine.isMatch text source).map .matched id
  | .isMatchCompiled text slot =>
    match patterns[slot]? with
    | some pattern => (engine.isMatchCompiled text pattern).map .matched id
    | none => (.emptySlot, engine)
  | .isCached source => (.cached (engine.isCached source), engine)

def answers (engine : Engine) (patterns : List Pattern) : List Operation → List Answer
  | [] => []
  | operation :: rest =>
    let step := engine.perform patterns operation
    step.1 :: answers step.2 (step.1.handOut patterns) rest

/-- The answer of a brand-new engine that is given the operation alone. In place of a pattern handed
out before it is given the text of that pattern. -/
def answerAlone (limit : Nat) (patterns : List Pattern) : Operation → Answer
  | .compile source => .compiled (Engine.compile { recursionLimit := limit } source).1
  | .isMatch text source => .matched (Engine.isMatch { recursionLimit := limit } text source).1
  | .isMatchCompiled text slot =>
    match patterns[slot]? with
    | some pattern => .matched (Engine.isMatch { recursionLimit := limit } text pattern.source).1
    | none => .emptySlot
  | .isCached source => .cached (Engine.isCached { recursionLimit := limit } source)

def answersAlone (limit : Nat) (patterns : List Pattern) : List Operation → List Answer
  | [] => []
  | operation :: rest =>
    let answer := answerAlone limit patterns operation
    answer :: answersAlone limit (answer.handOut patterns) rest

variable {engine : Engine} {patterns : List Pattern}

private theorem Answer.Alike.handOut_eq {answer answer' : Answer} (h : Answer.Alike answer answer')
    (patterns : List Pattern) : answer.handOut patterns = answer'.handOut patterns := by
  cases h with
  | same => rfl
  | cached known known' => rfl

def Genuine (patterns : List Pattern) : Prop :=
  ∀ pattern ∈ patterns, Pattern.parse pattern.source = .ok pattern

theorem Genuine.handOut (h : Genuine patterns) (limit : Nat) (operation : Operation) :
    Genuine ((answerAlone limit patterns operation).handOut patterns) := by
  cases operation with
  | compile source =>
    have hc := (Reachable.new limit).compile_fst source
    simp only [answerAlone, hc]
    rcases hp : Pattern.parse source with e | pattern
    · exact h
    · intro other ho
      rcases List.mem_append.mp ho with ho | ho
      · exact h other ho
      · cases List.mem_singleton.mp ho
        rw [Pattern.source_of_parse hp]
        exact hp
  | isMatch text source => exact h
  | isMatchCompiled text slot =>
    simp only [answerAlone]
    split <;> exact h
  | isCached source => exact h

theorem Reachable.perform (he : engine.Reachable) (patterns : List Pattern) (operation : Operation) :
    (engine.perform patterns operation).2.Reachable ∧
      (engine.perform patterns operation).2.recursionLimit = engine.recursionLimit := by
  cases operation with
  | compile source => exact ⟨he.compile source, rfl⟩
  | isMatch text source => exact ⟨he.isMatch text source, rfl⟩
  | isMatchCompiled text slot =>
    rw [Engine.perform]
    split
    · exact ⟨he.isMatchCompiled text _, rfl⟩
    · exact ⟨he, rfl⟩
  | isCached source => exact ⟨he, rfl⟩

/-- One answer does not tell how the engine was used before. -/
private theorem perform_alike_alone (he : engine.Reachable) (hp : Genuine patterns) (operation : Operation) :
    (engine.perform patterns operation).1.Alike
      (answerAlone engine.recursionLimit patterns operation) := by
  have fresh : Reachable { recursionLimit := engine.recursionLimit } := .new _
  cases operation with
  | compile source =>
    have hc : (engine.compile source).1 =
        (Engine.compile { recursionLimit := engine.recursionLimit } source).1 := by
      rw [he.compile_fst, fresh.compile_fst]
    simp only [perform, answerAlone, Prod.map, hc]
    exact .same _
  | isMatch text source =>
    have hm : (engine.isMatch text source).1 =
        (Engine.isMatch { recursionLimit := engine.recursionLimit } text source).1 := by
      rw [he.isMatch_fst, fresh.isMatch_fst]
    simp only [perform, answerAlone, Prod.map, hm]
    exact .same _
  | isMatchCompiled text slot =>
    rw [perform, answerAlone]
    rcases hs : patterns[slot]? with _ | pattern
    · exact .same _
    · have hparse := hp pattern (List.mem_of_getElem? hs)
      have hm : (engine.isMatchCompiled text pattern).1 =
          (Engine.isMatch { recursionLimit := engine.recursionLimit } text pattern.source).1 := by
        rw [he.isMatchCompiled_fst, fresh.isMatch_fst, Match.fresh_isMatch hparse]
      simp only [Prod.map, hm]
      exact .same _
  | isCached source => exact .cached _ _

private theorem answers_alike_of_reachable (he : engine.Reachable) (hp : Genuine patterns)
    (operations : List Operation) :
    List.Forall₂ Answer.Alike (engine.answers patterns operations)
      (answersAlone engine.recursionLimit patterns operations) := by
  induction operations generalizing engine patterns with
  | nil => exact .nil
  | cons operation rest ih =>
    have here := perform_alike_alone he hp operation
    obtain ⟨hnext, hlimit⟩ := he.perform patterns operation
    have later := ih hnext (hp.handOut engine.recursionLimit operation)
    rw [hlimit] at later
    rw [answers, answersAlone]
    refine .cons here ?_
    rw [here.handOut_eq]
    exact later

/-- Whatever operations an engine is put to, and in whatever order, it compiles and matches as if each
operation were its first. -/
theorem answers_alike_alone (limit : Nat) (operations : List Operation) :
    List.Forall₂ Answer.Alike (Engine.answers { recursionLimit := limit } [] operations)
      (answersAlone limit [] operations) := by
  refine answers_alike_of_reachable (.new limit) ?_ operations
  intro pattern h
  cases h

/-- The first operation ends in an error, but only after it has compiled the branch `a`. -/
example :
    let operations : List Operation :=
      [.isMatch ['a'] ['(', 'a', ')', '(', '+', ')'], .isCached ['a'], .isMatch ['b'] ['a']]
    let failed : Answer := .matched (.error (.compile (.danglingQuantifier .oneOrMore 0)))
    Engine.answers { recursionLimit := 4 } [] operations =
        [failed, .cached true, .matched (.ok false)] ∧
      answersAlone 4 [] operations = [failed, .cached false, .matched (.ok false)] := by
  exact ⟨rfl, rfl⟩

end LineSearch.Engine
