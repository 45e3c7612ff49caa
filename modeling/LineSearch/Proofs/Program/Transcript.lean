import Mathlib.Tactic.SplitIfs
import LineSearch.Proofs.Program.Scene

/-! What a run shows. Main statement: the exit status and the output tell the same story in every mode of
reading, and an end before the time keeps what was written before it. -/
namespace LineSearch.Program

def sceneOf (invocation : Invocation) (arguments : Arguments) (settings : Settings)
    (pattern : Pattern) : Scene :=
  { searcher := { pattern, recursionLimit := settings.recursionLimit }
    input := invocation.input
    here := invocation.here
    options := settings.walk
    style := styleOf invocation arguments }

section Run
variable {invocation : Invocation} {arguments : Arguments} {settings : Settings} {pattern : Pattern}
  {warnings : List String} {scene : Scene}

private theorem comes_search (hpattern : Pattern.parse arguments.pattern = .ok pattern)
    (hscene : sceneOf invocation arguments settings pattern = scene) :
    (search invocation arguments settings).Comes { report := { style := styleOf invocation arguments } }
      false (scene.fault? arguments.source) (scene.printed arguments.source)
      (scene.said arguments.source) := by
  subst hscene
  have hcompile : (Searcher.compile settings.recursionLimit arguments.pattern).fresh =
      .ok { pattern, recursionLimit := settings.recursionLimit } := by
    rw [Searcher.compile, OnDemand.fresh_bind, OnDemand.fresh_request, hpattern]
    rfl
  unfold Search.Comes
  rw [search, OnDemand.fresh_bind, hcompile]
  exact @Scene.comes_searchSource (sceneOf invocation arguments settings pattern) _ rfl invocation rfl rfl
    _ rfl

/-- A run whose arguments, settings and pattern are in order shows what its scene says. -/
theorem run_eq (hargs : Arguments.parse invocation.configPath invocation.arguments = .ok arguments)
    (hsettings : settingsOf invocation arguments = (.ok settings, warnings))
    (hpattern : Pattern.parse arguments.pattern = .ok pattern)
    (hscene : sceneOf invocation arguments settings pattern = scene) :
    run invocation =
      finish (scene.printed arguments.source) (warnings ++ scene.said arguments.source)
        (match scene.fault? arguments.source with
          | some fault => .error fault
          | none => .ok !(scene.printed arguments.source).isEmpty) := by
  obtain ⟨after, hfresh, hadds⟩ := comes_search hpattern hscene
  have hrun : (Engine.run { recursionLimit := settings.recursionLimit }
      (search invocation arguments settings)).1 = (search invocation arguments settings).fresh :=
    (OnDemand.run_of_faithful _ Cache.faithful_empty).1
  have houtput : after.report.output = scene.printed arguments.source := hadds.output_eq
  have hmessages : after.messages = scene.said arguments.source := hadds.messages_eq
  rw [run, hargs]
  simp only [runWith, hsettings, hrun, hfresh, houtput, hmessages]
  rfl

theorem status_run (hargs : Arguments.parse invocation.configPath invocation.arguments = .ok arguments)
    (hsettings : settingsOf invocation arguments = (.ok settings, warnings))
    (hpattern : Pattern.parse arguments.pattern = .ok pattern)
    (hscene : sceneOf invocation arguments settings pattern = scene) :
    (run invocation).status =
      if scene.Aborts arguments.source then .error
      else if scene.printed arguments.source = [] then .noMatch
      else .success := by
  rw [run_eq hargs hsettings hpattern hscene]
  rcases hf : scene.fault? arguments.source with _ | fault
  · have hgoes : ¬scene.Aborts arguments.source := by
      simp [Scene.aborts_iff, hf]
    rw [if_neg hgoes]
    cases scene.printed arguments.source <;> rfl
  · have haborts : scene.Aborts arguments.source := by
      simp [Scene.aborts_iff, hf]
    rw [if_pos haborts]
    exact Scene.status_of_fault hf

/-- A run that gets as far as searching ends with status 2 if it aborts, else with 0 if it has written
something and 1 if not, and never with 3. It writes what its scene prints, and says the warnings, then
what the scene says, then the fault that it ended in. -/
theorem status_tells_output (invocation : Invocation) (arguments : Arguments) (settings : Settings)
    (warnings : List String) (pattern : Pattern)
    (hargs : Arguments.parse invocation.configPath invocation.arguments = .ok arguments)
    (hsettings : settingsOf invocation arguments = (.ok settings, warnings))
    (hpattern : Pattern.parse arguments.pattern = .ok pattern) :
    let scene := sceneOf invocation arguments settings pattern
    ((run invocation).status.code = 0 ↔
      ¬scene.Aborts arguments.source ∧ (run invocation).output ≠ []) ∧
    ((run invocation).status.code = 1 ↔
      ¬scene.Aborts arguments.source ∧ (run invocation).output = []) ∧
    ((run invocation).status.code = 2 ↔ scene.Aborts arguments.source) ∧
    (run invocation).status.code ≠ 3 ∧
    (run invocation).output = scene.printed arguments.source ∧
    (run invocation).messages =
      (warnings ++ scene.said arguments.source ++
        (scene.fault? arguments.source).toList.map Fault.message).map (name ++ ": " ++ ·) ∧
    (scene.Aborts arguments.source ↔ (scene.fault? arguments.source).isSome) ∧
    (arguments.source.isLabelled = true → scene.style.colored = false →
      ∀ path line, scene.style.record path line = path ++ ':' :: line ++ ['\n']) := by
  intro scene
  have hrun := run_eq hargs hsettings hpattern (rfl : _ = scene)
  have hoverall := status_run hargs hsettings hpattern (rfl : _ = scene)
  have houtput : (run invocation).output = scene.printed arguments.source := by
    rw [hrun]
    rfl
  have hmessages : (run invocation).messages =
      (warnings ++ scene.said arguments.source ++
        (scene.fault? arguments.source).toList.map Fault.message).map (name ++ ": " ++ ·) := by
    rw [hrun]
    cases scene.fault? arguments.source <;> simp [finish]
  rw [hoverall, houtput]
  refine ⟨?_, ?_, ?_, ?_, rfl, hmessages, Scene.aborts_iff, ?_⟩
  · split_ifs <;> simp_all [ExitStatus.code]
  · split_ifs <;> simp_all [ExitStatus.code]
  · split_ifs <;> simp_all [ExitStatus.code]
  · split_ifs <;> simp [ExitStatus.code]
  · intro hl hc path line
    exact RecordStyle.record_of_uncolored hl hc path line

/-- The files below `y` hold a line that `(b|a(+))` has no answer about. What was found below `x` stays
written, and nothing that comes after it is. -/
theorem aborted_behind_first_root :
    let invocation : Invocation :=
      { arguments := [['-', 'r'], ['-', 'E'], ['(', 'b', '|', 'a', '(', '+', ')', ')'], ['x'], ['y'], ['z']]
        color := { noColor := false, color := false, continuousIntegration := false, terminal := false }
        standardInput := []
        here := { entries :=
          [(['x'], .directory [(['f'], .file (.ok { bytes := [98] }))]),
            (['y'], .file (.ok { bytes := [98, 10, 97] })), (['z'], .file (.ok { bytes := [98] }))] } }
    let arguments : Arguments :=
      { pattern := ['(', 'b', '|', 'a', '(', '+', ')', ')'], paths := [['x'], ['y'], ['z']]
        recursive := true, color := .auto, maxDepth := none, hidden := false, gitIgnore := false
        sequential := false, config := none }
    let pattern : Pattern :=
      { source := ['(', 'b', '|', 'a', '(', '+', ')', ')']
        tokens := [{ kind := .group ['b', '|', 'a', '(', '+', ')'] [['b'], ['a', '(', '+', ')']] none }]
        startAnchored := false }
    Arguments.parse invocation.configPath invocation.arguments = .ok arguments ∧
      settingsOf invocation arguments = (.ok {}, []) ∧
      Pattern.parse arguments.pattern = .ok pattern ∧
      (run invocation).status.code = 2 ∧
      (run invocation).output = ['x', '/', 'f', ':', 'b', '\n'] := by
  intro invocation arguments pattern
  have hargs : Arguments.parse invocation.configPath invocation.arguments = .ok arguments := rfl
  have hsettings : settingsOf invocation arguments = (.ok {}, []) := rfl
  have hpattern : Pattern.parse arguments.pattern = .ok pattern := rfl
  obtain ⟨-, -, haborts, -, houtput, -, hfault, -⟩ :=
    status_tells_output invocation arguments {} [] pattern hargs hsettings hpattern
  refine ⟨hargs, hsettings, hpattern, haborts.mpr (hfault.mpr ?_), houtput.trans ?_⟩
  · decide +kernel
  · decide +kernel

end Run

end LineSearch.Program
