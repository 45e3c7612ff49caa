import LineSearch.Program

/-! What is written and said between two points of a run. -/
namespace LineSearch

namespace RecordStyle

theorem record_ne_nil (style : RecordStyle) (origin line : Text) : style.record origin line ≠ [] := by
  simp [record]

theorem record_of_unlabelled {style : RecordStyle} (h : style.labelled = false) (origin line : Text) :
    style.record origin line = line ++ ['\n'] := by
  simp [record, label, h]

theorem record_of_uncolored {style : RecordStyle} (hl : style.labelled = true)
    (hc : style.colored = false) (origin line : Text) :
    style.record origin line = origin ++ ':' :: line ++ ['\n'] := by
  simp [record, label, hl, hc]

end RecordStyle

namespace Report

private theorem output_writeLine (report : Report) (origin line : Text) :
    (report.writeLine origin line).output = report.output ++ report.style.record origin line := by
  simp [output, writeLine]

private theorem writeLines_cons (report : Report) (origin line : Text) (rest : List Text) :
    report.writeLines origin (line :: rest) = (report.writeLine origin line).writeLines origin rest := rfl

private theorem style_writeLines (report : Report) (origin : Text) (lines : List Text) :
    (report.writeLines origin lines).style = report.style := by
  induction lines generalizing report with
  | nil => rfl
  | cons line rest ih => exact ih (report.writeLine origin line)

theorem output_writeLines (report : Report) (origin : Text) (lines : List Text) :
    (report.writeLines origin lines).output =
      report.output ++ lines.flatMap (report.style.record origin) := by
  induction lines generalizing report with
  | nil => exact (List.append_nil _).symm
  | cons line rest ih =>
    rw [writeLines_cons, ih, output_writeLine, List.append_assoc, List.flatMap_cons]
    rfl

end Report

namespace Program

structure Progress.Adds (before after : Progress) (output : Text) (messages : List String) : Prop where
  style_eq : after.report.style = before.report.style
  output_eq : after.report.output = before.report.output ++ output
  messages_eq : after.messages = before.messages ++ messages

namespace Progress
variable {before middle after : Progress} {output output' : Text} {messages messages' : List String}

theorem Adds.refl (progress : Progress) : progress.Adds progress [] [] :=
  ⟨rfl, (List.append_nil _).symm, (List.append_nil _).symm⟩

theorem Adds.trans (first : before.Adds middle output messages)
    (second : middle.Adds after output' messages') :
    before.Adds after (output ++ output') (messages ++ messages') := by
  refine ⟨second.style_eq.trans first.style_eq, ?_, ?_⟩
  · rw [second.output_eq, first.output_eq, List.append_assoc]
  · rw [second.messages_eq, first.messages_eq, List.append_assoc]

theorem adds_say (progress : Progress) (messages : List String) :
    progress.Adds (progress.say messages) [] messages :=
  ⟨rfl, (List.append_nil _).symm, rfl⟩

theorem adds_writeLines (progress : Progress) (origin : Text) (lines : List Text) :
    progress.Adds { progress with report := progress.report.writeLines origin lines }
      (lines.flatMap (progress.report.style.record origin)) [] := by
  refine ⟨?_, ?_, (List.append_nil _).symm⟩
  · exact progress.report.style_writeLines origin lines
  · exact progress.report.output_writeLines origin lines

end Progress

end Program

end LineSearch
