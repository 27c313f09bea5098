import Mathlib.Algebra.Order.Field.Rat
import Mathlib.Tactic.FieldSimp
import Mathlib.Tactic.Positivity
import Mathlib.Tactic.Ring
import SslAutoref.Model.Report
import SslAutoref.Theorems.SavedVerdicts

/-!
# The quotients of the report

`MergeEvaluations` divides by three sums of the counts. None of them is zero exactly when a
true positive was counted (`report_defined_iff`), and as the entries of a sweep reach the
report only when there are none, every report that a log gets divides by zero
(`not_defined_of_mem_reports`).
-/

namespace SslAutoref.Theorems

/-- None of the three quotients has a zero denominator. -/
structure Defined (c : Counts) : Prop where
  precision_ne : (c.truePositives : ℚ) + (c.falsePositives : ℚ) ≠ 0
  recall_ne : (c.truePositives : ℚ) + (c.falseNegatives : ℚ) ≠ 0
  f1Score_ne : c.precision + c.recall ≠ 0

/-- Without a true positive both the precision and the recall are zero, or not defined. -/
theorem defined_iff {c : Counts} : Defined c ↔ 0 < c.truePositives := by
  refine ⟨?_, ?_⟩
  · intro h
    by_contra hzero
    obtain hnone : c.truePositives = 0 := by omega
    refine h.f1Score_ne ?_
    unfold Counts.precision Counts.recall
    rw [hnone]
    simp
  · intro h
    have htrue : (0 : ℚ) < (c.truePositives : ℚ) := Nat.cast_pos.mpr h
    have hprecision : 0 < (c.truePositives : ℚ) + (c.falsePositives : ℚ) := by positivity
    have hrecall : 0 < (c.truePositives : ℚ) + (c.falseNegatives : ℚ) := by positivity
    refine ⟨hprecision.ne', hrecall.ne', ?_⟩
    have hfirst : 0 < c.precision := div_pos htrue hprecision
    have hsecond : 0 < c.recall := div_pos htrue hrecall
    exact (add_pos hfirst hsecond).ne'

/-- The F1 score that is defined is twice the true positives, of all that both referees
issued. -/
theorem f1Score_eq {c : Counts} (h : Defined c) :
    c.f1Score = 2 * (c.truePositives : ℚ) /
      (2 * (c.truePositives : ℚ) + (c.falsePositives : ℚ) + (c.falseNegatives : ℚ)) := by
  have hprecision := h.precision_ne
  have hrecall := h.recall_ne
  have htrue : (c.truePositives : ℚ) ≠ 0 := (Nat.cast_pos.mpr (defined_iff.mp h)).ne'
  have hsum : 2 * (c.truePositives : ℚ) + (c.falsePositives : ℚ) + (c.falseNegatives : ℚ) ≠
      0 := by positivity
  have hf1 := h.f1Score_ne
  unfold Counts.f1Score
  rw [div_eq_div_iff hf1 hsum]
  unfold Counts.precision Counts.recall
  field_simp
  ring

theorem truePositives_countsOf_pos_iff {evaluations : List EventEvaluation} :
    0 < (countsOf evaluations).truePositives ↔
      ∃ e ∈ evaluations, e.ignore = false ∧ e.value = .truePositive := by
  show 0 < evaluations.countP _ ↔ _
  rw [List.countP_pos_iff]
  simp [EventEvaluation.countsAs]

/-- **The report.** Whatever the entries, their flags and the annotation file, when they
reach the report none of its quotients divides by zero exactly when there is a true positive
that is not ignored. -/
theorem report_defined_iff (logFile : String) (ports : List UInt16) (refId : Nat)
    (evaluations : List EventEvaluation) (run : EvalRun) (report : Report)
    (hreport : (mergeEvaluations logFile ports refId evaluations run).reports =
      run.reports ++ [report]) :
    Defined report.counts ↔ ∃ e ∈ evaluations, e.ignore = false ∧ e.value = .truePositive := by
  have hcounts : report.counts = countsOf evaluations := by
    rcases @reports_mergeEvaluations logFile ports refId run evaluations with
      hsame | ⟨added, hadded, happend⟩
    · rw [hsame] at hreport
      simp at hreport
    · rw [happend] at hreport
      simp only [List.append_cancel_left_eq, List.cons.injEq, and_true] at hreport
      rw [← hreport, hadded]
  rw [hcounts, defined_iff, truePositives_countsOf_pos_iff]

/-- An entry with a verdict, as a human may flag it. -/
def entryOf (value : Evaluation) (ignore : Bool) : EventEvaluation where
  value := value
  autorefEvent := {}
  humanrefEvent := {}
  ignore := ignore

/-- A true positive, and a false positive that is ignored. -/
def mixedEntries : List EventEvaluation :=
  [entryOf .truePositive false, entryOf .falsePositive true]

theorem report_defined_mixed :
    Defined { truePositives := 1 } ↔
      ∃ e ∈ mixedEntries, e.ignore = false ∧ e.value = .truePositive :=
  report_defined_iff "match" [kRefboxPort, 10004] 1 mixedEntries { files := fun _ => none }
    { port := 10004, counts := { truePositives := 1 } } rfl

/-! ## Whole runs -/

section

variable (logFile : String) (ports : List UInt16) (human : List RefereeEvent)

/-- An autoref adds no report but one with nothing in it. -/
theorem counts_evaluateAutoref {run : EvalRun} (autoref : List RefereeEvent × Nat)
    (hrun : ∀ report ∈ run.reports, report.counts = {}) :
    ∀ report ∈ (evaluateAutoref logFile ports human run autoref).reports,
      report.counts = {} := by
  obtain ⟨events, i⟩ := autoref
  by_cases hevents : events = []
  · subst hevents
    cases hstop : run.stop with
    | none =>
      obtain ⟨files, hnext⟩ := evaluateAutoref_nil logFile ports human hstop i
      rw [hnext]
      simpa [or_imp, forall_and] using hrun
    | some stop =>
      unfold evaluateAutoref
      rw [if_pos (by simp [hstop])]
      exact hrun
  · rw [reports_evaluateAutoref logFile ports human hevents i]
    exact hrun

/-- And so do all of them, one after the other. -/
theorem counts_foldl {run : EvalRun} (autorefs : List (List RefereeEvent × Nat))
    (hrun : ∀ report ∈ run.reports, report.counts = {}) :
    ∀ report ∈ (autorefs.foldl (evaluateAutoref logFile ports human) run).reports,
      report.counts = {} := by
  induction autorefs generalizing run with
  | nil => exact hrun
  | cons autoref autorefs ih =>
    exact ih (counts_evaluateAutoref logFile ports human autoref hrun)

end

/-- **Whole runs.** Every report that is printed on a log divides by zero. -/
theorem not_defined_of_mem_reports {pb : Protobuf} {logFile : String} {log : List UInt8}
    {files : Files} {report : Report}
    (h : report ∈ (evaluateAutorefs pb logFile log files).reports) :
    ¬ Defined report.counts := by
  have hcounts : report.counts = {} := by
    unfold evaluateAutorefs evaluateTables at h
    split at h
    · simp at h
    · split at h
      · simp at h
      · exact counts_foldl _ _ _ _ (by simp) report h
  rw [hcounts, defined_iff]
  exact Nat.lt_irrefl 0

/-- The autoref that only issues a stop has no entries, and is reported. -/
theorem divides_by_zero :
    ¬ ∀ (pb : Protobuf) (log : List UInt8),
      (∃ m ∈ recordedOf (logTraffic pb log) kRefboxPort, m.command.isEvent = true) →
      ∀ (logFile : String) (refId : Nat), 0 < refId →
      refId < (loadRefereeCommands pb log {}).refereePorts.length →
      ∀ (evaluations : List EventEvaluation) (run : EvalRun) (report : Report),
      (∀ e ∈ evaluations, e.value ≠ .unknown) →
      (mergeEvaluations logFile (loadRefereeCommands pb log {}).refereePorts refId evaluations
        run).reports = run.reports ++ [report] →
      Defined report.counts := by
  intro h
  have hlisted : (loadRefereeCommands (sampleProtobuf [] stopAndGoal) (sampleLog stopAndGoal)
      {}).refereePorts = [kRefboxPort, 10004] := by
    rw [loadRefereeCommands_eq, stopAndGoal_traffic]
    rfl
  obtain ⟨files, hmerge⟩ := mergeEvaluations_nil "match"
    (loadRefereeCommands (sampleProtobuf [] stopAndGoal) (sampleLog stopAndGoal) {}).refereePorts
    1 { files := fun _ => none }
  have hdefined := h (sampleProtobuf [] stopAndGoal) (sampleLog stopAndGoal)
    (by rw [stopAndGoal_traffic]; decide) "match" 1 Nat.one_pos
    (by rw [hlisted]; exact Nat.lt_succ_self 1) [] { files := fun _ => none } _
    (by simp) (by rw [hmerge])
  exact Nat.lt_irrefl 0 (defined_iff.mp hdefined)

end SslAutoref.Theorems
