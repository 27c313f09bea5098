import Mathlib.Tactic.Linarith
import SslAutoref.Logic.FloatScores
import SslAutoref.Theorems.Report

/-!
# What the scores say

The three scores of a report, as they are computed, lie between zero and one, and the F1 score
between the other two. A human who flags entries changes them in the right direction: to ignore
wrong verdicts never lowers precision or recall, and to ignore true positives never raises one,
as long as the sums of the counts are exact (`scores_follow_flags`). For the F1 score that is so
of the quotient that is meant, and of the one that is computed but for the error of rounding:
that one can fall by the last bit when a wrong verdict is ignored.
-/

namespace SslAutoref.Theorems

open Rounding

/-! ## Counts -/

section

variable {c c' : Counts}

/-- The denominators are exact: every whole number up to here is a `float`. -/
structure SumsExact (c : Counts) : Prop where
  ofPrecision : c.truePositives + c.falsePositives ≤ 2 ^ 24
  ofRecall : c.truePositives + c.falseNegatives ≤ 2 ^ 24

/-- The F1 score is off by at most four parts in `2 ^ 24`. -/
theorem floatF1Score_close (h : Defined c) (hsums : SumsExact c) :
    (1 - 1 / 2 ^ 22) * c.f1Score ≤ c.floatF1Score ∧
      c.floatF1Score ≤ (1 + 1 / 2 ^ 22) * c.f1Score := by
  have hpos : 0 < c.truePositives := defined_iff.mp h
  have hright : (0 : ℚ) < c.truePositives := Nat.cast_pos.mpr hpos
  -- precision and recall are off by one rounding each
  have hquotient : ∀ {wrong : Nat}, c.truePositives + wrong ≤ 2 ^ 24 →
      0 < (c.truePositives : ℚ) / (c.truePositives + wrong) ∧
      (1 - 1 / 2 ^ 24) * ((c.truePositives : ℚ) / (c.truePositives + wrong)) ≤
        floatQuotient c.truePositives wrong ∧
      floatQuotient c.truePositives wrong ≤
        (1 + 1 / 2 ^ 24) * ((c.truePositives : ℚ) / (c.truePositives + wrong)) := by
    intro wrong hle
    have hpart : 0 < (c.truePositives : ℚ) / (c.truePositives + wrong) := by positivity
    rw [floatQuotient_eq hle]
    exact ⟨hpart, mul_le_nearest (by decide) hpart.le, nearest_le_mul (by decide) hpart.le⟩
  obtain ⟨hp, hplow, hphigh⟩ := hquotient hsums.ofPrecision
  obtain ⟨hr, hrlow, hrhigh⟩ := hquotient hsums.ofRecall
  have hfp := (floatQuotient_isScore hpos c.falsePositives).1
  have hfr := (floatQuotient_isScore hpos c.falseNegatives).1
  have hclose := floatF1_close (floatQuotient_mem c.truePositives c.falsePositives)
    (floatQuotient_mem c.truePositives c.falseNegatives) hfp hfr
  -- and the mean of both by as much
  have hmeanlow := harmonicMean_mono (mul_pos (by norm_num) hp) (mul_pos (by norm_num) hr) hplow
    hrlow
  have hmeanhigh := harmonicMean_mono hfp hfr hphigh hrhigh
  rw [harmonicMean_mul (by norm_num)] at hmeanlow hmeanhigh
  have hexact : harmonicMean ((c.truePositives : ℚ) / (c.truePositives + c.falsePositives))
      ((c.truePositives : ℚ) / (c.truePositives + c.falseNegatives)) = c.f1Score := rfl
  have hf1 : floatF1 (floatQuotient c.truePositives c.falsePositives)
      (floatQuotient c.truePositives c.falseNegatives) = c.floatF1Score := rfl
  have hnonneg : 0 < c.f1Score := by
    rw [← hexact]
    exact div_pos (by positivity) (add_pos hp hr)
  rw [hexact] at hmeanlow hmeanhigh
  rw [hf1] at hclose
  exact ⟨by linarith, by linarith⟩

/-- The scores of counts with a true positive. -/
structure SoundScores (c : Counts) : Prop where
  precision_isScore : IsScore c.floatPrecision
  recall_isScore : IsScore c.floatRecall
  f1Score_isScore : IsScore c.floatF1Score
  between : min c.floatPrecision c.floatRecall ≤ c.floatF1Score ∧
    c.floatF1Score ≤ max c.floatPrecision c.floatRecall
  /-- Without a wrong verdict the F1 score is one, -/
  perfect : c.falsePositives = 0 → c.falseNegatives = 0 → c.floatF1Score = 1
  /-- and with exact sums only then. -/
  faultless : SumsExact c → c.floatF1Score = 1 → c.falsePositives = 0 ∧ c.falseNegatives = 0
  close : SumsExact c → (1 - 1 / 2 ^ 22) * c.f1Score ≤ c.floatF1Score ∧
    c.floatF1Score ≤ (1 + 1 / 2 ^ 22) * c.f1Score
  /-- The counts are `int`s, so no score is near the least `float`. -/
  inRange : c.truePositives < 2 ^ 31 → c.falsePositives < 2 ^ 31 → c.falseNegatives < 2 ^ 31 →
    1 / 2 ^ 32 ≤ min c.floatPrecision c.floatRecall

theorem soundScores (h : Defined c) : SoundScores c := by
  have hpos : 0 < c.truePositives := defined_iff.mp h
  have hprecision : IsScore c.floatPrecision := floatQuotient_isScore hpos _
  have hrecall : IsScore c.floatRecall := floatQuotient_isScore hpos _
  have hpmem : c.floatPrecision ∈ binary ℚ 24 := floatQuotient_mem _ _
  have hrmem : c.floatRecall ∈ binary ℚ 24 := floatQuotient_mem _ _
  have hbetween : min c.floatPrecision c.floatRecall ≤ c.floatF1Score ∧
      c.floatF1Score ≤ max c.floatPrecision c.floatRecall := by
    unfold Counts.floatF1Score
    rcases le_total c.floatPrecision c.floatRecall with hle | hle
    · rw [min_eq_left hle, max_eq_right hle]
      exact floatF1_between hpmem hrmem hprecision.1 hle
    · rw [min_eq_right hle, max_eq_left hle, floatF1_comm hpmem hrmem]
      exact floatF1_between hrmem hpmem hrecall.1 hle
  have hone := floatF1_eq_one_iff hpmem hrmem hprecision hrecall
  refine ⟨hprecision, hrecall, ⟨?_, ?_⟩, hbetween, ?_, ?_, floatF1Score_close h, ?_⟩
  · exact (lt_min hprecision.1 hrecall.1).trans_le hbetween.1
  · exact hbetween.2.trans (max_le hprecision.2 hrecall.2)
  · intro hfalse hmissed
    refine hone.mpr ⟨?_, ?_⟩
    · unfold Counts.floatPrecision
      rw [hfalse, floatQuotient_zero hpos]
    · unfold Counts.floatRecall
      rw [hmissed, floatQuotient_zero hpos]
  · intro hsums hf1
    obtain ⟨hp, hr⟩ := hone.mp hf1
    refine ⟨?_, ?_⟩
    · by_contra hne
      exact (floatQuotient_lt_one (Nat.pos_of_ne_zero hne) hsums.ofPrecision).ne hp
    · by_contra hne
      exact (floatQuotient_lt_one (Nat.pos_of_ne_zero hne) hsums.ofRecall).ne hr
  · intro htrue hfalse hmissed
    exact le_min (le_floatQuotient hpos htrue hfalse) (le_floatQuotient hpos htrue hmissed)

/-- Precision and recall of the first counts are at most those of the second, and so is the
quotient that the F1 score is a rounding of. -/
structure ScoresAtMost (c c' : Counts) : Prop where
  precision_le : c.floatPrecision ≤ c'.floatPrecision
  recall_le : c.floatRecall ≤ c'.floatRecall
  f1Score_le : c.f1Score ≤ c'.f1Score

/-- More true positives, and no more that is wrong. -/
theorem f1Score_le_of_le (h : Defined c) (htrue : c.truePositives ≤ c'.truePositives)
    (hfalse : c'.falsePositives ≤ c.falsePositives)
    (hmissed : c'.falseNegatives ≤ c.falseNegatives) : c.f1Score ≤ c'.f1Score := by
  have hpos : (0 : ℚ) < c.truePositives := Nat.cast_pos.mpr (defined_iff.mp h)
  have h' : Defined c' := defined_iff.mpr (lt_of_lt_of_le (defined_iff.mp h) htrue)
  have htrue' : (c.truePositives : ℚ) ≤ c'.truePositives := Nat.cast_le.mpr htrue
  have hfalse' : (c'.falsePositives : ℚ) ≤ c.falsePositives := Nat.cast_le.mpr hfalse
  have hmissed' : (c'.falseNegatives : ℚ) ≤ c.falseNegatives := Nat.cast_le.mpr hmissed
  rw [f1Score_eq h, f1Score_eq h', add_assoc, add_assoc]
  apply part_le_part
  · positivity
  · linarith
  · positivity
  · linarith

/-- The same true positives. -/
theorem scoresAtMost_of_wrong (h : Defined c) (htrue : c'.truePositives = c.truePositives)
    (hfalse : c'.falsePositives ≤ c.falsePositives)
    (hmissed : c'.falseNegatives ≤ c.falseNegatives) : ScoresAtMost c c' := by
  have hpos : 0 < c.truePositives := defined_iff.mp h
  refine ⟨?_, ?_, f1Score_le_of_le h htrue.ge hfalse hmissed⟩
  · unfold Counts.floatPrecision
    rw [htrue]
    exact floatQuotient_anti hpos hfalse
  · unfold Counts.floatRecall
    rw [htrue]
    exact floatQuotient_anti hpos hmissed

/-- The same that is wrong. -/
theorem scoresAtMost_of_right (h : Defined c) (hsums : SumsExact c')
    (htrue : c.truePositives ≤ c'.truePositives) (hfalse : c'.falsePositives = c.falsePositives)
    (hmissed : c'.falseNegatives = c.falseNegatives) : ScoresAtMost c c' := by
  have hpos : 0 < c.truePositives := defined_iff.mp h
  refine ⟨?_, ?_, f1Score_le_of_le h htrue hfalse.le hmissed.le⟩
  · unfold Counts.floatPrecision
    rw [← hfalse]
    exact floatQuotient_mono hpos htrue hsums.ofPrecision
  · unfold Counts.floatRecall
    rw [← hmissed]
    exact floatQuotient_mono hpos htrue hsums.ofRecall

theorem f1Score_le_one (h : Defined c) : c.f1Score ≤ 1 := by
  have hpos : (0 : ℚ) < c.truePositives := Nat.cast_pos.mpr (defined_iff.mp h)
  rw [f1Score_eq h, div_le_one (by positivity), add_assoc]
  exact le_add_of_nonneg_right (by positivity)

/-- What rounding can take away from the F1 score. -/
theorem floatF1Score_le_add (h : Defined c) (h' : Defined c') (hsums : SumsExact c)
    (hsums' : SumsExact c') (hle : c.f1Score ≤ c'.f1Score) :
    c.floatF1Score ≤ c'.floatF1Score + 1 / 2 ^ 21 := by
  have hclose := floatF1Score_close h hsums
  have hclose' := floatF1Score_close h' hsums'
  have hone := f1Score_le_one h'
  linarith

-- One false positive less, and the F1 score falls by its last bit.
example : ({ truePositives := 1627773, falsePositives := 1434030, falseNegatives := 1558720 } :
      Counts).floatF1Score <
    ({ truePositives := 1627773, falsePositives := 1434031, falseNegatives := 1558720 } :
      Counts).floatF1Score := by
  decide +kernel

end

/-! ## Flags -/

/-- Some entries with an allowed verdict are flagged, and nothing else is changed. -/
def FlagsOnly (allowed : Evaluation → Prop) (evaluations evaluations' : List EventEvaluation) :
    Prop :=
  List.Forall₂ (fun e e' => e' = e ∨ allowed e.value ∧ e' = { e with ignore := true })
    evaluations evaluations'

section

variable {allowed : Evaluation → Prop} {evaluations evaluations' : List EventEvaluation}

/-- Flags take entries out of the counts of their verdicts. -/
theorem countP_flagged_le (h : FlagsOnly allowed evaluations evaluations') (value : Evaluation) :
    evaluations'.countP (·.countsAs value) ≤ evaluations.countP (·.countsAs value) := by
  induction h with
  | nil => exact Nat.le_refl 0
  | cons hentry _ ih =>
    rw [List.countP_cons, List.countP_cons]
    rcases hentry with rfl | ⟨-, rfl⟩
    · omega
    · -- a flagged entry is counted for nothing
      have hnone : ∀ e : EventEvaluation,
          ({ e with ignore := true } : EventEvaluation).countsAs value = false := fun _ => rfl
      rw [hnone, if_neg Bool.false_ne_true]
      omega

/-- The other verdicts are counted as before. -/
theorem countP_flagged_eq (h : FlagsOnly allowed evaluations evaluations') {value : Evaluation}
    (hnot : ¬ allowed value) :
    evaluations'.countP (·.countsAs value) = evaluations.countP (·.countsAs value) := by
  induction h with
  | nil => rfl
  | @cons e e' _ _ hentry _ ih =>
    rw [List.countP_cons, List.countP_cons, ih]
    rcases hentry with rfl | ⟨hallowed, rfl⟩
    · rfl
    · have hne : e.value ≠ value := by
        rintro rfl
        exact hnot hallowed
      simp [EventEvaluation.countsAs, hne]

/-- The report of a call has the counts of its entries. -/
theorem counts_of_report {logFile : String} {ports : List UInt16} {refId : Nat}
    {run : EvalRun} {report : Report}
    (h : (mergeEvaluations logFile ports refId evaluations run).reports =
      run.reports ++ [report]) : report.counts = countsOf evaluations := by
  rcases @reports_mergeEvaluations logFile ports refId run evaluations with
    hsame | ⟨added, hadded, happend⟩
  · rw [hsame] at h
    simp at h
  · rw [happend] at h
    simp only [List.append_cancel_left_eq, List.cons.injEq, and_true] at h
    rw [← h, hadded]

end

/-- **Scores.** Whatever the entries that reach the report, and whichever of them are flagged
for a second report. -/
theorem scores_follow_flags {logFile logFile' : String} {ports ports' : List UInt16}
    {refId refId' : Nat} {run run' : EvalRun} {report report' : Report}
    {evaluations evaluations' : List EventEvaluation}
    (hreport : (mergeEvaluations logFile ports refId evaluations run).reports =
      run.reports ++ [report])
    (hreport' : (mergeEvaluations logFile' ports' refId' evaluations' run').reports =
      run'.reports ++ [report'])
    (hdefined : Defined report.counts) (hdefined' : Defined report'.counts) :
    SoundScores report.counts ∧
      (FlagsOnly (· ≠ .truePositive) evaluations evaluations' →
        ScoresAtMost report.counts report'.counts ∧
          (SumsExact report.counts →
            report.counts.floatF1Score ≤ report'.counts.floatF1Score + 1 / 2 ^ 21)) ∧
      (FlagsOnly (· = .truePositive) evaluations evaluations' → SumsExact report.counts →
        ScoresAtMost report'.counts report.counts ∧
          report'.counts.floatF1Score ≤ report.counts.floatF1Score + 1 / 2 ^ 21) := by
  have hcounts := counts_of_report hreport
  have hcounts' := counts_of_report hreport'
  -- flags take away from every count, so the sums stay exact
  have hfewer : ∀ {allowed}, FlagsOnly allowed evaluations evaluations' →
      report'.counts.truePositives ≤ report.counts.truePositives ∧
        report'.counts.falsePositives ≤ report.counts.falsePositives ∧
        report'.counts.falseNegatives ≤ report.counts.falseNegatives := by
    intro allowed hflags
    rw [hcounts, hcounts']
    exact ⟨countP_flagged_le hflags _, countP_flagged_le hflags _, countP_flagged_le hflags _⟩
  have hsums' : ∀ {allowed}, FlagsOnly allowed evaluations evaluations' →
      SumsExact report.counts → SumsExact report'.counts := by
    intro allowed hflags hsums
    obtain ⟨htrue, hfalse, hmissed⟩ := hfewer hflags
    exact ⟨(Nat.add_le_add htrue hfalse).trans hsums.ofPrecision,
      (Nat.add_le_add htrue hmissed).trans hsums.ofRecall⟩
  refine ⟨soundScores hdefined, ?_, ?_⟩
  · intro hflags
    obtain ⟨-, hfalse, hmissed⟩ := hfewer hflags
    have htrue : report'.counts.truePositives = report.counts.truePositives := by
      rw [hcounts, hcounts']
      exact countP_flagged_eq hflags (fun h => h rfl)
    have hscores := scoresAtMost_of_wrong hdefined htrue hfalse hmissed
    exact ⟨hscores, fun hsums => floatF1Score_le_add hdefined hdefined' hsums
      (hsums' hflags hsums) hscores.f1Score_le⟩
  · intro hflags hsums
    obtain ⟨htrue, -, -⟩ := hfewer hflags
    have hfalse : report.counts.falsePositives = report'.counts.falsePositives := by
      rw [hcounts, hcounts']
      exact (@countP_flagged_eq _ _ _ hflags .falsePositive nofun).symm
    have hmissed : report.counts.falseNegatives = report'.counts.falseNegatives := by
      rw [hcounts, hcounts']
      exact (@countP_flagged_eq _ _ _ hflags .falseNegative nofun).symm
    have hscores := scoresAtMost_of_right hdefined' hsums htrue hfalse hmissed
    exact ⟨hscores, floatF1Score_le_add hdefined' hdefined (hsums' hflags hsums) hsums
      hscores.f1Score_le⟩

/-- The mixed entries, before the false positive is ignored and after. -/
theorem scores_follow_flags_mixed :
    SoundScores { truePositives := 1, falsePositives := 1 } ∧
      ScoresAtMost { truePositives := 1, falsePositives := 1 } { truePositives := 1 } ∧
      ({ truePositives := 1, falsePositives := 1 } : Counts).floatF1Score ≤
        ({ truePositives := 1 } : Counts).floatF1Score + 1 / 2 ^ 21 := by
  have hscores := @scores_follow_flags "match" "match" [kRefboxPort, 10004] [kRefboxPort, 10004]
    1 1 { files := fun _ => none } { files := fun _ => none }
    ⟨10004, { truePositives := 1, falsePositives := 1 }⟩ ⟨10004, { truePositives := 1 }⟩
    [entryOf .truePositive false, entryOf .falsePositive false] mixedEntries rfl rfl
    (defined_iff.mpr Nat.one_pos) (defined_iff.mpr Nat.one_pos)
  have hflags : FlagsOnly (· ≠ .truePositive)
      [entryOf .truePositive false, entryOf .falsePositive false] mixedEntries :=
    .cons (.inl rfl) (.cons (.inr ⟨nofun, rfl⟩) .nil)
  obtain ⟨hle, hf1⟩ := hscores.2.1 hflags
  exact ⟨hscores.1, hle, hf1 ⟨by decide, by decide⟩⟩

end SslAutoref.Theorems
