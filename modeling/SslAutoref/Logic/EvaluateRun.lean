import SslAutoref.Logic.Index
import SslAutoref.Logic.LoadTables
import SslAutoref.Logic.SweepRun
import SslAutoref.Model.Evaluate

/-!
# Which autorefs get a report

The constructor of `EventEvaluation` drops the verdict it is given, so every entry
a sweep makes is unknown to the counting loop, and the process exits at the first
autoref that has one. An autoref without events has no entries and gets its
report, whatever its annotation file holds. By induction over the autorefs, all of
them get a report exactly when none has an event (`eq_nil_of_length_reports`,
`foldl_of_all_nil`).

When the counting loop ends, it has counted the entries without a flag
(`countEvaluations_eq`).
-/

namespace SslAutoref

/-! ## The counting loop -/

/-- An entry is counted for a verdict. -/
def EventEvaluation.countsAs (value : Evaluation) (e : EventEvaluation) : Bool :=
  !e.ignore && e.value == value

/-- How many entries are counted for each verdict. -/
def countsOf (evaluations : List EventEvaluation) : Counts where
  truePositives := evaluations.countP (·.countsAs .truePositive)
  falsePositives := evaluations.countP (·.countsAs .falsePositive)
  falseNegatives := evaluations.countP (·.countsAs .falseNegative)

/-- Two counts side by side. -/
def Counts.add (c1 c2 : Counts) : Counts where
  truePositives := c1.truePositives + c2.truePositives
  falsePositives := c1.falsePositives + c2.falsePositives
  falseNegatives := c1.falseNegatives + c2.falseNegatives

theorem Counts.add_assoc (c1 c2 c3 : Counts) : (c1.add c2).add c3 = c1.add (c2.add c3) := by
  unfold Counts.add
  simp only [Nat.add_assoc]

theorem countsOf_cons (e : EventEvaluation) (es : List EventEvaluation) :
    countsOf (e :: es) = (countsOf [e]).add (countsOf es) := by
  show countsOf ([e] ++ es) = _
  unfold countsOf Counts.add
  simp only [List.countP_append]

/-- A round that does not exit adds the entry to the counts. -/
theorem countEvaluation_eq {counts counts' : Counts} {entry : EventEvaluation × Nat}
    (h : countEvaluation counts entry = .ok counts') :
    counts' = counts.add (countsOf [entry.1]) := by
  obtain ⟨⟨value, autorefEvent, humanrefEvent, ignore⟩, i⟩ := entry
  cases ignore with
  | true =>
    -- the entry is passed over, and counts for nothing
    obtain rfl := Except.ok.inj h
    cases value <;> rfl
  | false =>
    cases value with
    | unknown => cases h
    | _ =>
      obtain rfl := Except.ok.inj h
      rfl

/-- **The counting loop**, by induction over the entries. -/
theorem foldlM_countEvaluation {counts counts' : Counts}
    {entries : List (EventEvaluation × Nat)}
    (h : entries.foldlM countEvaluation counts = .ok counts') :
    counts' = counts.add (countsOf (entries.map (·.1))) := by
  induction entries generalizing counts with
  | nil =>
    obtain rfl := Except.ok.inj h
    rfl
  | cons entry entries ih =>
    rw [List.foldlM_cons] at h
    cases hstep : countEvaluation counts entry with
    | error stop =>
      rw [hstep] at h
      cases h
    | ok next =>
      rw [hstep] at h
      rw [ih h, countEvaluation_eq hstep, Counts.add_assoc, ← countsOf_cons, List.map_cons]

/-- When the counting loop ends, it has counted the entries without a flag. -/
theorem countEvaluations_eq {evaluations : List EventEvaluation} {counts : Counts}
    (h : countEvaluations evaluations = .ok counts) : counts = countsOf evaluations := by
  have hcounts := foldlM_countEvaluation h
  have hentries : evaluations.zipIdx.map (·.1) = evaluations := List.zipIdx_map_fst 0 evaluations
  rw [hentries] at hcounts
  rw [hcounts]
  unfold Counts.add
  simp only [Nat.zero_add]

/-! ## One call of `MergeEvaluations` -/

/-- Loading and saving leave the evaluations as they are. -/
theorem loadOrSave_evaluations {fileName : String} {files files' : Files}
    {evaluations evaluations' : List EventEvaluation}
    (h : loadOrSave fileName files evaluations = .ok (files', evaluations')) :
    evaluations' = evaluations := by
  unfold loadOrSave loadEvaluations at h
  split at h
  · exact (Prod.mk.inj (Except.ok.inj h)).2.symm
  · split at h
    · rename_i heq
      rw [← (Prod.mk.inj (Except.ok.inj h)).2]
      exact (Prod.mk.inj heq).2.symm
    · rename_i heq
      rw [← (Prod.mk.inj (Except.ok.inj h)).2]
      exact (Prod.mk.inj heq).2.symm
    · cases h
    · cases h

/-- No evaluations are consistent with every annotation file. -/
theorem loadOrSave_nil (fileName : String) (files : Files) :
    ∃ files', loadOrSave fileName files [] = .ok (files', []) := by
  unfold loadOrSave
  cases files fileName with
  | none => exact ⟨_, rfl⟩
  | some text => exact ⟨_, rfl⟩

/-- An entry to be counted that has no verdict ends the counting. -/
theorem countEvaluations_unknown {e : EventEvaluation} {es : List EventEvaluation}
    (hignore : e.ignore = false) (hvalue : e.value = .unknown) :
    countEvaluations (e :: es) = .error (.unknownEvaluation 0) := by
  unfold countEvaluations
  rw [List.zipIdx_cons, List.foldlM_cons]
  simp only [countEvaluation, hignore, hvalue]
  rfl

section Merge

variable (logFile : String) (ports : List UInt16) (i : Nat) {run : EvalRun}

/-- Without evaluations there is a report with nothing in it. -/
theorem mergeEvaluations_nil (run : EvalRun) :
    ∃ files, mergeEvaluations logFile ports i [] run =
      { run with
        files := files
        reports := run.reports ++ [{ port := ports.getD i 0, counts := {} }] } := by
  obtain ⟨files, hfiles⟩ := loadOrSave_nil (evaluationsFileName logFile i) run.files
  refine ⟨files, ?_⟩
  have hcount : countEvaluations [] = .ok {} := rfl
  unfold mergeEvaluations
  simp only [hfiles, hcount]

/-- With an entry that has no verdict in front there is none. -/
theorem reports_mergeEvaluations_unknown {e : EventEvaluation} {es : List EventEvaluation}
    (hignore : e.ignore = false) (hvalue : e.value = .unknown) :
    (mergeEvaluations logFile ports i (e :: es) run).reports = run.reports := by
  unfold mergeEvaluations
  cases hmerge : loadOrSave (evaluationsFileName logFile i) run.files (e :: es) with
  | error stop => rfl
  | ok result =>
    obtain ⟨files, evaluations⟩ := result
    obtain rfl := loadOrSave_evaluations hmerge
    simp only [countEvaluations_unknown hignore hvalue]

/-- A call adds no report, or one with the counts of the entries. -/
theorem reports_mergeEvaluations (evaluations : List EventEvaluation) :
    (mergeEvaluations logFile ports i evaluations run).reports = run.reports ∨
      ∃ report, report.counts = countsOf evaluations ∧
        (mergeEvaluations logFile ports i evaluations run).reports = run.reports ++ [report] := by
  unfold mergeEvaluations
  cases hmerge : loadOrSave (evaluationsFileName logFile i) run.files evaluations with
  | error stop => exact .inl rfl
  | ok result =>
    obtain ⟨files, evaluations'⟩ := result
    obtain rfl := loadOrSave_evaluations hmerge
    dsimp only
    cases hcount : countEvaluations evaluations' with
    | error stop => exact .inl rfl
    | ok counts => exact .inr ⟨_, countEvaluations_eq hcount, rfl⟩

theorem length_reports_mergeEvaluations_le (evaluations : List EventEvaluation) :
    (mergeEvaluations logFile ports i evaluations run).reports.length ≤
      run.reports.length + 1 := by
  rcases @reports_mergeEvaluations logFile ports i run evaluations with h | ⟨report, -, h⟩
  · simp [h]
  · simp [h]

/-- A report that is added has the counts of the entries. -/
theorem mem_reports_mergeEvaluations {evaluations : List EventEvaluation} {report : Report}
    (h : report ∈ (mergeEvaluations logFile ports i evaluations run).reports) :
    report ∈ run.reports ∨ report.counts = countsOf evaluations := by
  rcases @reports_mergeEvaluations logFile ports i run evaluations with
    hreports | ⟨added, hcounts, hreports⟩
  · rw [hreports] at h
    exact .inl h
  · rw [hreports] at h
    rcases List.mem_append.mp h with hmem | hmem
    · exact .inl hmem
    · obtain rfl := List.mem_singleton.mp hmem
      exact .inr hcounts

end Merge

/-! ## One autoref -/

/-- What the sweep pushes has lost its verdict. -/
theorem evaluation_value (human autoref : List RefereeEvent) (p : PushBack) :
    (p.evaluation human autoref).value = .unknown := rfl

theorem ne_nil_of_sweep {human autoref : List RefereeEvent} {ev : List PushBack}
    (hne : autoref ≠ []) (hrun : sweep human autoref = some ev) : ev ≠ [] := by
  cases autoref with
  | nil => exact absurd rfl hne
  | cons a as =>
    rw [(sweep_eq_some_iff.mp hrun).2, pushesFrom, eventPushes]
    simp

section Autorefs

variable (logFile : String) (ports : List UInt16) (human : List RefereeEvent)
  {run : EvalRun}

/-- An autoref without events gets its report, and no entries are passed. -/
theorem evaluateAutoref_nil (hrun : run.stop = none) (i : Nat) :
    ∃ files, evaluateAutoref logFile ports human run ([], i) =
      { files := files
        merged := run.merged ++ [([], [])]
        reports := run.reports ++ [{ port := ports.getD i 0, counts := {} }]
        stop := none } := by
  have hsweep : sweep human [] = some [] := rfl
  obtain ⟨files, hfiles⟩ := mergeEvaluations_nil logFile ports i
    { run with merged := run.merged ++ [([], [])] }
  refine ⟨files, ?_⟩
  unfold evaluateAutoref
  rw [if_neg (by simp [hrun])]
  simp only [hsweep, List.map_nil]
  rw [hfiles, hrun]

/-- An autoref with events gets no report. -/
theorem reports_evaluateAutoref {autoref : List RefereeEvent} (hne : autoref ≠ []) (i : Nat) :
    (evaluateAutoref logFile ports human run (autoref, i)).reports = run.reports := by
  unfold evaluateAutoref
  by_cases hstop : run.stop.isSome = true
  · rw [if_pos hstop]
  · rw [if_neg hstop]
    cases hsweep : sweep human autoref with
    | none => rfl
    | some pushed =>
      obtain ⟨p, ps, rfl⟩ := List.exists_cons_of_ne_nil (ne_nil_of_sweep hne hsweep)
      exact reports_mergeEvaluations_unknown logFile ports i rfl
        (evaluation_value human autoref p)

theorem length_reports_evaluateAutoref_le (autoref : List RefereeEvent × Nat) :
    (evaluateAutoref logFile ports human run autoref).reports.length ≤
      run.reports.length + 1 := by
  unfold evaluateAutoref
  by_cases hstop : run.stop.isSome = true
  · rw [if_pos hstop]
    exact Nat.le_succ _
  · rw [if_neg hstop]
    cases sweep human autoref.1 with
    | none => exact Nat.le_succ _
    | some pushed => exact length_reports_mergeEvaluations_le logFile ports autoref.2 _

/-! ## All autorefs -/

theorem length_reports_foldl_le (run : EvalRun)
    (autorefs : List (List RefereeEvent × Nat)) :
    (autorefs.foldl (evaluateAutoref logFile ports human) run).reports.length ≤
      run.reports.length + autorefs.length := by
  induction autorefs generalizing run with
  | nil => exact Nat.le_refl _
  | cons autoref autorefs ih =>
    have hstep : (evaluateAutoref logFile ports human run autoref).reports.length ≤
        run.reports.length + 1 := length_reports_evaluateAutoref_le logFile ports human autoref
    have hrest := ih (evaluateAutoref logFile ports human run autoref)
    rw [List.foldl_cons, List.length_cons]
    omega

/-- As many reports as autorefs leave no room for an autoref with events. -/
theorem eq_nil_of_length_reports {autorefs : List (List RefereeEvent × Nat)}
    (h : (autorefs.foldl (evaluateAutoref logFile ports human) run).reports.length =
      run.reports.length + autorefs.length) : ∀ x ∈ autorefs, x.1 = [] := by
  induction autorefs generalizing run with
  | nil => exact fun x hx => absurd hx List.not_mem_nil
  | cons autoref autorefs ih =>
    obtain ⟨events, i⟩ := autoref
    rw [List.foldl_cons, List.length_cons] at h
    have hrest := length_reports_foldl_le logFile ports human
      (evaluateAutoref logFile ports human run (events, i)) autorefs
    have hempty : events = [] := by
      by_contra hne
      rw [reports_evaluateAutoref logFile ports human hne] at hrest
      omega
    have hstep : (evaluateAutoref logFile ports human run (events, i)).reports.length ≤
        run.reports.length + 1 := length_reports_evaluateAutoref_le logFile ports human _
    intro x hx
    rcases List.mem_cons.mp hx with rfl | hx
    · exact hempty
    · exact @ih (evaluateAutoref logFile ports human run (events, i)) (by omega) x hx

/-- When no autoref has an event, all of them get their report in turn, and no
entries are passed. -/
theorem foldl_of_all_nil {autorefs : List (List RefereeEvent)} (hrun : run.stop = none)
    (h : ∀ events ∈ autorefs, events = []) (i : Nat) :
    ∃ files, (autorefs.zipIdx i).foldl (evaluateAutoref logFile ports human) run =
      { files := files
        merged := run.merged ++ List.replicate autorefs.length ([], [])
        reports := run.reports ++ (List.range' i autorefs.length).map fun j =>
          { port := ports.getD j 0, counts := {} }
        stop := none } := by
  induction autorefs generalizing run i with
  | nil => exact ⟨run.files, by simp [← hrun]⟩
  | cons events autorefs ih =>
    obtain rfl := h events List.mem_cons_self
    obtain ⟨files, hstep⟩ := evaluateAutoref_nil logFile ports human hrun i
    have hstop : (evaluateAutoref logFile ports human run ([], i)).stop = none := by
      rw [hstep]
    obtain ⟨files', hrest⟩ :=
      ih hstop (fun e he => h e (List.mem_cons_of_mem _ he)) (i + 1)
    refine ⟨files', ?_⟩
    rw [List.zipIdx_cons, List.foldl_cons, hrest, hstep, List.length_cons,
      List.range'_succ, List.replicate_succ]
    simp

end Autorefs

end SslAutoref
