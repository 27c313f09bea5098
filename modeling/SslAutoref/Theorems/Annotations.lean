import SslAutoref.Logic.EvaluateRun
import SslAutoref.Logic.SavedRows

/-!
# The annotations of a human

What `LoadEvaluations` makes of an annotation file, whatever is in it:

* **acceptance** — it scans the row number into its own loop variable, so it accepts a
  file with rows missing or repeated, and exactly the consistent ones when the rows come
  in order (`accepts_iff`);
* **bounds** — it reads outside the evaluations exactly when it gets to a row with a
  number that is no position (`inBounds_iff`);
* **flags** — it drops the flags it has scanned, so they are honoured exactly when they
  change nothing (`flags_honoured_iff`);
* **round trip** — it accepts what `SaveEvaluations` wrote for the same evaluations
  exactly when the row numbers fit three digits (`round_trips_iff`);
* **rounds** — its loop ends after at most one round more than the file has bytes, wherever
  the row numbers send it (`load_terminates`).
-/

namespace SslAutoref.Theorems

open Scanf

/-! ## Acceptance -/

/-- The file starts with one row for every evaluation, in order and numbered from zero,
each of which agrees with its evaluation. -/
def Consistent (text : List Char) (evaluations : List EventEvaluation) : Prop :=
  ∃ rows more, rowsOf text = rows ++ more ∧ rows.length = evaluations.length ∧
    ∀ (k : Nat) row, rows[k]? = some row →
      row.i.toInt = k ∧ ∃ e, evaluations[k]? = some e ∧ row.Agrees e

/-- Rows that the loop passes, and the one with the last number that it ends at, are
numbered from zero and in order. -/
def RowsInOrder (text : List Char) (evaluations : List EventEvaluation) : Prop :=
  ∀ before last, Reaches evaluations (rowsOf text) before last → Matches evaluations last →
    IsLast evaluations last →
    ∀ (k : Nat) row, (before ++ [last])[k]? = some row → row.i.toInt = k

/-- A row with the right number that agrees with its evaluation. -/
theorem matches_of_agrees {evaluations : List EventEvaluation} {k : Nat} {row : AnnotationRow}
    {e : EventEvaluation} (hk : row.i.toInt = k) (he : evaluations[k]? = some e)
    (hagrees : row.Agrees e) : Matches evaluations row :=
  ⟨e, (evaluationAt_eq_some hk).trans he, hagrees⟩

/-- A consistent file is accepted. -/
theorem accepted_of_consistent {text : List Char} {evaluations : List EventEvaluation}
    (h : Consistent text evaluations) :
    (loadEvaluations text evaluations).1 = .returned true := by
  obtain ⟨rows, more, hrows, hlen, hall⟩ := h
  by_cases hne : evaluations = []
  · rw [hne]
    exact loadEvaluations_nil text
  have hpos := List.length_pos_iff.mpr hne
  have hmatches : ∀ (k : Nat) row, rows[k]? = some row → Matches evaluations row := by
    intro k row hk
    obtain ⟨hnumber, e, he, hagrees⟩ := hall k row hk
    exact matches_of_agrees hnumber he hagrees
  rw [loadEvaluations_eq text hne, loadRows_eq_true_iff, hrows]
  rcases List.eq_nil_or_concat' rows with rfl | ⟨before, last, rfl⟩
  · rw [List.length_nil] at hlen
    omega
  rw [List.length_append, List.length_singleton] at hlen
  have hlast : (before ++ [last])[before.length]? = some last := List.getElem?_concat_length
  -- the last row ends the loop, and those before it have other numbers
  refine ⟨before, last, ⟨⟨more, List.append_assoc _ _ _⟩, ?_⟩, hmatches _ _ hlast, ?_⟩
  · intro r hr
    obtain ⟨k, hk⟩ := List.getElem?_of_mem hr
    obtain ⟨hlt, -⟩ := List.getElem?_eq_some_iff.mp hk
    have hk' : (before ++ [last])[k]? = some r := by rwa [List.getElem?_append_left hlt]
    have hnumber := (hall k r hk').1
    refine ⟨hmatches k r hk', ?_⟩
    unfold IsLast
    omega
  · have hnumber := (hall _ _ hlast).1
    unfold IsLast
    omega

/-- An accepted file whose rows are in order is consistent. -/
theorem consistent_of_inOrder {text : List Char} {evaluations : List EventEvaluation}
    {before : List AnnotationRow} {last : AnnotationRow}
    (hreaches : Reaches evaluations (rowsOf text) before last)
    (hmatches : Matches evaluations last) (hlast : IsLast evaluations last)
    (hnumbers : ∀ (k : Nat) row, (before ++ [last])[k]? = some row → row.i.toInt = k) :
    Consistent text evaluations := by
  obtain ⟨⟨after, hrows⟩, hbefore⟩ := hreaches
  refine ⟨before ++ [last], after, ?_, ?_, ?_⟩
  · rw [hrows, List.append_assoc]
    rfl
  · -- the number of the last row says how many there are
    have hnumber := hnumbers before.length last List.getElem?_concat_length
    rw [List.length_append, List.length_singleton]
    unfold IsLast at hlast
    omega
  · intro k row hk
    have hnumber := hnumbers k row hk
    have hrow : Matches evaluations row := by
      rcases List.mem_append.mp (List.mem_of_getElem? hk) with hmem | hmem
      · exact (hbefore row hmem).1
      · rw [List.mem_singleton.mp hmem]
        exact hmatches
    obtain ⟨e, he, hagrees⟩ := hrow
    exact ⟨hnumber, e, (evaluationAt_eq_some hnumber).symm.trans he, hagrees⟩

/-- The rows the loop passes in a consistent file are in order. -/
theorem inOrder_of_consistent {text : List Char} {evaluations : List EventEvaluation}
    {before : List AnnotationRow} {last : AnnotationRow}
    (hreaches : Reaches evaluations (rowsOf text) before last)
    (hmatches : Matches evaluations last) (h : Consistent text evaluations) :
    ∀ (k : Nat) row, (before ++ [last])[k]? = some row → row.i.toInt = k := by
  obtain ⟨⟨after, hrows⟩, hbefore⟩ := hreaches
  obtain ⟨rows, more, hsplit, hlen, hall⟩ := h
  have hpart : before ++ [last] ++ after = rows ++ more := by
    rw [← hsplit, hrows, List.append_assoc]
    rfl
  -- a row before the last one would have the last number, were there as many of them
  have hshort : before.length < rows.length := by
    by_contra hnot
    obtain ⟨hlow, hhigh⟩ := hmatches.inRange
    have hk : rows.length - 1 < before.length := by omega
    have hrow : rows[rows.length - 1]? = some before[rows.length - 1] := by
      rw [← List.getElem?_append_left (show rows.length - 1 < rows.length by omega), ← hpart,
        List.append_assoc, List.getElem?_append_left hk, List.getElem?_eq_getElem hk]
    have hnumber := (hall _ _ hrow).1
    refine (hbefore _ (List.getElem_mem hk)).2 ?_
    unfold IsLast
    omega
  -- so they are among the rows of the consistent file
  intro k row hk
  obtain ⟨hlt, -⟩ := List.getElem?_eq_some_iff.mp hk
  rw [List.length_append, List.length_singleton] at hlt
  have hk' : rows[k]? = some row := by
    rw [← List.getElem?_append_left (show k < rows.length by omega), ← hpart,
      List.getElem?_append_left (by rw [List.length_append, List.length_singleton]; omega)]
    exact hk
  exact (hall k row hk').1

/-- **Acceptance.** Whatever the file holds and however many evaluations there are,
`LoadEvaluations` accepts exactly the consistent files when the rows it passes are in
order, and not otherwise. -/
theorem accepts_iff (text : List Char) (evaluations : List EventEvaluation) :
    ((loadEvaluations text evaluations).1 = .returned true ↔ Consistent text evaluations) ↔
      RowsInOrder text evaluations := by
  refine ⟨?_, ?_⟩
  · intro h before last hreaches hmatches hlast
    have hne : evaluations ≠ [] := by
      rintro rfl
      have hrange := hmatches.inRange
      unfold InRange at hrange
      rw [List.length_nil] at hrange
      omega
    have haccepted : (loadEvaluations text evaluations).1 = .returned true := by
      rw [loadEvaluations_eq text hne]
      exact loadRows_eq_true_iff.mpr ⟨before, last, hreaches, hmatches, hlast⟩
    exact inOrder_of_consistent hreaches hmatches (h.mp haccepted)
  · intro h
    refine ⟨?_, accepted_of_consistent⟩
    intro haccepted
    by_cases hne : evaluations = []
    · subst hne
      exact ⟨[], rowsOf text, rfl, rfl, nofun⟩
    · rw [loadEvaluations_eq text hne] at haccepted
      obtain ⟨before, last, hreaches, hmatches, hlast⟩ := loadRows_eq_true_iff.mp haccepted
      exact consistent_of_inOrder hreaches hmatches hlast
        (h before last hreaches hmatches hlast)

/-- An entry as the sweep makes it, of a goal of the autoref. -/
def sampleEvaluation : EventEvaluation :=
  EventEvaluation.new .falsePositive
    { stopTimestamp := 10000000
      commandTimestamp := 11000000
      commandCounter := 2
      command := .goalYellow } {} false

/-- A file of one row. -/
theorem rowsOf_one {i : Nat} (hi : i < 1000) (e : EventEvaluation) :
    rowsOf (printRow i e) = [e.savedRow i] := by
  have hrow := scanRow_printRow hi e []
  rw [List.append_nil] at hrow
  rw [rowsOf_of_some hrow]
  exact congrArg _ (rowsOf_of_none rfl)

/-- Two evaluations are accepted with a file that only has the second row. -/
theorem accepts_a_missing_row :
    ¬ ∀ (text : List Char) (evaluations : List EventEvaluation), evaluations.length ≤ 1000 →
      ((loadEvaluations text evaluations).1 = .returned true ↔
        Consistent text evaluations) := by
  intro h
  have hiff := h (printRow 1 sampleEvaluation) [sampleEvaluation, sampleEvaluation]
    (Nat.le_of_ble_eq_true rfl)
  have hone : 1 < 1000 := by decide
  have hrows := rowsOf_one hone sampleEvaluation
  have hnumber := toInt_savedRow hone sampleEvaluation
  have haccepted : (loadEvaluations (printRow 1 sampleEvaluation)
      [sampleEvaluation, sampleEvaluation]).1 = .returned true := by
    rw [loadEvaluations_eq _ (List.cons_ne_nil _ _), hrows, loadRows_eq_true_iff]
    refine ⟨[], _, reaches_head _ _, ?_, ?_⟩
    · exact matches_of_agrees hnumber rfl (savedRow_agrees sampleEvaluation false 1)
    · show _ + 1 = _
      rw [hnumber]
      rfl
  obtain ⟨rows, more, hsplit, hlen, -⟩ := hiff.mp haccepted
  have hcount := congrArg List.length (hrows.symm.trans hsplit)
  rw [List.length_append, hlen, List.length_singleton, List.length_cons,
    List.length_singleton] at hcount
  omega

/-! ## Bounds -/

/-- Every row the loop gets to has a number that is a position. -/
def NumbersInRange (text : List Char) (evaluations : List EventEvaluation) : Prop :=
  evaluations ≠ [] → ∀ before row, Reaches evaluations (rowsOf text) before row →
    InRange evaluations row

/-- **Bounds.** Whatever the file holds and however many evaluations there are,
`LoadEvaluations` stays inside them exactly when every row it gets to, past rows that let
it go on, has a number that is a position. -/
theorem inBounds_iff (text : List Char) (evaluations : List EventEvaluation) :
    (loadEvaluations text evaluations).1 ≠ .outOfRange ↔ NumbersInRange text evaluations := by
  refine ⟨?_, ?_⟩
  · intro h hne before row hreaches
    by_contra hrange
    rw [loadEvaluations_eq text hne] at h
    exact h (loadRows_eq_outOfRange_iff.mpr ⟨before, row, hreaches, hrange⟩)
  · intro h hout
    by_cases hne : evaluations = []
    · rw [hne, loadEvaluations_nil] at hout
      cases hout
    · rw [loadEvaluations_eq text hne] at hout
      obtain ⟨before, row, hreaches, hrange⟩ := loadRows_eq_outOfRange_iff.mp hout
      exact hrange (h hne before row hreaches)

/-- A row with the number seven, and one evaluation. -/
theorem reads_out_of_bounds :
    ¬ ∀ (text : List Char) (evaluations : List EventEvaluation),
      (loadEvaluations text evaluations).1 ≠ .outOfRange := by
  intro h
  have hseven : 7 < 1000 := by decide
  refine h (printRow 7 sampleEvaluation) [sampleEvaluation] ?_
  rw [loadEvaluations_eq _ (List.cons_ne_nil _ _), rowsOf_one hseven,
    loadRows_eq_outOfRange_iff]
  refine ⟨[], _, reaches_head _ _, ?_⟩
  rintro ⟨-, hhigh⟩
  rw [toInt_savedRow hseven, List.length_singleton] at hhigh
  omega

/-! ## Flags -/

instance (evaluations : List EventEvaluation) (row : AnnotationRow) :
    Decidable (IsLast evaluations row) :=
  inferInstanceAs (Decidable (_ = _))

/-- The rows of a file that is accepted, up to the one with the last number. -/
def rowsRead (evaluations : List EventEvaluation) : List AnnotationRow → List AnnotationRow
  | [] => []
  | row :: rows =>
    if IsLast evaluations row then [row] else row :: rowsRead evaluations rows

/-- The flag that the file gives for evaluation `k`: that of the last row with this
number, and none without such a row. -/
def flagGiven (text : List Char) (evaluations : List EventEvaluation) (k : Nat) :
    Option Bool :=
  ((rowsRead evaluations (rowsOf text)).reverse.find? fun row => row.i.toInt == (k : Int)).map
    (·.ignore != 0)

/-- The evaluations with the flags of the file, and otherwise as they are. -/
def annotated (text : List Char) (evaluations : List EventEvaluation) :
    List EventEvaluation :=
  evaluations.mapIdx fun k e => { e with ignore := (flagGiven text evaluations k).getD e.ignore }

/-- What is left in `*evaluations_ptr` has the flags of the file, and the counts of a
report are those of the entries without one. -/
structure FlagsHonoured (text : List Char) (evaluations : List EventEvaluation) : Prop where
  entries : (loadEvaluations text evaluations).2 = annotated text evaluations
  counts : ∀ logFile ports refId run, run.files (evaluationsFileName logFile refId) = some text →
    ∀ report ∈ (mergeEvaluations logFile ports refId evaluations run).reports,
      report ∈ run.reports ∨ report.counts = countsOf (annotated text evaluations)

/-- Every flag in the file is the one that the evaluation has already. -/
def FlagsAgree (text : List Char) (evaluations : List EventEvaluation) : Prop :=
  ∀ (k : Nat) e, evaluations[k]? = some e →
    ∀ flag ∈ flagGiven text evaluations k, flag = e.ignore

/-- Flags that agree change nothing, and others do. -/
theorem annotated_eq_iff {text : List Char} {evaluations : List EventEvaluation} :
    annotated text evaluations = evaluations ↔ FlagsAgree text evaluations := by
  unfold annotated FlagsAgree
  rw [List.mapIdx_eq_iff]
  refine forall_congr' fun k => ?_
  cases evaluations[k]? with
  | none =>
    refine ⟨?_, fun _ => rfl⟩
    intro _ e he
    cases he
  | some e =>
    rw [Option.map_some, Option.some_inj]
    cases flagGiven text evaluations k with
    | none =>
      refine ⟨?_, fun _ => rfl⟩
      intro _ e' _ flag hflag
      cases hflag
    | some flag =>
      refine ⟨?_, ?_⟩
      · rintro heq e' he' flag' hflag'
        obtain rfl := Option.some.inj he'
        obtain rfl := Option.some.inj hflag'
        exact (congrArg EventEvaluation.ignore heq).symm
      · intro h
        rw [Option.getD_some, h e rfl flag rfl]

/-- **Flags.** For every list of evaluations and every file, and so for those that are
accepted, the flags in the file are honoured exactly when they change nothing. -/
theorem flags_honoured_iff (text : List Char) (evaluations : List EventEvaluation) :
    FlagsHonoured text evaluations ↔ FlagsAgree text evaluations := by
  rw [← annotated_eq_iff]
  refine ⟨fun h => h.entries.symm, ?_⟩
  intro h
  refine ⟨h.symm, ?_⟩
  -- the counts are those of the evaluations, whatever the file
  intro logFile ports refId run _ report hreport
  rw [h]
  exact mem_reports_mergeEvaluations logFile ports refId hreport

/-- An accepted file of one row flags the sample evaluation, which is counted anyway. -/
theorem drops_a_flag :
    ¬ ∀ (text : List Char) (evaluations : List EventEvaluation),
      (loadEvaluations text evaluations).1 = .returned true →
      FlagsHonoured text evaluations := by
  intro h
  let flagged : EventEvaluation := { sampleEvaluation with ignore := true }
  have hrows := rowsOf_one (Nat.succ_pos 999) flagged
  have hnumber := toInt_savedRow (Nat.succ_pos 999) flagged
  have haccepted : (loadEvaluations (printRow 0 flagged) [sampleEvaluation]).1 =
      .returned true := by
    rw [loadEvaluations_eq _ (List.cons_ne_nil _ _), hrows, loadRows_eq_true_iff]
    refine ⟨[], _, reaches_head _ _, ?_, ?_⟩
    · exact matches_of_agrees hnumber rfl (savedRow_agrees sampleEvaluation true 0)
    · show _ + 1 = _
      rw [hnumber]
      rfl
  have hagree := annotated_eq_iff.mp (h _ _ haccepted).entries.symm
  -- the file says true, the evaluation false
  have hgiven : flagGiven (printRow 0 flagged) [sampleEvaluation] 0 = some true := by
    unfold flagGiven
    rw [hrows]
    decide
  exact absurd (hagree 0 sampleEvaluation rfl true hgiven) (by decide)

/-! ## Round trip -/

/-- The evaluations with the flags that a human has set. -/
def flagged (evaluations : List EventEvaluation) (flags : Nat → Bool) : List EventEvaluation :=
  evaluations.mapIdx fun k e => { e with ignore := flags k }

/-- The file saved for the flagged evaluations is accepted for the evaluations, and
`MergeEvaluations` leaves it, as all the others, as it was. -/
structure RoundTrips (evaluations : List EventEvaluation) (flags : Nat → Bool) : Prop where
  accepted : (loadEvaluations (saveEvaluations (flagged evaluations flags)) evaluations).1 =
    .returned true
  kept : ∀ logFile ports refId run,
    run.files (evaluationsFileName logFile refId) =
      some (saveEvaluations (flagged evaluations flags)) →
    (mergeEvaluations logFile ports refId evaluations run).files = run.files

/-- An accepted file is not written to. -/
theorem files_mergeEvaluations {text : List Char} {evaluations : List EventEvaluation}
    (haccepted : (loadEvaluations text evaluations).1 = .returned true) {logFile : String}
    {refId : Nat} {run : EvalRun}
    (htext : run.files (evaluationsFileName logFile refId) = some text) (ports : List UInt16) :
    (mergeEvaluations logFile ports refId evaluations run).files = run.files := by
  have hload : loadEvaluations text evaluations = (.returned true, evaluations) :=
    Prod.ext haccepted rfl
  unfold mergeEvaluations loadOrSave
  rw [htext]
  dsimp only
  rw [hload]
  dsimp only
  cases countEvaluations evaluations with
  | error stop => rfl
  | ok counts => rfl

/-- What is saved of at most a thousand evaluations is consistent with them. -/
theorem consistent_of_saved {evaluations : List EventEvaluation} {flags : Nat → Bool}
    (hlen : evaluations.length ≤ 1000) :
    Consistent (saveEvaluations (flagged evaluations flags)) evaluations := by
  have hrows : rowsOf (saveEvaluations (flagged evaluations flags)) =
      (flagged evaluations flags).mapIdx fun i e => e.savedRow i :=
    rowsOf_saveEvaluations (by rwa [flagged, List.length_mapIdx])
  refine ⟨_, [], hrows.trans (List.append_nil _).symm, ?_, ?_⟩
  · rw [List.length_mapIdx, flagged, List.length_mapIdx]
  · intro k row hk
    rw [flagged, List.getElem?_mapIdx, List.getElem?_mapIdx] at hk
    cases he : evaluations[k]? with
    | none =>
      rw [he] at hk
      cases hk
    | some e =>
      rw [he] at hk
      obtain rfl := Option.some.inj hk
      have hlt := (List.getElem?_eq_some_iff.mp he).1
      exact ⟨toInt_savedRow (by omega) _, e, rfl, savedRow_agrees e (flags k) k⟩

/-- No file is accepted for more than a thousand evaluations, as no row has the number of
the last one. -/
theorem length_le_of_accepted {text : List Char} {evaluations : List EventEvaluation}
    (haccepted : (loadEvaluations text evaluations).1 = .returned true) :
    evaluations.length ≤ 1000 := by
  by_cases hne : evaluations = []
  · rw [hne]
    exact Nat.zero_le _
  · rw [loadEvaluations_eq text hne] at haccepted
    obtain ⟨before, last, ⟨⟨after, hrows⟩, -⟩, -, hlast⟩ := loadRows_eq_true_iff.mp haccepted
    have hnumber : last.i.toInt < 1000 := by
      refine @number_lt_of_mem_rowsOf text last ?_
      rw [hrows]
      exact List.mem_append_right _ List.mem_cons_self
    unfold IsLast at hlast
    omega

/-- **Round trip.** Whatever the evaluations and the flags, what `SaveEvaluations` writes is
loaded again exactly when there are at most a thousand evaluations. -/
theorem round_trips_iff (evaluations : List EventEvaluation) (flags : Nat → Bool) :
    RoundTrips evaluations flags ↔ evaluations.length ≤ 1000 := by
  refine ⟨fun h => length_le_of_accepted h.accepted, ?_⟩
  intro hlen
  have haccepted := accepted_of_consistent (@consistent_of_saved evaluations flags hlen)
  exact ⟨haccepted, fun _ ports _ _ htext => files_mergeEvaluations haccepted htext ports⟩

/-- What is saved of a thousand and one evaluations is not loaded again. -/
theorem loses_the_annotations :
    ¬ ∀ (evaluations : List EventEvaluation) (flags : Nat → Bool),
      RoundTrips evaluations flags := by
  intro h
  have hlen := length_le_of_accepted
    (h (List.replicate 1001 sampleEvaluation) fun _ => true).accepted
  rw [List.length_replicate] at hlen
  exact absurd hlen (by decide)

/-! ## Rounds -/

/-- The loop of `LoadEvaluations`, entered with loop variable `i` and the given text left to
read, makes `n` rounds before it ends. -/
inductive LoadRuns (evaluations : List EventEvaluation) :
    Nat → Nat → List Char → LoadOutcome → Prop
  | passed {i : Nat} {text : List Char} (hi : ¬ i < evaluations.length) :
      LoadRuns evaluations 0 i text (.returned true)
  | noRow {i : Nat} {text : List Char} (hi : i < evaluations.length)
      (hrow : scanRow text = none) : LoadRuns evaluations 1 i text (.returned false)
  | outOfRange {i : Nat} {text rest : List Char} {row : AnnotationRow}
      (hi : i < evaluations.length) (hrow : scanRow text = some (row, rest))
      (hat : evaluationAt evaluations row.i = none) :
      LoadRuns evaluations 1 i text .outOfRange
  | differs {i : Nat} {text rest : List Char} {row : AnnotationRow} {e : EventEvaluation}
      (hi : i < evaluations.length) (hrow : scanRow text = some (row, rest))
      (hat : evaluationAt evaluations row.i = some e) (hdiffers : row.differs e = true) :
      LoadRuns evaluations 1 i text (.returned false)
  | goesOn {n i : Nat} {text rest : List Char} {row : AnnotationRow} {e : EventEvaluation}
      {outcome : LoadOutcome} (hi : i < evaluations.length)
      (hrow : scanRow text = some (row, rest))
      (hat : evaluationAt evaluations row.i = some e) (hsame : row.differs e = false)
      (more : LoadRuns evaluations n (row.i.toInt.toNat + 1) rest outcome) :
      LoadRuns evaluations (n + 1) i text outcome

/-- Wherever the loop is and whatever is left to read, it ends. The loop variable is no
measure, the text that is left is. -/
theorem exists_loadRuns (evaluations : List EventEvaluation) (i : Nat) (text : List Char) :
    ∃ n outcome, LoadRuns evaluations n i text outcome := by
  induction hlen : text.length using Nat.strongRecOn generalizing i text with
  | ind len ih =>
    by_cases hi : i < evaluations.length
    · cases hrow : scanRow text with
      | none => exact ⟨1, _, .noRow hi hrow⟩
      | some scanned =>
        obtain ⟨row, rest⟩ := scanned
        cases hat : evaluationAt evaluations row.i with
        | none => exact ⟨1, _, .outOfRange hi hrow hat⟩
        | some e =>
          cases hdiffers : row.differs e with
          | true => exact ⟨1, _, .differs hi hrow hat hdiffers⟩
          | false =>
            have hrest := length_of_scanRow hrow
            obtain ⟨n, outcome, hmore⟩ :=
              ih rest.length (by omega) (row.i.toInt.toNat + 1) rest rfl
            exact ⟨n + 1, outcome, .goesOn hi hrow hat hdiffers hmore⟩
    · exact ⟨0, _, .passed hi⟩

/-- Every round that goes on has read something. -/
theorem LoadRuns.rounds_le {evaluations : List EventEvaluation} {n i : Nat}
    {text : List Char} {outcome : LoadOutcome}
    (h : LoadRuns evaluations n i text outcome) : n ≤ text.length + 1 := by
  induction h with
  | passed => omega
  | noRow => omega
  | outOfRange => omega
  | differs => omega
  | goesOn _ hrow _ _ _ ih =>
    have hrest := length_of_scanRow hrow
    omega

/-- With fuel for all its rounds the loop ends as it does without. -/
theorem LoadRuns.loadUpTo_eq {evaluations : List EventEvaluation} {n i : Nat}
    {text : List Char} {outcome : LoadOutcome} (h : LoadRuns evaluations n i text outcome)
    (spare : Nat) : loadUpTo evaluations (spare + n) i text = outcome := by
  induction h with
  | passed hi =>
    cases spare with
    | zero => rw [loadUpTo, if_neg hi]
    | succ spare => rw [loadUpTo, if_neg hi]
  | noRow hi hrow =>
    rw [loadUpTo, if_pos hi]
    simp only [hrow]
  | outOfRange hi hrow hat =>
    rw [loadUpTo, if_pos hi]
    simp only [hrow, hat]
  | differs hi hrow hat hdiffers =>
    rw [loadUpTo, if_pos hi]
    simp only [hrow, hat, hdiffers]
    rfl
  | goesOn hi hrow hat hsame _ ih =>
    rw [← Nat.add_assoc, loadUpTo, if_pos hi]
    simp only [hrow, hat, hsame]
    exact ih

/-- The loop ends, never after more rounds than the text has bytes and one more, and always
as `loadEvaluations` says. -/
structure LoadTerminates (text : List Char) (evaluations : List EventEvaluation) : Prop where
  ends : ∃ n outcome, LoadRuns evaluations n 0 text outcome
  rounds : ∀ n outcome, LoadRuns evaluations n 0 text outcome → n ≤ text.length + 1
  outcome : ∀ n outcome, LoadRuns evaluations n 0 text outcome →
    (loadEvaluations text evaluations).1 = outcome

/-- **Rounds.** Whatever the file holds and however many evaluations there are,
`LoadEvaluations` ends, after at most one round more than the file has bytes. -/
theorem load_terminates (text : List Char) (evaluations : List EventEvaluation) :
    LoadTerminates text evaluations where
  ends := exists_loadRuns evaluations 0 text
  rounds _ _ hruns := hruns.rounds_le
  outcome n outcome hruns := by
    obtain ⟨spare, hfuel⟩ := Nat.exists_eq_add_of_le' hruns.rounds_le
    unfold loadEvaluations
    rw [hfuel]
    exact hruns.loadUpTo_eq spare

end SslAutoref.Theorems
