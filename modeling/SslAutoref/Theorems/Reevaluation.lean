import SslAutoref.Logic.SavedRows
import SslAutoref.Logic.Verdicts
import SslAutoref.Theorems.Annotations

/-!
# Evaluating a log again

A run of the evaluator leaves one annotation file for every autoref it gets to: the one it
found there, if that is consistent with the evaluation, and else a new one (`fileAfter`).
It writes to no other file. To run it again on the files that it left changes nothing, and
gives the same calls, the same reports and the same end (`reevaluates`).
-/

namespace SslAutoref.Theorems

open Scanf

/-! ## File names -/

/-- Two autorefs have different files. -/
theorem evaluationsFileName_inj {logFile : String} {i j : Nat}
    (h : evaluationsFileName logFile i = evaluationsFileName logFile j) : i = j := by
  have hstrings : toString i = toString j := by
    unfold evaluationsFileName at h
    exact (String.append_right_inj _).mp ((String.append_left_inj _).mp h)
  have hdigits : decimal i = decimal j := by
    have hlists := congrArg String.toList hstrings
    simpa [decimal, Nat.repr] using hlists
  rw [← digitsValue_decimal i, hdigits, digitsValue_decimal]

/-! ## One file -/

/-- What becomes of a file when the given evaluations are merged with it. -/
def fileAfter (before : Option (List Char)) (evaluations : List EventEvaluation) :
    Option (List Char) :=
  match before with
  | none => some (saveEvaluations evaluations)
  | some text =>
    if (loadEvaluations text evaluations).1 = .returned false then
      some (saveEvaluations evaluations)
    else some text

/-- What was saved is accepted or refused. -/
theorem load_saved_self (evaluations : List EventEvaluation) :
    (loadEvaluations (saveEvaluations evaluations) evaluations).1 = .returned true ∨
      (loadEvaluations (saveEvaluations evaluations) evaluations).1 = .returned false := by
  by_cases hlen : evaluations.length ≤ 1000
  · have hflagged : flagged evaluations (fun k => (evaluations[k]?).any (·.ignore)) =
        evaluations := by
      refine List.ext_getElem? fun k => ?_
      rw [flagged, List.getElem?_mapIdx]
      cases evaluations[k]? <;> rfl
    have haccepted := accepted_of_consistent
      (@consistent_of_saved evaluations (fun k => (evaluations[k]?).any (·.ignore)) hlen)
    rw [hflagged] at haccepted
    exact .inl haccepted
  · have hne := @load_saved_ne_outOfRange evaluations evaluations (by omega)
    have hrunning := loadEvaluations_ne_running (saveEvaluations evaluations) evaluations
    cases hload : (loadEvaluations (saveEvaluations evaluations) evaluations).1 with
    | returned value => cases value <;> simp
    | outOfRange => exact absurd hload hne
    | running => exact absurd hload hrunning

/-- `LoadEvaluations` returns, if there is a file to load. -/
def Returns (file : Option (List Char)) (evaluations : List EventEvaluation) : Prop :=
  ∀ text, file = some text → ∃ value, (loadEvaluations text evaluations).1 = .returned value

section LoadOrSave

variable {file : Option (List Char)} {evaluations : List EventEvaluation}

/-- The file that was left is left again. -/
theorem fileAfter_again (file : Option (List Char)) (evaluations : List EventEvaluation) :
    fileAfter (fileAfter file evaluations) evaluations = fileAfter file evaluations := by
  have hsaved : fileAfter (some (saveEvaluations evaluations)) evaluations =
      some (saveEvaluations evaluations) := by
    unfold fileAfter
    dsimp only
    split <;> rfl
  cases file with
  | none => exact hsaved
  | some text =>
    by_cases hload : (loadEvaluations text evaluations).1 = .returned false
    · have hafter : fileAfter (some text) evaluations = some (saveEvaluations evaluations) :=
        if_pos hload
      rw [hafter, hsaved]
    · have hafter : fileAfter (some text) evaluations = some text := if_neg hload
      rw [hafter, hafter]

/-- A file that stops the run stays. -/
theorem fileAfter_of_not_returns (h : ¬ Returns file evaluations) :
    fileAfter file evaluations = file := by
  cases file with
  | none => exact absurd nofun h
  | some text =>
    refine if_neg fun hload => h ?_
    intro text' htext
    obtain rfl := Option.some.inj htext
    exact ⟨false, hload⟩

/-- A file that was left can be loaded if the one before it could. -/
theorem Returns.fileAfter (h : Returns file evaluations) :
    Returns (fileAfter file evaluations) evaluations := by
  have hsaved : Returns (some (saveEvaluations evaluations)) evaluations := by
    intro text htext
    obtain rfl := Option.some.inj htext
    rcases load_saved_self evaluations with hload | hload
    · exact ⟨true, hload⟩
    · exact ⟨false, hload⟩
  cases file with
  | none => exact hsaved
  | some text =>
    unfold Theorems.fileAfter
    dsimp only
    split
    · exact hsaved
    · exact h

/-- `loadOrSave` leaves `fileAfter` in its file, and the other files as they are. -/
theorem loadOrSave_of_returns {fileName : String} {files : Files}
    (h : Returns (files fileName) evaluations) :
    loadOrSave fileName files evaluations =
      .ok (Function.update files fileName (fileAfter (files fileName) evaluations),
        evaluations) := by
  unfold loadOrSave fileAfter
  cases hfile : files fileName with
  | none => rfl
  | some text =>
    obtain ⟨value, hload⟩ := h text hfile
    have hpair : loadEvaluations text evaluations = (.returned value, evaluations) :=
      Prod.ext hload rfl
    dsimp only
    rw [hpair]
    cases value with
    | true =>
      dsimp only
      rw [if_neg nofun, ← hfile, Function.update_eq_self]
    | false => rfl

/-- Otherwise the evaluations are read outside their bounds. -/
theorem loadOrSave_of_not_returns {fileName : String} {files : Files}
    (h : ¬ Returns (files fileName) evaluations) :
    loadOrSave fileName files evaluations = .error .evaluationsOutOfRange := by
  cases hfile : files fileName with
  | none =>
    rw [hfile] at h
    exact absurd nofun h
  | some text =>
    have hpair : loadEvaluations text evaluations =
        ((loadEvaluations text evaluations).1, evaluations) := rfl
    unfold loadOrSave
    rw [hfile]
    cases hload : (loadEvaluations text evaluations).1 with
    | returned value =>
      refine absurd (fun text' htext => ?_) h
      rw [hfile] at htext
      obtain rfl := Option.some.inj htext
      exact ⟨value, hload⟩
    | outOfRange =>
      dsimp only
      rw [hpair, hload]
    | running => exact absurd hload (loadEvaluations_ne_running text evaluations)

end LoadOrSave

/-! ## One autoref -/

section Autorefs

variable (logFile : String) (ports : List UInt16) (human : List RefereeEvent)

/-- What `MergeEvaluations` does to the files. -/
theorem files_mergeEvaluations_eq (i : Nat) (evaluations : List EventEvaluation)
    (run : EvalRun) :
    (mergeEvaluations logFile ports i evaluations run).files =
      Function.update run.files (evaluationsFileName logFile i)
        (fileAfter (run.files (evaluationsFileName logFile i)) evaluations) := by
  unfold mergeEvaluations
  by_cases h : Returns (run.files (evaluationsFileName logFile i)) evaluations
  · rw [loadOrSave_of_returns h]
    dsimp only
    cases countEvaluations evaluations with
    | error stop => rfl
    | ok counts => rfl
  · rw [loadOrSave_of_not_returns h, fileAfter_of_not_returns h, Function.update_eq_self]

/-- On files that have what it left, `MergeEvaluations` leaves all files as they are, and
does the same else. -/
theorem mergeEvaluations_again {i : Nat} {evaluations : List EventEvaluation} {run : EvalRun}
    {files' : Files}
    (hfile : files' (evaluationsFileName logFile i) =
      (mergeEvaluations logFile ports i evaluations run).files
        (evaluationsFileName logFile i)) :
    mergeEvaluations logFile ports i evaluations { run with files := files' } =
      { mergeEvaluations logFile ports i evaluations run with files := files' } := by
  rw [files_mergeEvaluations_eq, Function.update_self] at hfile
  unfold mergeEvaluations
  by_cases h : Returns (run.files (evaluationsFileName logFile i)) evaluations
  · have h' : Returns (files' (evaluationsFileName logFile i)) evaluations := by
      rw [hfile]
      exact h.fileAfter
    rw [loadOrSave_of_returns h, loadOrSave_of_returns h', hfile, fileAfter_again, ← hfile,
      Function.update_eq_self]
    dsimp only
    cases countEvaluations evaluations with
    | error stop => rfl
    | ok counts => rfl
  · rw [fileAfter_of_not_returns h] at hfile
    have h' : ¬ Returns (files' (evaluationsFileName logFile i)) evaluations := by
      rw [hfile]
      exact h
    rw [loadOrSave_of_not_returns h, loadOrSave_of_not_returns h']

/-- An autoref has no other file than its own. -/
theorem files_evaluateAutoref_of_ne {run : EvalRun} {autoref : List RefereeEvent} {i : Nat}
    {name : String} (hne : name ≠ evaluationsFileName logFile i) :
    (evaluateAutoref logFile ports human run (autoref, i)).files name = run.files name := by
  rcases evaluateAutoref_cases logFile ports human run autoref i with
    ⟨-, hrun⟩ | ⟨-, -, hrun⟩ | ⟨-, call, -, hrun⟩
  · rw [hrun]
  · rw [hrun]
  · rw [hrun, files_mergeEvaluations_eq, Function.update_of_ne hne]

/-- The step for an autoref, on files that have what it left. -/
theorem evaluateAutoref_again {run : EvalRun} {autoref : List RefereeEvent} {i : Nat}
    {files' : Files}
    (hfile : files' (evaluationsFileName logFile i) =
      (evaluateAutoref logFile ports human run (autoref, i)).files
        (evaluationsFileName logFile i)) :
    evaluateAutoref logFile ports human { run with files := files' } (autoref, i) =
      { evaluateAutoref logFile ports human run (autoref, i) with files := files' } := by
  unfold evaluateAutoref at hfile ⊢
  dsimp only at hfile ⊢
  by_cases hstop : run.stop.isSome = true
  · rw [if_pos hstop, if_pos hstop]
  · rw [if_neg hstop] at hfile
    rw [if_neg hstop, if_neg hstop]
    cases hsweep : sweep human autoref with
    | none => rfl
    | some pushed =>
      rw [hsweep] at hfile
      exact mergeEvaluations_again logFile ports hfile

/-! ## All of them -/

/-- The autorefs from number `i` on have no files of other names. -/
theorem files_foldl_of_ne {name : String} (autorefs : List (List RefereeEvent)) :
    ∀ (i : Nat) (run : EvalRun), (∀ j, i ≤ j → name ≠ evaluationsFileName logFile j) →
      ((autorefs.zipIdx i).foldl (evaluateAutoref logFile ports human) run).files name =
        run.files name := by
  induction autorefs with
  | nil => exact fun _ _ _ => rfl
  | cons autoref autorefs ih =>
    intro i run hne
    rw [List.zipIdx_cons, List.foldl_cons, ih (i + 1) _ fun j hj => hne j (Nat.le_of_succ_le hj)]
    exact files_evaluateAutoref_of_ne logFile ports human (hne i (Nat.le_refl i))

/-- The loop, on files that have what it left, leaves all files as they are, and does the
same else. -/
theorem foldl_again {files' : Files} (autorefs : List (List RefereeEvent)) :
    ∀ (i : Nat) (run : EvalRun),
      (∀ j, i ≤ j → files' (evaluationsFileName logFile j) =
        ((autorefs.zipIdx i).foldl (evaluateAutoref logFile ports human) run).files
          (evaluationsFileName logFile j)) →
      (autorefs.zipIdx i).foldl (evaluateAutoref logFile ports human)
          { run with files := files' } =
        { (autorefs.zipIdx i).foldl (evaluateAutoref logFile ports human) run with
          files := files' } := by
  induction autorefs with
  | nil => exact fun _ _ _ => rfl
  | cons autoref autorefs ih =>
    intro i run hfiles
    rw [List.zipIdx_cons, List.foldl_cons] at hfiles ⊢
    rw [List.foldl_cons]
    -- the later autorefs leave the file of this one as it is
    have hown := hfiles i (Nat.le_refl i)
    rw [files_foldl_of_ne logFile ports human autorefs (i + 1) _ fun j hj heq =>
      absurd (evaluationsFileName_inj heq) (Nat.ne_of_lt hj)] at hown
    rw [evaluateAutoref_again logFile ports human hown]
    exact ih (i + 1) _ fun j hj => hfiles j (Nat.le_of_succ_le hj)

/-- The files of the autorefs that were handed over, and all others. -/
structure Written (logFile : String) (files : Files) (run : EvalRun) : Prop where
  own : ∀ k call, run.merged[k]? = some call →
    run.files (evaluationsFileName logFile (k + 1)) =
      fileAfter (files (evaluationsFileName logFile (k + 1))) call.2
  others : ∀ name, (∀ k < run.merged.length, name ≠ evaluationsFileName logFile (k + 1)) →
    run.files name = files name

theorem written_foldl (files : Files) (autorefs : List (List RefereeEvent)) :
    Written logFile files
      ((autorefs.zipIdx 1).foldl (evaluateAutoref logFile ports human) { files := files }) := by
  induction autorefs using List.reverseRecOn with
  | nil => exact ⟨nofun, fun _ _ => rfl⟩
  | append_singleton autorefs autoref ih =>
    have hlength := (merged_foldl logFile ports human files autorefs).2
    rw [List.zipIdx_append, List.foldl_append]
    dsimp only [List.zipIdx_cons, List.zipIdx_nil, List.foldl_cons, List.foldl_nil]
    generalize (autorefs.zipIdx 1).foldl (evaluateAutoref logFile ports human)
      { files := files } = run at ih hlength ⊢
    rcases evaluateAutoref_cases logFile ports human run autoref (1 + autorefs.length) with
      ⟨-, hrun⟩ | ⟨-, -, hrun⟩ | ⟨hnone, call, hcall, hrun⟩
    · rw [hrun]
      exact ih
    · rw [hrun]
      exact ⟨ih.own, ih.others⟩
    · -- the call is the next one, and its file was not written to before
      have hi : 1 + autorefs.length = run.merged.length + 1 := by
        rw [hlength hnone, Nat.add_comm]
      have hmerged := merged_mergeEvaluations logFile ports (run.merged.length + 1) call.2
        { run with merged := run.merged ++ [call] }
      have hfiles := files_mergeEvaluations_eq logFile ports (run.merged.length + 1) call.2
        { run with merged := run.merged ++ [call] }
      dsimp only at hmerged hfiles
      have hfresh : run.files (evaluationsFileName logFile (run.merged.length + 1)) =
          files (evaluationsFileName logFile (run.merged.length + 1)) := by
        refine ih.others _ fun k hk heq => ?_
        have := evaluationsFileName_inj heq
        omega
      rw [hrun, hi]
      refine ⟨?_, ?_⟩
      · intro k call' hk
        rw [hmerged] at hk
        rw [hfiles]
        rcases Nat.lt_trichotomy k run.merged.length with hlt | rfl | hgt
        · rw [List.getElem?_append_left hlt] at hk
          rw [Function.update_of_ne, ih.own k call' hk]
          intro heq
          have := evaluationsFileName_inj heq
          omega
        · rw [List.getElem?_concat_length] at hk
          obtain rfl := Option.some.inj hk
          rw [Function.update_self, hfresh]
        · rw [List.getElem?_eq_none (by rw [List.length_append]; exact hgt)] at hk
          cases hk
      · intro name hname
        rw [hmerged, List.length_append] at hname
        rw [hfiles, Function.update_of_ne (hname _ (Nat.lt_succ_self _))]
        exact ih.others name fun k hk => hname k (Nat.lt_succ_of_lt hk)

end Autorefs

/-! ## The whole run -/

/-- What a run leaves of the files, and that it can be repeated. -/
structure Reevaluates (pb : Protobuf) (logFile : String) (log : List UInt8) (files : Files)
    (run : EvalRun) : Prop where
  written : Written logFile files run
  again : evaluateAutorefs pb logFile log run.files = run

/-- Given the tables of the log. -/
theorem written_evaluateTables (logFile : String) (t : Tables) (files : Files) :
    Written logFile files (evaluateTables logFile t files) ∧
      evaluateTables logFile t (evaluateTables logFile t files).files =
        evaluateTables logFile t files := by
  unfold evaluateTables
  cases t.refereeEvents with
  | nil => exact ⟨⟨nofun, fun _ _ => rfl⟩, rfl⟩
  | cons human autorefs =>
    dsimp only
    by_cases hhuman : human = []
    · rw [if_pos hhuman]
      exact ⟨⟨nofun, fun _ _ => rfl⟩, if_pos hhuman⟩
    · rw [if_neg hhuman, if_neg hhuman]
      exact ⟨written_foldl logFile t.refereePorts human files autorefs,
        foldl_again logFile t.refereePorts human autorefs 1 { files := files }
          fun _ _ => rfl⟩

/-- **Evaluating again.** Whatever the log and the files before, a run merges every
evaluation it makes with its own file and writes to no other, and a second run repeats the
first and leaves the files as they are. -/
theorem reevaluates (pb : Protobuf) (logFile : String) (log : List UInt8) (files : Files) :
    Reevaluates pb logFile log files (evaluateAutorefs pb logFile log files) := by
  obtain ⟨hwritten, hagain⟩ := written_evaluateTables logFile
    (indexRefereeEvents (loadRefereeCommands pb log {})) files
  exact ⟨hwritten, hagain⟩

end SslAutoref.Theorems
