import Mathlib.Data.List.Nodup
import SslAutoref.Lib.Repeat
import SslAutoref.Model.Annotations

/-!
# The rows of an annotation file

`LoadEvaluations` sees a file as the rows that can be scanned from its start, one after
the other (`rowsOf`). It goes on while a row agrees with the evaluation at the row's own
number, and ends at the first row that does not, or whose number is the last
(`loadEvaluations_eq`). So how it ends is a matter of the first rows that let it go on
and of the row behind them (`loadRows_eq_iff`).
-/

namespace SslAutoref

open Scanf

/-! ## Rows -/

/-- The rows that can be scanned from the start of a text. -/
def rowsOf (text : List Char) : List AnnotationRow := Repeat.all List.length scanRow text

theorem shrinks_scanRow : Repeat.Shrinks List.length scanRow :=
  fun _ _ _ hrow => length_of_scanRow hrow

theorem rowsOf_of_none {text : List Char} (h : scanRow text = none) : rowsOf text = [] := by
  rw [rowsOf, Repeat.all_eq shrinks_scanRow, h]

theorem rowsOf_of_some {text rest : List Char} {row : AnnotationRow}
    (h : scanRow text = some (row, rest)) : rowsOf text = row :: rowsOf rest := by
  rw [rowsOf, Repeat.all_eq shrinks_scanRow, h]
  rfl

/-- White space in front of a row is skipped. -/
theorem scanRow_skipSpace (text : List Char) : scanRow (skipSpace text) = scanRow text := by
  unfold scanRow
  rw [scanAs_skipSpace]

theorem rowsOf_skipSpace (text : List Char) : rowsOf (skipSpace text) = rowsOf text := by
  cases hrow : scanRow text with
  | none => rw [rowsOf_of_none hrow, rowsOf_of_none ((scanRow_skipSpace text).trans hrow)]
  | some item =>
    obtain ⟨row, rest⟩ := item
    rw [rowsOf_of_some hrow, rowsOf_of_some ((scanRow_skipSpace text).trans hrow)]

/-- A row number has at most three digits. -/
theorem number_lt_of_scanRow {text rest : List Char} {row : AnnotationRow}
    (h : scanRow text = some (row, rest)) : row.i.toInt < 1000 := by
  simp only [scanRow, Option.bind_eq_bind, Option.bind_eq_some_iff] at h
  obtain ⟨⟨i, _⟩, hi, _, -, _, -, _, -, _, -, heq⟩ := h
  obtain ⟨rfl, -⟩ := Prod.mk.inj (Option.some.inj heq)
  obtain ⟨⟨z, _⟩, hz, heq⟩ := Option.map_eq_some_iff.mp hi
  obtain ⟨rfl, -⟩ := Prod.mk.inj heq
  have hlt := natAbs_lt_of_scanInt hz
  show (toInt32 z).toInt < 1000
  rw [toInt_toInt32 (by omega) (by omega)]
  omega

theorem number_lt_of_mem_rowsOf {text : List Char} :
    ∀ row ∈ rowsOf text, row.i.toInt < 1000 :=
  Repeat.forall_mem_all shrinks_scanRow (fun _ _ _ hrow => number_lt_of_scanRow hrow) text

/-! ## A row and an evaluation -/

/-- A scanned event is an event. -/
structure ScannedEvent.Is (scanned : ScannedEvent) (e : RefereeEvent) : Prop where
  stopTimestamp : scanned.stopTimestamp = e.stopTimestamp
  commandTimestamp : scanned.commandTimestamp = e.commandTimestamp
  commandCounter : scanned.commandCounter = e.commandCounter
  command : scanned.command.toInt = e.command.number

/-- A row agrees with an evaluation in the verdict and both events. -/
structure AnnotationRow.Agrees (row : AnnotationRow) (e : EventEvaluation) : Prop where
  value : row.evaluationValue = e.value
  autorefEvent : row.autorefEvent.Is e.autorefEvent
  humanrefEvent : row.humanrefEvent.Is e.humanrefEvent

theorem Command.nodup_all : Command.all.Nodup := by decide

theorem Command.getElem?_number (c : Command) : Command.all[c.number]? = some c := by
  cases c <;> rfl

/-- The enumerator of a number is the one with that number. -/
theorem Command.ofInt32_eq_some_iff {n : Int32} {c : Command} :
    Command.ofInt32 n = some c ↔ n.toInt = c.number := by
  have hzero : n < 0 ↔ n.toInt < 0 := Int32.lt_iff_toInt_lt
  unfold Command.ofInt32
  split
  · rename_i hneg
    rw [hzero] at hneg
    exact ⟨nofun, fun h => by omega⟩
  · rename_i hnot
    rw [hzero] at hnot
    refine ⟨?_, ?_⟩
    · -- the enumerators are all different, so the positions are the same
      intro h
      have hsame : Command.all[n.toInt.toNat]? = Command.all[c.number]? := by
        rw [h, c.getElem?_number]
      have hlt : n.toInt.toNat < Command.all.length := by
        obtain ⟨hlt, -⟩ := List.getElem?_eq_some_iff.mp h
        exact hlt
      have heq := (List.getElem?_inj hlt Command.nodup_all).mp hsame
      omega
    · intro h
      rw [h, Int.toNat_natCast]
      exact c.getElem?_number

theorem RefereeEvent.differs_eq_false_iff {e1 e2 : RefereeEvent} :
    e1.differs e2 = false ↔ e1 = e2 := by
  obtain ⟨s1, t1, n1, c1⟩ := e1
  obtain ⟨s2, t2, n2, c2⟩ := e2
  simp [RefereeEvent.differs, and_assoc]

/-- A scanned event is an event when it has an enumerator, and that makes it the event. -/
theorem ScannedEvent.is_iff {scanned : ScannedEvent} {e : RefereeEvent} :
    scanned.Is e ↔ scanned.event = some e := by
  unfold ScannedEvent.event
  rw [Option.map_eq_some_iff]
  refine ⟨?_, ?_⟩
  · intro h
    refine ⟨e.command, Command.ofInt32_eq_some_iff.mpr h.command, ?_⟩
    rw [h.stopTimestamp, h.commandTimestamp, h.commandCounter]
  · rintro ⟨c, hc, rfl⟩
    exact ⟨rfl, rfl, rfl, Command.ofInt32_eq_some_iff.mp hc⟩

/-- The comparison of `LoadEvaluations` is agreement. -/
theorem AnnotationRow.differs_eq_false_iff {row : AnnotationRow} {e : EventEvaluation} :
    row.differs e = false ↔ row.Agrees e := by
  have hagrees : row.Agrees e ↔ row.evaluationValue = e.value ∧
      row.autorefEvent.event = some e.autorefEvent ∧
      row.humanrefEvent.event = some e.humanrefEvent := by
    rw [← ScannedEvent.is_iff, ← ScannedEvent.is_iff]
    exact ⟨fun h => ⟨h.1, h.2, h.3⟩, fun h => ⟨h.1, h.2.1, h.2.2⟩⟩
  rw [hagrees]
  unfold AnnotationRow.differs AnnotationRow.evaluation
  cases row.autorefEvent.event with
  | none => exact ⟨nofun, nofun⟩
  | some autoref =>
    cases row.humanrefEvent.event with
    | none => exact ⟨nofun, nofun⟩
    | some humanref =>
      show ((row.evaluationValue != e.value || autoref.differs e.autorefEvent) ||
        humanref.differs e.humanrefEvent) = false ↔ _
      rw [Bool.or_eq_false_iff, Bool.or_eq_false_iff, bne_eq_false_iff_eq,
        RefereeEvent.differs_eq_false_iff, RefereeEvent.differs_eq_false_iff,
        Option.some_inj, Option.some_inj, and_assoc]

/-! ## The loop over the rows -/

section

variable (evaluations : List EventEvaluation)

/-- The number of a row is the position of an evaluation. -/
def InRange (row : AnnotationRow) : Prop :=
  0 ≤ row.i.toInt ∧ row.i.toInt < evaluations.length

/-- A row agrees with the evaluation at its own number. -/
def Matches (row : AnnotationRow) : Prop :=
  ∃ e, evaluationAt evaluations row.i = some e ∧ row.Agrees e

/-- The number of a row is that of the last evaluation. -/
def IsLast (row : AnnotationRow) : Prop := row.i.toInt + 1 = evaluations.length

/-- A row after which the loop goes on. -/
def GoesOn (row : AnnotationRow) : Prop :=
  Matches evaluations row ∧ ¬ IsLast evaluations row

/-- The loop of `LoadEvaluations`, over the rows of the file. -/
def loadRows : List AnnotationRow → LoadOutcome
  | [] => .returned false
  | row :: rows =>
    match evaluationAt evaluations row.i with
    | none => .outOfRange
    | some e =>
      if row.differs e then .returned false
      else if row.i.toInt.toNat + 1 < evaluations.length then loadRows rows
      else .returned true

end

section

variable {evaluations : List EventEvaluation}

theorem evaluationAt_eq_none_iff {row : AnnotationRow} :
    evaluationAt evaluations row.i = none ↔ ¬ InRange evaluations row := by
  have hzero : row.i < 0 ↔ row.i.toInt < 0 := Int32.lt_iff_toInt_lt
  unfold evaluationAt InRange
  split
  · rename_i hneg
    rw [hzero] at hneg
    exact ⟨fun _ h => by omega, fun _ => rfl⟩
  · rename_i hnot
    rw [hzero] at hnot
    rw [List.getElem?_eq_none_iff]
    omega

theorem evaluationAt_eq_some {k : Nat} {row : AnnotationRow} (hk : row.i.toInt = k) :
    evaluationAt evaluations row.i = evaluations[k]? := by
  have hzero : row.i < 0 ↔ row.i.toInt < 0 := Int32.lt_iff_toInt_lt
  unfold evaluationAt
  rw [if_neg (by rw [hzero]; omega), hk, Int.toNat_natCast]

theorem Matches.inRange {row : AnnotationRow} (h : Matches evaluations row) :
    InRange evaluations row := by
  by_contra hnot
  obtain ⟨e, he, -⟩ := h
  rw [evaluationAt_eq_none_iff.mpr hnot] at he
  cases he

theorem loadUpTo_of_le {fuel i : Nat} {text : List Char} (h : ¬ i < evaluations.length) :
    loadUpTo evaluations fuel i text = .returned true := by
  cases fuel <;> rw [loadUpTo, if_neg h]

/-- The loop sees the file as its rows. -/
theorem loadUpTo_eq {fuel i : Nat} {text : List Char} (hfuel : text.length < fuel)
    (hi : i < evaluations.length) :
    loadUpTo evaluations fuel i text = loadRows evaluations (rowsOf text) := by
  induction fuel generalizing i text with
  | zero => exact absurd hfuel (Nat.not_lt_zero _)
  | succ fuel ih =>
    rw [loadUpTo, if_pos hi]
    cases hrow : scanRow text with
    | none => rw [rowsOf_of_none hrow, loadRows]
    | some item =>
      obtain ⟨row, rest⟩ := item
      have hlen := length_of_scanRow hrow
      rw [rowsOf_of_some hrow, loadRows]
      dsimp only
      cases evaluationAt evaluations row.i with
      | none => rfl
      | some e =>
        dsimp only
        by_cases hlast : row.i.toInt.toNat + 1 < evaluations.length
        · rw [if_pos hlast, ih (by omega) hlast]
        · rw [if_neg hlast, loadUpTo_of_le hlast]

/-- **How `LoadEvaluations` ends**: at once without evaluations, else as the loop over the
rows does. -/
theorem loadEvaluations_eq (text : List Char) (hne : evaluations ≠ []) :
    (loadEvaluations text evaluations).1 = loadRows evaluations (rowsOf text) :=
  loadUpTo_eq (Nat.lt_succ_self _) (List.length_pos_iff.mpr hne)

theorem loadEvaluations_nil (text : List Char) :
    (loadEvaluations text []).1 = .returned true :=
  loadUpTo_of_le (Nat.lt_irrefl 0)

theorem matches_iff {row : AnnotationRow} {e : EventEvaluation}
    (hat : evaluationAt evaluations row.i = some e) :
    Matches evaluations row ↔ row.differs e = false := by
  rw [AnnotationRow.differs_eq_false_iff]
  refine ⟨?_, fun h => ⟨e, hat, h⟩⟩
  rintro ⟨e', he', hagrees⟩
  obtain rfl := Option.some.inj (hat.symm.trans he')
  exact hagrees

/-- The condition at the head of the loop, when the row agrees. -/
theorem Matches.more_iff {row : AnnotationRow} (h : Matches evaluations row) :
    row.i.toInt.toNat + 1 < evaluations.length ↔ ¬ IsLast evaluations row := by
  obtain ⟨hlow, hhigh⟩ := h.inRange
  unfold IsLast
  omega

/-- How the loop ends at a row at which it does not go on. -/
def endsAt (evaluations : List EventEvaluation) (row : AnnotationRow) : LoadOutcome :=
  match evaluationAt evaluations row.i with
  | none => .outOfRange
  | some e => .returned (!row.differs e)

theorem endsAt_eq_outOfRange_iff {row : AnnotationRow} :
    endsAt evaluations row = .outOfRange ↔ ¬ InRange evaluations row := by
  rw [← evaluationAt_eq_none_iff]
  unfold endsAt
  cases evaluationAt evaluations row.i with
  | none => exact ⟨fun _ => rfl, fun _ => rfl⟩
  | some e => exact ⟨nofun, nofun⟩

theorem endsAt_eq_true_iff {row : AnnotationRow} :
    endsAt evaluations row = .returned true ↔ Matches evaluations row := by
  unfold endsAt
  cases hat : evaluationAt evaluations row.i with
  | none =>
    refine ⟨nofun, ?_⟩
    rintro ⟨e, he, -⟩
    cases hat.symm.trans he
  | some e =>
    rw [matches_iff hat]
    dsimp only
    cases row.differs e with
    | true => exact ⟨nofun, nofun⟩
    | false => exact ⟨fun _ => rfl, fun _ => rfl⟩

/-- One row: it lets the loop go on, or the loop ends there. -/
theorem loadRows_of_goesOn {row : AnnotationRow} (h : GoesOn evaluations row)
    (rows : List AnnotationRow) :
    loadRows evaluations (row :: rows) = loadRows evaluations rows := by
  obtain ⟨hmatches, hlast⟩ := h
  obtain ⟨e, hat, -⟩ := id hmatches
  have hdiffers := (matches_iff hat).mp hmatches
  rw [loadRows, hat]
  dsimp only
  rw [hdiffers, if_neg Bool.false_ne_true, if_pos (hmatches.more_iff.mpr hlast)]

theorem loadRows_of_not_goesOn {row : AnnotationRow} (h : ¬ GoesOn evaluations row)
    (rows : List AnnotationRow) :
    loadRows evaluations (row :: rows) = endsAt evaluations row := by
  rw [loadRows, endsAt]
  cases hat : evaluationAt evaluations row.i with
  | none => rfl
  | some e =>
    dsimp only
    cases hdiffers : row.differs e with
    | true => rfl
    | false =>
      have hmatches := (matches_iff hat).mpr hdiffers
      rw [if_neg Bool.false_ne_true, if_neg fun hmore => h ⟨hmatches, hmatches.more_iff.mp hmore⟩]
      rfl

/-- The loop gets to `row`, past the rows `before`. -/
def Reaches (evaluations : List EventEvaluation) (rows before : List AnnotationRow)
    (row : AnnotationRow) : Prop :=
  (∃ after, rows = before ++ row :: after) ∧ ∀ r ∈ before, GoesOn evaluations r

theorem Reaches.cons {rows before : List AnnotationRow} {first row : AnnotationRow}
    (hfirst : GoesOn evaluations first) (h : Reaches evaluations rows before row) :
    Reaches evaluations (first :: rows) (first :: before) row := by
  obtain ⟨⟨after, rfl⟩, hbefore⟩ := h
  refine ⟨⟨after, rfl⟩, ?_⟩
  intro r hr
  rcases List.mem_cons.mp hr with rfl | hr
  · exact hfirst
  · exact hbefore r hr

theorem reaches_head (row : AnnotationRow) (rows : List AnnotationRow) :
    Reaches evaluations (row :: rows) [] row := ⟨⟨rows, rfl⟩, nofun⟩

/-- Rows that let the loop go on are passed. -/
theorem loadRows_append {before : List AnnotationRow}
    (hbefore : ∀ r ∈ before, GoesOn evaluations r) (rows : List AnnotationRow) :
    loadRows evaluations (before ++ rows) = loadRows evaluations rows := by
  induction before with
  | nil => rfl
  | cons row before ih =>
    have hrest := ih fun r hr => hbefore r (List.mem_cons_of_mem _ hr)
    exact (loadRows_of_goesOn (hbefore row List.mem_cons_self) _).trans hrest

/-- **How the loop ends**, when it does not for want of rows: as it does at the first row
that does not let it go on. -/
theorem loadRows_eq_iff {outcome : LoadOutcome} (houtcome : outcome ≠ .returned false)
    {rows : List AnnotationRow} :
    loadRows evaluations rows = outcome ↔
      ∃ before row, Reaches evaluations rows before row ∧ ¬ GoesOn evaluations row ∧
        endsAt evaluations row = outcome := by
  refine ⟨?_, ?_⟩
  · intro h
    induction rows with
    | nil => exact absurd h.symm houtcome
    | cons row rows ih =>
      -- the first row that does not let the loop go on is looked for
      by_cases hrow : GoesOn evaluations row
      · rw [loadRows_of_goesOn hrow] at h
        obtain ⟨before, last, hreaches, hlast⟩ := ih h
        exact ⟨row :: before, last, hreaches.cons hrow, hlast⟩
      · rw [loadRows_of_not_goesOn hrow] at h
        exact ⟨[], row, reaches_head row rows, hrow, h⟩
  · rintro ⟨before, row, ⟨⟨after, rfl⟩, hbefore⟩, hrow, hends⟩
    rw [loadRows_append hbefore, loadRows_of_not_goesOn hrow]
    exact hends

/-- A file is accepted when the loop gets to a row with the last number that agrees. -/
theorem loadRows_eq_true_iff {rows : List AnnotationRow} :
    loadRows evaluations rows = .returned true ↔
      ∃ before last, Reaches evaluations rows before last ∧ Matches evaluations last ∧
        IsLast evaluations last := by
  have hne : LoadOutcome.returned true ≠ .returned false := nofun
  rw [loadRows_eq_iff hne]
  refine exists_congr fun before => exists_congr fun last => and_congr_right fun _ => ?_
  rw [endsAt_eq_true_iff]
  refine ⟨?_, ?_⟩
  · rintro ⟨hnot, hmatches⟩
    refine ⟨hmatches, ?_⟩
    by_contra hlast
    exact hnot ⟨hmatches, hlast⟩
  · rintro ⟨hmatches, hlast⟩
    exact ⟨fun h => h.2 hlast, hmatches⟩

/-- An evaluation outside the bounds is read when the loop gets to a row with such a
number. -/
theorem loadRows_eq_outOfRange_iff {rows : List AnnotationRow} :
    loadRows evaluations rows = .outOfRange ↔
      ∃ before row, Reaches evaluations rows before row ∧ ¬ InRange evaluations row := by
  have hne : LoadOutcome.outOfRange ≠ .returned false := nofun
  rw [loadRows_eq_iff hne]
  refine exists_congr fun before => exists_congr fun row => and_congr_right fun _ => ?_
  rw [endsAt_eq_outOfRange_iff]
  exact ⟨fun h => h.2, fun h => ⟨fun hgoes => h hgoes.1.inRange, h⟩⟩

end

end SslAutoref
