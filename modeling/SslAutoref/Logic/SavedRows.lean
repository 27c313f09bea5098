import SslAutoref.Logic.LoadRows

/-!
# Loading what was saved

The row that `SaveEvaluations` prints for an evaluation is scanned back as it was
printed, as long as its number fits the three digits of the format (`scanRow_printRow`).
So a file of at most a thousand evaluations is read as one row for each of them
(`rowsOf_saveEvaluations`).
-/

namespace SslAutoref

open Scanf

/-- What is scanned of an event. -/
def RefereeEvent.scanned (e : RefereeEvent) : ScannedEvent where
  stopTimestamp := e.stopTimestamp
  commandTimestamp := e.commandTimestamp
  commandCounter := e.commandCounter
  command := toInt32 e.command.number

/-- What is scanned of row `i`. -/
def EventEvaluation.savedRow (e : EventEvaluation) (i : Nat) : AnnotationRow where
  i := toInt32 i
  value := e.valueString
  ignore := toInt32 (if e.ignore then 1 else 0 : Nat)
  autorefEvent := e.autorefEvent.scanned
  humanrefEvent := e.humanrefEvent.scanned

/-! ## Scanning a row -/

/-- A number between two blanks. -/
theorem scanAs_number {β : Type} (store : Int → β) (n : Nat) {rest : List Char}
    (hrest : NoDigit rest) :
    scanAs store none (' ' :: (decimal n ++ rest)) = some (store n, rest) := by
  rw [scanAs_space]
  exact @scanAs_decimal _ store none n rest nofun hrest

theorem scanEvent_printEvent (e : RefereeEvent) {rest : List Char} (hrest : NoDigit rest) :
    scanEvent (' ' :: (printEvent e ++ rest)) = some (e.scanned, rest) := by
  unfold scanEvent printEvent
  simp only [List.append_assoc, List.cons_append]
  rw [scanAs_number _ _ (noDigit_space _)]
  simp only [Option.bind_eq_bind, Option.bind_some]
  rw [scanAs_number _ _ (noDigit_space _)]
  simp only [Option.bind_some]
  rw [scanAs_number _ _ (noDigit_space _)]
  simp only [Option.bind_some]
  rw [scanAs_number _ _ hrest]
  simp only [Option.bind_some]
  rw [toUInt64_toNat, toUInt64_toNat, toUInt32_toNat]
  rfl

theorem valueString_ok (e : EventEvaluation) :
    e.valueString.length = 2 ∧ ∀ c ∈ e.valueString, isSpace c = false := by
  have hany : e.valueString.length = 2 ∧ e.valueString.any isSpace = false := by
    unfold EventEvaluation.valueString
    cases e.value <;> exact ⟨rfl, rfl⟩
  refine ⟨hany.1, ?_⟩
  intro c hc
  rw [Bool.eq_false_iff]
  exact List.any_eq_false.mp hany.2 c hc

/-- **A row is scanned as it was printed**, if its number has at most three digits. -/
theorem scanRow_printRow {i : Nat} (hi : i < 1000) (e : EventEvaluation) (rest : List Char) :
    scanRow (printRow i e ++ rest) = some (e.savedRow i, skipSpace rest) := by
  obtain ⟨hlen, hspace⟩ := valueString_ok e
  have hne : e.valueString ≠ [] := by
    intro hnil
    rw [hnil] at hlen
    cases hlen
  have hpadded : padded 2 e.valueString = e.valueString := by
    unfold padded List.leftpad
    rw [hlen]
    rfl
  -- the width of the scan is a maximum, and the number has to fit it
  have hwidth : ∀ w ∈ some 3, (decimal i).length ≤ w := by
    intro w hw
    obtain rfl := Option.some.inj hw
    exact length_decimal_le (Nat.succ_pos 2) hi
  unfold scanRow printRow
  rw [hpadded]
  simp only [List.append_assoc, List.cons_append]
  rw [scanAs_padded, scanAs_decimal _ i hwidth (noDigit_space _)]
  simp only [Option.bind_eq_bind, Option.bind_some]
  rw [scanWord_space, scanWord_append hne hspace (Nat.le_of_eq hlen)]
  simp only [Option.bind_some]
  rw [scanAs_number _ _ (noDigit_space _)]
  simp only [Option.bind_some]
  rw [scanEvent_printEvent _ (noDigit_space _)]
  simp only [Option.bind_some]
  rw [scanEvent_printEvent _ (noDigit_newline _)]
  simp only [Option.bind_some]
  rfl

/-! ## A saved file -/

theorem rowsOf_printRows {entries : List (EventEvaluation × Nat)}
    (h : ∀ entry ∈ entries, entry.2 < 1000) :
    rowsOf (entries.map fun (eval, i) => printRow i eval).flatten =
      entries.map fun entry => entry.1.savedRow entry.2 := by
  induction entries with
  | nil => rfl
  | cons entry entries ih =>
    have hrow := scanRow_printRow (h entry List.mem_cons_self) entry.1
      (entries.map fun (eval, i) => printRow i eval).flatten
    rw [List.map_cons, List.flatten_cons, rowsOf_of_some hrow, rowsOf_skipSpace,
      ih fun entry' hentry' => h entry' (List.mem_cons_of_mem _ hentry')]
    rfl

/-- **A saved file** of at most a thousand evaluations has one row for each. -/
theorem rowsOf_saveEvaluations {evaluations : List EventEvaluation}
    (h : evaluations.length ≤ 1000) :
    rowsOf (saveEvaluations evaluations) =
      evaluations.mapIdx fun i e => e.savedRow i := by
  have hnumbers : ∀ entry ∈ evaluations.zipIdx, entry.2 < 1000 := by
    intro entry hentry
    have hlt := List.snd_lt_of_mem_zipIdx hentry
    omega
  rw [saveEvaluations, rowsOf_printRows hnumbers, List.mapIdx_eq_zipIdx_map]

/-! ## No saved file leads out of range -/

/-- What is left of a text behind a row is an end of it. -/
theorem suffix_of_scanRow {text rest : List Char} {row : AnnotationRow}
    (h : scanRow text = some (row, rest)) : rest <:+ text := by
  have hevent : ∀ {text rest : List Char} {e : ScannedEvent},
      scanEvent text = some (e, rest) → rest <:+ text := by
    intro text rest e h
    simp only [scanEvent, Option.bind_eq_bind, Option.bind_eq_some_iff] at h
    obtain ⟨_, h₁, _, h₂, _, h₃, _, h₄, heq⟩ := h
    obtain ⟨-, rfl⟩ := Prod.mk.inj (Option.some.inj heq)
    exact (suffix_of_scanAs h₄).trans ((suffix_of_scanAs h₃).trans
      ((suffix_of_scanAs h₂).trans (suffix_of_scanAs h₁)))
  simp only [scanRow, Option.bind_eq_bind, Option.bind_eq_some_iff] at h
  obtain ⟨_, h₁, _, h₂, _, h₃, _, h₄, _, h₅, heq⟩ := h
  obtain ⟨-, rfl⟩ := Prod.mk.inj (Option.some.inj heq)
  exact (skipSpace_suffix _).trans ((hevent h₅).trans ((hevent h₄).trans
    ((suffix_of_scanAs h₃).trans ((suffix_of_scanWord h₂).trans (suffix_of_scanAs h₁)))))

/-- The rows of a text without a minus sign have numbers of three digits. -/
theorem number_nonneg_of_mem_rowsOf {text : List Char} (hminus : '-' ∉ text) :
    ∀ row ∈ rowsOf text, 0 ≤ row.i.toInt := by
  revert hminus
  induction text using shrinks_scanRow.induct with
  | fails text hnone =>
    intro _ row hrow
    rw [rowsOf_of_none hnone] at hrow
    cases hrow
  | reads text first rest hfirst ih =>
    intro hminus row hrow
    rw [rowsOf_of_some hfirst] at hrow
    rcases List.mem_cons.mp hrow with rfl | hrow
    · have hlt := number_lt_of_scanRow hfirst
      simp only [scanRow, Option.bind_eq_bind, Option.bind_eq_some_iff] at hfirst
      obtain ⟨⟨i, _⟩, hi, _, -, _, -, _, -, _, -, heq⟩ := hfirst
      obtain ⟨rfl, -⟩ := Prod.mk.inj (Option.some.inj heq)
      obtain ⟨⟨z, _⟩, hz, heq⟩ := Option.map_eq_some_iff.mp hi
      obtain ⟨rfl, -⟩ := Prod.mk.inj heq
      have hnonneg := nonneg_of_scanInt hminus hz
      have habs := natAbs_lt_of_scanInt hz
      show 0 ≤ (toInt32 z).toInt
      rw [toInt_toInt32 (by omega) (by omega)]
      exact hnonneg
    · exact ih (fun hmem => hminus ((suffix_of_scanRow hfirst).subset hmem)) row hrow

theorem not_minus_mem_decimal (n : Nat) : '-' ∉ decimal n :=
  fun hmem => Bool.false_ne_true (isDigit_of_mem_decimal hmem)

theorem not_minus_mem_saveEvaluations (evaluations : List EventEvaluation) :
    '-' ∉ saveEvaluations evaluations := by
  have hpadded : ∀ {width : Nat} {text : List Char}, '-' ∉ text → '-' ∉ padded width text := by
    intro width text htext hmem
    unfold padded List.leftpad at hmem
    rcases List.mem_append.mp hmem with hmem | hmem
    · cases (List.mem_replicate.mp hmem).2
    · exact htext hmem
  have hevent : ∀ e : RefereeEvent, '-' ∉ printEvent e := by
    intro e
    simp [printEvent, not_minus_mem_decimal]
  have hvalue : ∀ e : EventEvaluation, '-' ∉ e.valueString := by
    intro e
    unfold EventEvaluation.valueString
    cases e.value <;> decide
  have hrow : ∀ (i : Nat) (e : EventEvaluation), '-' ∉ printRow i e := by
    intro i e
    simp [printRow, hpadded (not_minus_mem_decimal i), hpadded (hvalue e),
      not_minus_mem_decimal, hevent]
  intro hmem
  obtain ⟨row, hrows, hchar⟩ := List.mem_flatten.mp hmem
  obtain ⟨⟨e, i⟩, -, rfl⟩ := List.mem_map.mp hrows
  exact hrow i e hchar

/-- **What is saved never leads out of range** when it is loaded for evaluations that are
more than its row numbers can count. -/
theorem load_saved_ne_outOfRange {saved evaluations : List EventEvaluation}
    (hlen : 1000 ≤ evaluations.length) :
    (loadEvaluations (saveEvaluations saved) evaluations).1 ≠ .outOfRange := by
  have hne : evaluations ≠ [] := by
    rintro rfl
    exact absurd hlen (by decide)
  rw [loadEvaluations_eq _ hne]
  intro hload
  obtain ⟨before, row, ⟨⟨after, hrows⟩, -⟩, hrange⟩ := loadRows_eq_outOfRange_iff.mp hload
  have hmem : row ∈ rowsOf (saveEvaluations saved) := by
    rw [hrows]
    exact List.mem_append_right _ List.mem_cons_self
  have hnonneg := number_nonneg_of_mem_rowsOf (not_minus_mem_saveEvaluations saved) row hmem
  have hlt := number_lt_of_mem_rowsOf row hmem
  exact hrange ⟨hnonneg, by omega⟩

/-! ## Rows that agree -/

/-- A saved row has its number. -/
theorem toInt_savedRow {i : Nat} (hi : i < 1000) (e : EventEvaluation) :
    (e.savedRow i).i.toInt = i := toInt_toInt32 (by omega) (by omega)

/-- A saved row agrees with the evaluation, whatever its flag. -/
theorem savedRow_agrees (e : EventEvaluation) (ignore : Bool) (i : Nat) :
    (({ e with ignore := ignore } : EventEvaluation).savedRow i).Agrees e := by
  have hevent : ∀ event : RefereeEvent, event.scanned.Is event := by
    intro event
    refine ⟨rfl, rfl, rfl, ?_⟩
    have hlt : event.command.number < Command.all.length :=
      (List.getElem?_eq_some_iff.mp event.command.getElem?_number).1
    have hall : Command.all.length = 18 := rfl
    exact toInt_toInt32 (by omega) (by omega)
  refine ⟨?_, hevent _, hevent _⟩
  obtain ⟨value, autorefEvent, humanrefEvent, flag⟩ := e
  cases value <;> rfl

end SslAutoref
