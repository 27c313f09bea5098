import SslAutoref.Lib.Scanf
import SslAutoref.Model.Referee

/-!
# The annotation file

`LoadEvaluations` and `SaveEvaluations` of `evaluate_main.cpp`: one row an
evaluation, printed and scanned with the same format. The scan of a row puts the
row number of the file into the loop variable, which then picks the evaluation
the row is compared with.
-/

namespace SslAutoref

open Scanf

/-- The fields of one event as they are scanned, the command still a number. -/
structure ScannedEvent where
  stopTimestamp : UInt64
  commandTimestamp : UInt64
  commandCounter : UInt32
  command : Int32
  deriving DecidableEq, Repr

/-- The eleven values of one row. -/
structure AnnotationRow where
  i : Int32
  value : List Char
  ignore : Int32
  autorefEvent : ScannedEvent
  humanrefEvent : ScannedEvent
  deriving DecidableEq, Repr

/-! ## Loading -/

/-- `%lu %lu %u %d`. -/
def scanEvent (text : List Char) : Option (ScannedEvent × List Char) := do
  let (stopTimestamp, text) ← scanAs toUInt64 none text
  let (commandTimestamp, text) ← scanAs toUInt64 none text
  let (commandCounter, text) ← scanAs toUInt32 none text
  let (command, text) ← scanAs toInt32 none text
  some ({ stopTimestamp, commandTimestamp, commandCounter, command }, text)

/-- The `fscanf` of one row. The white space in the format adds nothing to what
every conversion skips by itself, but for the newline at the end. Fewer than
eleven conversions give nothing. -/
def scanRow (text : List Char) : Option (AnnotationRow × List Char) := do
  let (i, text) ← scanAs toInt32 (some 3) text
  let (value, text) ← scanWord 2 text
  let (ignore, text) ← scanAs toInt32 none text
  let (autorefEvent, text) ← scanEvent text
  let (humanrefEvent, text) ← scanEvent text
  some ({ i, value, ignore, autorefEvent, humanrefEvent }, skipSpace text)

/-- The enumerator a number is cast to. A number without one is equal to no
enumerator. -/
def Command.ofInt32 (n : Int32) : Option Command :=
  if n < 0 then none else Command.all[n.toInt.toNat]?

def ScannedEvent.event (e : ScannedEvent) : Option RefereeEvent :=
  (Command.ofInt32 e.command).map fun command =>
    { stopTimestamp := e.stopTimestamp
      commandTimestamp := e.commandTimestamp
      commandCounter := e.commandCounter
      command := command }

/-- The verdict a row names. Any other string leaves the default. -/
def AnnotationRow.evaluationValue (row : AnnotationRow) : Evaluation :=
  if row.value = ['T', 'P'] then .truePositive
  else if row.value = ['F', 'P'] then .falsePositive
  else if row.value = ['F', 'N'] then .falseNegative
  else .unknown

/-- The evaluation a row describes, when its commands are enumerators. -/
def AnnotationRow.evaluation (row : AnnotationRow) : Option EventEvaluation := do
  let autorefEvent ← row.autorefEvent.event
  let humanrefEvent ← row.humanrefEvent.event
  some
    { value := row.evaluationValue
      autorefEvent := autorefEvent
      humanrefEvent := humanrefEvent
      ignore := row.ignore != 0 }

/-- `eval != evaluations[i]`. -/
def AnnotationRow.differs (row : AnnotationRow) (evaluation : EventEvaluation) : Bool :=
  match row.evaluation with
  | none => true
  | some eval => eval.differs evaluation

/-- How `LoadEvaluations` ends: with a value, by reading `evaluations` outside its
bounds, or not within the rounds it was given. -/
inductive LoadOutcome
  | returned (value : Bool)
  | outOfRange
  | running
  deriving DecidableEq, Repr

/-- The evaluation a row is compared with. -/
def evaluationAt (evaluations : List EventEvaluation) (i : Int32) : Option EventEvaluation :=
  if i < 0 then none else evaluations[i.toInt.toNat]?

/-- At most `fuel` rounds of the loop. -/
def loadUpTo (evaluations : List EventEvaluation) : Nat → Nat → List Char → LoadOutcome
  | 0, i, _ => if i < evaluations.length then .running else .returned true
  | fuel + 1, i, text =>
    if i < evaluations.length then
      match scanRow text with
      | none => .returned false
      | some (row, text) =>
        -- the loop variable is the number of the row from here on
        match evaluationAt evaluations row.i with
        | none => .outOfRange
        | some evaluation =>
          if row.differs evaluation then .returned false
          else loadUpTo evaluations fuel (row.i.toInt.toNat + 1) text
    else .returned true

/-- `LoadEvaluations` on a file with the given text: how it ends, and what is in
`*evaluations_ptr` then, which it never writes to. Every round takes some of the
text, so the rounds suffice (`loadEvaluations_ne_running`). -/
def loadEvaluations (text : List Char) (evaluations : List EventEvaluation) :
    LoadOutcome × List EventEvaluation :=
  (loadUpTo evaluations (text.length + 1) 0 text, evaluations)

/-! ## Saving -/

/-- `%lu %lu %u %d`. -/
def printEvent (e : RefereeEvent) : List Char :=
  decimal e.stopTimestamp.toNat ++ ' ' :: decimal e.commandTimestamp.toNat ++
    ' ' :: decimal e.commandCounter.toNat ++ ' ' :: decimal e.command.number

/-- The `fprintf` of row `i`. -/
def printRow (i : Nat) (eval : EventEvaluation) : List Char :=
  padded 3 (decimal i) ++ ' ' :: padded 2 eval.valueString ++
    ' ' :: decimal (if eval.ignore then 1 else 0) ++
    ' ' :: printEvent eval.autorefEvent ++ ' ' :: printEvent eval.humanrefEvent ++ ['\n']

/-- `SaveEvaluations`: the text of the file it writes. -/
def saveEvaluations (evaluations : List EventEvaluation) : List Char :=
  (evaluations.zipIdx.map fun (eval, i) => printRow i eval).flatten

/-! ## The rounds suffice -/

theorem length_of_scanEvent {text rest : List Char} {e : ScannedEvent}
    (h : scanEvent text = some (e, rest)) : rest.length < text.length := by
  simp only [scanEvent, Option.bind_eq_bind, Option.bind_eq_some_iff] at h
  obtain ⟨_, h₁, _, h₂, _, h₃, _, h₄, heq⟩ := h
  obtain ⟨-, rfl⟩ := Prod.mk.inj (Option.some.inj heq)
  have := length_of_scanAs h₁
  have := length_of_scanAs h₂
  have := length_of_scanAs h₃
  have := length_of_scanAs h₄
  omega

theorem length_of_scanRow {text rest : List Char} {row : AnnotationRow}
    (h : scanRow text = some (row, rest)) : rest.length < text.length := by
  simp only [scanRow, Option.bind_eq_bind, Option.bind_eq_some_iff] at h
  obtain ⟨_, h₁, _, h₂, _, h₃, _, h₄, _, h₅, heq⟩ := h
  obtain ⟨-, rfl⟩ := Prod.mk.inj (Option.some.inj heq)
  have := length_of_scanAs h₁
  have := length_of_scanWord h₂
  have := length_of_scanAs h₃
  have := length_of_scanEvent h₄
  have := length_of_scanEvent h₅
  have := length_skipSpace_le
  grind

theorem loadUpTo_ne_running {evaluations : List EventEvaluation} {fuel i : Nat}
    {text : List Char} (hfuel : text.length < fuel) :
    loadUpTo evaluations fuel i text ≠ .running := by
  induction fuel generalizing i text with
  | zero => exact absurd hfuel (Nat.not_lt_zero _)
  | succ fuel ih =>
    rw [loadUpTo]
    split
    · split
      · exact LoadOutcome.noConfusion
      · rename_i row rest hrow
        have hlen := length_of_scanRow hrow
        split
        · exact LoadOutcome.noConfusion
        · split
          · exact LoadOutcome.noConfusion
          · exact ih (by omega)
    · exact LoadOutcome.noConfusion

theorem loadEvaluations_ne_running (text : List Char) (evaluations : List EventEvaluation) :
    (loadEvaluations text evaluations).1 ≠ .running :=
  loadUpTo_ne_running (Nat.lt_succ_self _)

end SslAutoref
