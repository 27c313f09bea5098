import Mathlib.Algebra.Group.Nat.Defs

/-!
# Referee commands, events and their evaluation

The data model of `evaluate_main.cpp`: the fields of an `SSL_Referee` packet
the evaluator reads, the `RefereeEvent` intervals cut out of them, the
`EventEvaluation` entries of the report, and the two interval comparisons
`Before` and `Overlaps`. Timestamps and counters keep the fixed widths of the
source, so the comparisons wrap exactly where the source's do.
-/

namespace SslAutoref

/-- `SSL_Referee.Command`, in the order of `referee.proto`. -/
inductive Command
  | halt | stop | normalStart | forceStart
  | prepareKickoffYellow | prepareKickoffBlue
  | preparePenaltyYellow | preparePenaltyBlue
  | directFreeYellow | directFreeBlue
  | indirectFreeYellow | indirectFreeBlue
  | timeoutYellow | timeoutBlue
  | goalYellow | goalBlue
  | ballPlacementYellow | ballPlacementBlue
  deriving DecidableEq, Repr

/-- Every enumerator, listed by its number. -/
def Command.all : List Command :=
  [.halt, .stop, .normalStart, .forceStart,
   .prepareKickoffYellow, .prepareKickoffBlue,
   .preparePenaltyYellow, .preparePenaltyBlue,
   .directFreeYellow, .directFreeBlue,
   .indirectFreeYellow, .indirectFreeBlue,
   .timeoutYellow, .timeoutBlue,
   .goalYellow, .goalBlue,
   .ballPlacementYellow, .ballPlacementBlue]

/-- The number `referee.proto` gives a command. -/
def Command.number (c : Command) : Nat := Command.all.idxOf c

/-- The six commands that make an event when they are issued: the cases
`IndexRefereeEvents` pushes a `RefereeEvent` for. -/
def Command.isEvent : Command → Bool
  | .directFreeYellow | .directFreeBlue
  | .indirectFreeYellow | .indirectFreeBlue
  | .goalYellow | .goalBlue => true
  | _ => false

/-- The fields of `SSL_Referee` the evaluator reads. The defaults are the ones
protobuf gives a field that was not decoded. -/
structure SSLReferee where
  command : Command := .halt
  commandCounter : UInt32 := 0
  commandTimestamp : UInt64 := 0
  deriving DecidableEq, Repr

/-- `RefereeEvent`: a stop command followed by an event command. The defaults
are those of the default constructor. -/
structure RefereeEvent where
  stopTimestamp : UInt64 := 0
  commandTimestamp : UInt64 := 0
  commandCounter : UInt32 := 0
  command : Command := .halt
  deriving DecidableEq, Repr

/-- `EventEvaluation::Evaluation`. -/
inductive Evaluation
  | unknown | truePositive | falsePositive | falseNegative
  deriving DecidableEq, Repr

/-- `EventEvaluation`. The defaults are those of the default constructor. -/
structure EventEvaluation where
  value : Evaluation := .unknown
  autorefEvent : RefereeEvent := {}
  humanrefEvent : RefereeEvent := {}
  ignore : Bool := true
  deriving DecidableEq, Repr

/-- The four-argument constructor. Its initialiser list sets `value` to
`kUnknown`: the `value` argument is never read. -/
def EventEvaluation.new (_value : Evaluation)
    (autorefEvent humanrefEvent : RefereeEvent) (ignore : Bool) :
    EventEvaluation :=
  { value := .unknown
    autorefEvent := autorefEvent
    humanrefEvent := humanrefEvent
    ignore := ignore }

/-- `EventEvaluation::ValueString`. -/
def EventEvaluation.valueString (e : EventEvaluation) : List Char :=
  match e.value with
  | .truePositive => ['T', 'P']
  | .falsePositive => ['F', 'P']
  | .falseNegative => ['F', 'N']
  | .unknown => ['U', 'N']

/-- `operator!=` on events. -/
def RefereeEvent.differs (e1 e2 : RefereeEvent) : Bool :=
  e1.stopTimestamp != e2.stopTimestamp ||
  e1.commandTimestamp != e2.commandTimestamp ||
  e1.commandCounter != e2.commandCounter ||
  e1.command != e2.command

/-- `operator!=` on evaluations. The `ignore` flag is not compared. -/
def EventEvaluation.differs (e1 e2 : EventEvaluation) : Bool :=
  e1.value != e2.value ||
  e1.autorefEvent.differs e2.autorefEvent ||
  e1.humanrefEvent.differs e2.humanrefEvent

/-- `Before`: the delay is subtracted from an unsigned 64-bit stop time, and
wraps when the stop time is smaller. -/
def before (e1 e2 : RefereeEvent) (td : UInt64) : Bool :=
  decide (e1.commandTimestamp < e2.stopTimestamp - td)

/-- `Overlaps`, allowing for a delay `td` before `e1`. -/
def overlaps (e1 e2 : RefereeEvent) (td : UInt64) : Bool :=
  !before e1 e2 0 && !before e2 e1 td

/-! ## The comparisons over the integers -/

/-- Without a delay nothing wraps. -/
theorem before_zero_iff (e1 e2 : RefereeEvent) :
    before e1 e2 0 = true ↔
      e1.commandTimestamp.toNat < e2.stopTimestamp.toNat := by
  simp [before, UInt64.lt_iff_toNat_lt]

/-- With a delay no larger than the stop time, `before` is the comparison its
comment describes. -/
theorem before_iff_of_le {e1 e2 : RefereeEvent} {td : UInt64}
    (h : td ≤ e2.stopTimestamp) :
    before e1 e2 td = true ↔
      e1.commandTimestamp.toNat + td.toNat < e2.stopTimestamp.toNat := by
  have hle : td.toNat ≤ e2.stopTimestamp.toNat := UInt64.le_iff_toNat_le.mp h
  simp only [before, decide_eq_true_eq, UInt64.lt_iff_toNat_lt,
    UInt64.toNat_sub_of_le _ _ h]
  omega

/-- A stop time below the delay wraps to within `td` of `2 ^ 64`. -/
theorem before_iff_of_lt {e1 e2 : RefereeEvent} {td : UInt64}
    (h : e2.stopTimestamp < td) :
    before e1 e2 td = true ↔
      e1.commandTimestamp.toNat + td.toNat < 2 ^ 64 + e2.stopTimestamp.toNat := by
  have hlt : e2.stopTimestamp.toNat < td.toNat := UInt64.lt_iff_toNat_lt.mp h
  have htd : td.toNat < 2 ^ 64 := td.toNat_lt
  simp only [before, decide_eq_true_eq, UInt64.lt_iff_toNat_lt, UInt64.toNat_sub]
  omega

/-- Whatever wraps, an event that is not `before` another with a delay ends no
earlier than the other's stop time less the delay. -/
theorem le_of_not_before {e1 e2 : RefereeEvent} {td : UInt64}
    (h : before e1 e2 td = false) :
    e2.stopTimestamp.toNat ≤ e1.commandTimestamp.toNat + td.toNat := by
  by_cases hle : td ≤ e2.stopTimestamp
  · have hnot : ¬ before e1 e2 td = true := by simp [h]
    rw [before_iff_of_le hle] at hnot
    omega
  · have : e2.stopTimestamp.toNat < td.toNat := by
      simpa [UInt64.le_iff_toNat_le] using hle
    omega

end SslAutoref
