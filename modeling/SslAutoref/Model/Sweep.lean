import SslAutoref.Model.Referee

/-!
# The matching sweep

The loop of `EvaluateAutorefs` over the events of one automatic referee: a
cursor `k` into the human events survives from one autoref event to the next,
and an inner `do … while` moves it. Reading `human_referee[k]` outside the list
gives `none`, and a run that does so gives `none` as a whole.

Every `push_back` is recorded by the arguments it is called with, the events
named by their positions; `PushBack.evaluation` is the entry the constructor
makes of them.
-/

namespace SslAutoref

/-- The longest delay of a human event after the autoref event. -/
def kAutoToHumanDelay : UInt64 := 2000000

/-- The longest delay of an autoref event after the human event. -/
def kHumanToAutoDelay : UInt64 := 0

/-- One `evaluations.push_back(EventEvaluation(value, …, false))`: the verdict
named there and the positions of the two events, `none` standing for
`RefereeEvent()`. -/
structure PushBack where
  value : Evaluation
  autoref : Option Nat
  humanref : Option Nat
  deriving DecidableEq, Repr

/-- The entry that is pushed. -/
def PushBack.evaluation (human autoref : List RefereeEvent) (p : PushBack) :
    EventEvaluation :=
  EventEvaluation.new p.value
    ((p.autoref.bind (autoref[·]?)).getD {})
    ((p.humanref.bind (human[·]?)).getD {})
    false

/-- The autoref missed human event `k`. -/
def PushBack.missed (k : Nat) : PushBack := ⟨.falseNegative, none, some k⟩

/-- Autoref event `j` has no human event. -/
def PushBack.unfounded (j : Nat) : PushBack := ⟨.falsePositive, some j, none⟩

/-- Autoref event `j` matches human event `k`. -/
def PushBack.paired (j k : Nat) : PushBack := ⟨.truePositive, some j, some k⟩

/-- What survives from one autoref event to the next. -/
structure SweepState where
  k : Nat := 0
  evaluations : List PushBack := []
  deriving DecidableEq, Repr

/-- The locals of the loop body for one autoref event. -/
structure ScanState extends SweepState where
  matchFound : Bool := false
  evaluated : Bool := false
  deriving DecidableEq, Repr

/-- The body of the `do … while` for autoref event `j`, which is `a`. -/
def scanBody (human : List RefereeEvent) (j : Nat) (a : RefereeEvent)
    (s : ScanState) : Option ScanState :=
  match human[s.k]? with
  | none => none
  | some h =>
    let s :=
      if before h a kHumanToAutoDelay then
        -- the autoref missed a human event
        { s with evaluations := s.evaluations ++ [.missed s.k] }
      else if before a h kAutoToHumanDelay then
        -- no human event overlaps in time with the autoref's
        { s with evaluations := s.evaluations ++ [.unfounded j], evaluated := true }
      else
        -- they overlap in time
        { s with matchFound := h.command == a.command }
    -- without a match the next human event is checked
    some (if s.matchFound then s else { s with k := s.k + 1 })

/-- The condition of the `do … while`. -/
def ScanState.continues (human : List RefereeEvent) (s : ScanState) : Bool :=
  !s.matchFound && !s.evaluated && decide (s.k < human.length)

/-- At most `fuel` rounds of the `do … while`. -/
def scanUpTo (human : List RefereeEvent) (j : Nat) (a : RefereeEvent) :
    Nat → ScanState → Option ScanState
  | 0, s => some s
  | fuel + 1, s =>
    match scanBody human j a s with
    | none => none
    | some s => if s.continues human then scanUpTo human j a fuel s else some s

/-- The `do … while`. Every round that continues moves the cursor inside the
list, so the list's length bounds the rounds (`scan_eq`). -/
def scan (human : List RefereeEvent) (j : Nat) (a : RefereeEvent)
    (s : ScanState) : Option ScanState :=
  scanUpTo human j a (human.length + 1) s

/-- The body of the loop over the autoref events. -/
def sweepEvent (human : List RefereeEvent) (s : SweepState)
    (event : RefereeEvent × Nat) : Option SweepState :=
  match scan human event.2 event.1 { toSweepState := s } with
  | none => none
  | some s =>
    if s.matchFound then
      match human[s.k]? with
      | none => none
      | some _ =>
        -- a human event matches one autoref event only, so the cursor moves past it
        some { k := s.k + 1
               evaluations := s.evaluations ++ [.paired event.2 s.k] }
    else if !s.evaluated then
      -- there are no more human events
      some { k := s.k, evaluations := s.evaluations ++ [.unfounded event.2] }
    else some s.toSweepState

/-- The sweep over one autoref: what it pushes, or nothing when it reads
`human_referee` outside its bounds. -/
def sweep (human autoref : List RefereeEvent) : Option (List PushBack) :=
  (autoref.zipIdx.foldlM (sweepEvent human) {}).map (·.evaluations)

/-! ## The `do … while` without fuel -/

theorem ScanState.lt_of_continues {human : List RefereeEvent} {s : ScanState}
    (h : s.continues human = true) : s.k < human.length := by
  simp only [ScanState.continues, Bool.and_eq_true, decide_eq_true_eq] at h
  exact h.2

/-- A round that continues has moved the cursor by one. -/
theorem scanBody_k {human : List RefereeEvent} {j : Nat} {a : RefereeEvent}
    {s s' : ScanState} (h : scanBody human j a s = some s')
    (hc : s'.continues human = true) : s'.k = s.k + 1 := by
  unfold scanBody at h
  split at h
  · cases h
  · obtain rfl := Option.some.inj h
    simp only [ScanState.continues, Bool.and_eq_true, Bool.not_eq_true',
      decide_eq_true_eq] at hc
    grind

/-- Any two amounts of fuel that outlast the list agree. -/
theorem scanUpTo_fuel {human : List RefereeEvent} {j : Nat} {a : RefereeEvent}
    (fuel fuel' : Nat) (s : ScanState) (h : human.length < fuel + s.k)
    (h' : human.length < fuel' + s.k) (hpos : 0 < fuel) (hpos' : 0 < fuel') :
    scanUpTo human j a fuel s = scanUpTo human j a fuel' s := by
  induction fuel generalizing fuel' s with
  | zero => omega
  | succ fuel ih =>
    obtain ⟨f, rfl⟩ : ∃ f, fuel' = f + 1 := ⟨fuel' - 1, by omega⟩
    simp only [scanUpTo]
    cases hbody : scanBody human j a s with
    | none => rfl
    | some s' =>
      by_cases hc : s'.continues human = true
      · have hk := scanBody_k hbody hc
        have hlt := ScanState.lt_of_continues hc
        simp only [hc, if_true]
        exact ih f s' (by omega) (by omega) (by omega) (by omega)
      · simp [hc]

/-- One round of the `do … while`, and the rest of it. -/
theorem scan_eq (human : List RefereeEvent) (j : Nat) (a : RefereeEvent)
    (s : ScanState) :
    scan human j a s =
      match scanBody human j a s with
      | none => none
      | some s => if s.continues human then scan human j a s else some s := by
  unfold scan
  rw [scanUpTo]
  cases hbody : scanBody human j a s with
  | none => rfl
  | some s' =>
    by_cases hc : s'.continues human = true
    · have hk := scanBody_k hbody hc
      have hlt := ScanState.lt_of_continues hc
      simp only [hc, if_true]
      exact scanUpTo_fuel _ _ s' (by omega) (by omega) (by omega) (by omega)
    · simp [hc]

end SslAutoref
