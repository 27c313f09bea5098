import SslAutoref.Model.Handles

/-!
# Whose handles the objects close

The objects of a class own their handles, each its own: a step of an object is one of an
owner of resources (`Sockets.owners_step`, `ScopedFiles.owners_step`). So in every run, and
although the system gives the numbers of closed descriptors to others, an object closes no
handle but one that is open and its own, none is left open behind the objects, and the
counters of a socket are those of its own traffic since it was closed last
(`descriptors_owned`, `files_owned`, `counters_exact`).
-/

namespace SslAutoref

open Steps

/-- What holds of the handles of objects: what an object would close is open, and nobody
else has it; a handle that is open is had by an object, or by the rest of the program; and
only by that when there are no objects. -/
structure Owned {ι H X : Type} (holds : X → Option H) (s : Owners.Table ι H X) : Prop where
  own : ∀ i x h, s.objects i = some x → holds x = some h →
    s.taken h = true ∧ s.others h = false ∧
      ∀ j y, s.objects j = some y → holds y = some h → j = i
  not_leaked : ∀ h, s.taken h = true → s.others h = true ∨
    ∃ i x, s.objects i = some x ∧ holds x = some h
  none_left : (∀ i, s.objects i = none) → s.taken = s.others

theorem owned_of_sole {ι H X : Type} {holds : X → Option H} {s : Owners.Table ι H X}
    (h : Owners.Sole (s.owners holds)) : Owned holds s := by
  refine ⟨?_, ?_, ?_⟩
  · intro i x r hx hr
    have hheld : (s.owners holds).held i = some r := Option.bind_eq_some_iff.mpr ⟨x, hx, hr⟩
    obtain ⟨htaken, hothers, hsole⟩ := h.owned_of_held hheld
    refine ⟨htaken, hothers, fun j y hy hr' => ?_⟩
    exact hsole j (Option.bind_eq_some_iff.mpr ⟨y, hy, hr'⟩)
  · intro r hr
    rcases h.exists_owner hr with hothers | ⟨i, hi⟩
    · exact .inl hothers
    · exact .inr ⟨i, Option.bind_eq_some_iff.mp hi⟩
  · intro hnone
    refine h.taken_eq fun i => ?_
    show (s.objects i).bind holds = none
    rw [hnone i]
    rfl

/-! ## Sockets -/

namespace Sockets

variable {ι : Type} [DecidableEq ι] {s s' : State ι}

/-- A step, as one of an owner of descriptors. -/
def ownersActs (_ : State ι) : Action ι → List (Owners.Action ι Int)
  | .call i .reopen | .call i .close | .call i .destroy => [.drop i]
  | .call i (.open descriptor _) => [.take i (descriptor.map Int.ofNat)]
  | .call _ _ => []
  | .openOther fd => [.takeOther fd]
  | .closeOther fd => [.dropOther fd]

theorem closes_send (u : UDP) (length len : Int) : (u.send length len).1.closes = u.closes := by
  unfold UDP.send
  split <;> rfl

theorem closes_recv (u : UDP) (len : Int) : (u.recv len).1.closes = u.closes := by
  unfold UDP.recv
  split <;> rfl

theorem closes_open (u : UDP) (descriptor : Option Nat) (ttl : Int) :
    (u.open descriptor ttl).1.closes = descriptor.map Int.ofNat := by
  cases descriptor with
  | none => rfl
  | some fd => simp [UDP.open, UDP.closes, UDP.isOpen]

/-- **One step** is one of owners. -/
theorem owners_step {a : Action ι} (h : s.step a = some s') :
    run Owners.State.step (s.owners Object.fd) (ownersActs s a) = some (s'.owners Object.fd) := by
  cases a with
  | openOther fd => exact Owners.Table.run_takeOther h
  | closeOther fd => exact Owners.Table.run_dropOther h
  | call i call =>
    unfold State.step at h
    dsimp only at h
    split at h
    · rename_i hi
      obtain rfl := Option.some.inj h
      refine Owners.Table.run_same ?_
      rw [hi]
      rfl
    · rename_i hi
      obtain rfl := Option.some.inj h
      exact Owners.Table.run_drop hi rfl
    · rename_i u descriptor ttl hi
      split at h
      · cases h
      · rename_i hfree
        obtain rfl := Option.some.inj h
        refine Owners.Table.run_take (by rw [hi]; rfl) ?_ (closes_open u descriptor ttl)
        intro fd hfd htaken
        rw [hfd] at hfree
        exact hfree htaken
    · rename_i hi
      obtain rfl := Option.some.inj h
      exact Owners.Table.run_drop hi rfl
    · rename_i u length len hi
      obtain rfl := Option.some.inj h
      refine Owners.Table.run_same ?_
      rw [hi]
      exact closes_send u length len
    · rename_i u len hi
      obtain rfl := Option.some.inj h
      refine Owners.Table.run_same ?_
      rw [hi]
      exact closes_recv u len
    · rename_i hi
      obtain rfl := Option.some.inj h
      exact Owners.Table.run_drop hi rfl
    · cases h

/-- **Descriptors**, in every state that the sockets of a process reach. -/
theorem descriptors_owned {descriptors : Int → Bool} {as : List (Action ι)}
    (hrun : run State.step (State.start ι descriptors) as = some s) : Owned Object.fd s :=
  owned_of_sole (Owners.sole_run (Owners.sole_start descriptors)
    (run_simulates (fun _ _ _ => owners_step) hrun))

/-- Two sockets, beside the descriptors of the standard streams: the first one is closed,
and the second one gets its descriptor. -/
def reusedDescriptor : List (Action (Fin 2)) :=
  [.call 0 .construct, .call 0 .reopen, .call 0 (.open (some 3) 0), .call 1 .construct,
    .call 0 .close, .call 1 .reopen, .call 1 (.open (some 3) 0), .call 0 .destroy]

def standardStreams : State (Fin 2) := State.start (Fin 2) fun fd => decide (0 ≤ fd ∧ fd < 3)

theorem descriptors_owned_reused :
    ∃ s, run State.step standardStreams reusedDescriptor = some s ∧ Owned Object.fd s :=
  ⟨_, rfl, descriptors_owned (show run State.step standardStreams reusedDescriptor = _ from rfl)⟩

/-! ### Counters -/

def Call.sent : Call → Option Int
  | .send _ len => some len
  | _ => none

def Call.received : Call → Option Int
  | .recv len => some len
  | _ => none

/-- What the system returned in the calls of one kind on an object, since it was closed last.
To open it again is not to close it. -/
def lensOf (kind : Call → Option Int) (i : ι) (as : List (Action ι)) : List Int :=
  as.foldl (fun lens a =>
    match a with
    | .call j call =>
      if j = i then if call = .construct ∨ call = .close then [] else lens ++ (kind call).toList
      else lens
    | _ => lens) []

/-- Two counters, of the calls that succeeded and of their bytes, modulo 2^32. -/
def Counts (packets bytes : UInt32) (lens : List Int) : Prop :=
  packets = UInt32.ofNat (lens.countP (0 < ·)) ∧
    bytes = UInt32.ofNat (lens.foldl (fun sum len => sum + len.toNat) 0)

/-- The members of a socket, also while it is opened again. -/
def Object.udp : Object → UDP
  | .ready u => u
  | .opening u => u

/-- The counters of an object. -/
structure Counters (i : ι) (as : List (Action ι)) (u : UDP) : Prop where
  sent : Counts u.sentPackets u.sentBytes (lensOf Call.sent i as)
  received : Counts u.recvPackets u.recvBytes (lensOf Call.received i as)

theorem counts_nil : Counts 0 0 [] := ⟨rfl, rfl⟩

theorem counts_append {packets bytes : UInt32} {lens : List Int} (h : Counts packets bytes lens)
    (len : Int) :
    Counts (if len > 0 then packets + 1 else packets)
      (if len > 0 then bytes + UInt32.ofNat len.toNat else bytes) (lens ++ [len]) := by
  obtain ⟨rfl, rfl⟩ := h
  unfold Counts
  by_cases hlen : 0 < len
  · simp [hlen, List.countP_append, UInt32.ofNat_add]
  · have hzero : len.toNat = 0 := by omega
    simp [hlen, hzero, List.countP_append]

/-- One step more. -/
theorem lensOf_concat (kind : Call → Option Int) (i : ι) (as : List (Action ι)) (a : Action ι) :
    lensOf kind i (as ++ [a]) =
      match a with
      | .call j call =>
        if j = i then
          if call = .construct ∨ call = .close then [] else lensOf kind i as ++ (kind call).toList
        else lensOf kind i as
      | _ => lensOf kind i as := by
  unfold lensOf
  rw [List.foldl_append]
  cases a <;> rfl

theorem lensOf_call (kind : Call → Option Int) (i : ι) (as : List (Action ι)) {call : Call}
    (hcall : call ≠ .construct ∧ call ≠ .close) :
    lensOf kind i (as ++ [.call i call]) = lensOf kind i as ++ (kind call).toList := by
  rw [lensOf_concat]
  simp [hcall]

theorem lensOf_reset (kind : Call → Option Int) (i : ι) (as : List (Action ι)) {call : Call}
    (hcall : call = .construct ∨ call = .close) : lensOf kind i (as ++ [.call i call]) = [] := by
  rw [lensOf_concat]
  simp [hcall]

theorem lensOf_other (kind : Call → Option Int) {i : ι} (as : List (Action ι)) {a : Action ι}
    (hother : ∀ call, a ≠ .call i call) : lensOf kind i (as ++ [a]) = lensOf kind i as := by
  rw [lensOf_concat]
  cases a with
  | call j call =>
    refine if_neg ?_
    rintro rfl
    exact hother call rfl
  | openOther fd => rfl
  | closeOther fd => rfl

section Counters

variable {i : ι} {as : List (Action ι)} {u u' : UDP}

theorem Counters.reset (as : List (Action ι)) {call : Call}
    (hcall : call = .construct ∨ call = .close) : Counters i (as ++ [.call i call]) {} where
  sent := by
    rw [lensOf_reset _ _ _ hcall]
    exact counts_nil
  received := by
    rw [lensOf_reset _ _ _ hcall]
    exact counts_nil

/-- A step that leaves the counters as they are. -/
theorem Counters.same (h : Counters i as u) {a : Action ι}
    (hlens : ∀ kind, kind = Call.sent ∨ kind = Call.received →
      lensOf kind i (as ++ [a]) = lensOf kind i as)
    (hu : u'.sentPackets = u.sentPackets ∧ u'.sentBytes = u.sentBytes ∧
      u'.recvPackets = u.recvPackets ∧ u'.recvBytes = u.recvBytes) :
    Counters i (as ++ [a]) u' := by
  obtain ⟨h₁, h₂, h₃, h₄⟩ := hu
  refine ⟨?_, ?_⟩
  · rw [hlens _ (.inl rfl), h₁, h₂]
    exact h.sent
  · rw [hlens _ (.inr rfl), h₃, h₄]
    exact h.received

theorem Counters.send (h : Counters i as u) (length len : Int) :
    Counters i (as ++ [.call i (.send length len)]) (u.send length len).1 := by
  have hsend : (u.send length len).1 = { u with
      sentPackets := if len > 0 then u.sentPackets + 1 else u.sentPackets
      sentBytes := if len > 0 then u.sentBytes + UInt32.ofNat len.toNat else u.sentBytes } := by
    unfold UDP.send
    split <;> rfl
  have hne : Call.send length len ≠ .construct ∧ Call.send length len ≠ .close := ⟨nofun, nofun⟩
  rw [hsend]
  refine ⟨?_, ?_⟩
  · rw [lensOf_call _ _ _ hne]
    exact counts_append h.sent len
  · rw [lensOf_call _ _ _ hne]
    show Counts _ _ (lensOf Call.received i as ++ [])
    rw [List.append_nil]
    exact h.received

theorem Counters.recv (h : Counters i as u) (len : Int) :
    Counters i (as ++ [.call i (.recv len)]) (u.recv len).1 := by
  have hrecv : (u.recv len).1 = { u with
      recvPackets := if len > 0 then u.recvPackets + 1 else u.recvPackets
      recvBytes := if len > 0 then u.recvBytes + UInt32.ofNat len.toNat else u.recvBytes } := by
    unfold UDP.recv
    split <;> rfl
  have hne : Call.recv len ≠ .construct ∧ Call.recv len ≠ .close := ⟨nofun, nofun⟩
  rw [hrecv]
  refine ⟨?_, ?_⟩
  · rw [lensOf_call _ _ _ hne]
    show Counts _ _ (lensOf Call.sent i as ++ [])
    rw [List.append_nil]
    exact h.sent
  · rw [lensOf_call _ _ _ hne]
    exact counts_append h.received len

/-- To open a socket again does not touch its counters. -/
theorem Counters.open (h : Counters i as u) {call : Call}
    (hcall : call = .reopen ∨ ∃ descriptor ttl, call = .open descriptor ttl)
    (hu : u'.sentPackets = u.sentPackets ∧ u'.sentBytes = u.sentBytes ∧
      u'.recvPackets = u.recvPackets ∧ u'.recvBytes = u.recvBytes) :
    Counters i (as ++ [.call i call]) u' := by
  refine h.same (fun kind hkind => ?_) hu
  have hnone : kind call = none := by
    rcases hcall with rfl | ⟨descriptor, ttl, rfl⟩ <;> rcases hkind with rfl | rfl <;> rfl
  have hne : call ≠ .construct ∧ call ≠ .close := by
    rcases hcall with rfl | ⟨descriptor, ttl, rfl⟩ <;> exact ⟨nofun, nofun⟩
  rw [lensOf_call _ _ _ hne, hnone, Option.toList_none, List.append_nil]

end Counters

/-- The counters of all objects. -/
def CountersExact (as : List (Action ι)) (s : State ι) : Prop :=
  ∀ i x, s.objects i = some x → Counters i as x.udp

/-- A call changes one object. -/
theorem countersExact_set {as : List (Action ι)} (h : CountersExact as s) {i : ι} {call : Call}
    {x : Option Object} (hobjects : s'.objects = Function.update s.objects i x)
    (hx : ∀ y, x = some y → Counters i (as ++ [.call i call]) y.udp) :
    CountersExact (as ++ [.call i call]) s' := by
  intro j y hy
  rw [hobjects] at hy
  by_cases hj : j = i
  · subst hj
    rw [Function.update_self] at hy
    exact hx y hy
  · rw [Function.update_of_ne hj] at hy
    refine (h j y hy).same (fun kind _ => lensOf_other kind as fun call' heq => ?_)
      ⟨rfl, rfl, rfl, rfl⟩
    obtain ⟨rfl, -⟩ := Action.call.inj heq
    exact hj rfl

theorem objects_release_set (s : State ι) (fd : Option Int) (i : ι) (x : Option Object) :
    ((s.release fd).set i x).objects = Function.update s.objects i x := by
  cases fd <;> rfl

theorem objects_acquire_set (s : State ι) (fd : Option Int) (i : ι) (x : Option Object) :
    ((s.acquire fd).set i x).objects = Function.update s.objects i x := by
  cases fd <;> rfl

theorem countersExact_step {as : List (Action ι)} {a : Action ι} (h : CountersExact as s)
    (hstep : s.step a = some s') : CountersExact (as ++ [a]) s' := by
  cases a with
  | openOther fd =>
    intro i x hx
    rw [Owners.Table.objects_takeOther hstep] at hx
    exact (h i x hx).same (fun kind _ => lensOf_other kind as nofun) ⟨rfl, rfl, rfl, rfl⟩
  | closeOther fd =>
    intro i x hx
    rw [Owners.Table.objects_dropOther hstep] at hx
    exact (h i x hx).same (fun kind _ => lensOf_other kind as nofun) ⟨rfl, rfl, rfl, rfl⟩
  | call i call =>
    unfold State.step at hstep
    dsimp only at hstep
    split at hstep
    · obtain rfl := Option.some.inj hstep
      refine countersExact_set h rfl fun y hy => ?_
      obtain rfl := Option.some.inj hy
      exact Counters.reset as (.inl rfl)
    · rename_i u hi
      obtain rfl := Option.some.inj hstep
      refine countersExact_set h (objects_release_set ..) fun y hy => ?_
      obtain rfl := Option.some.inj hy
      exact (h i _ hi).open (.inl rfl) ⟨rfl, rfl, rfl, rfl⟩
    · rename_i u descriptor ttl hi
      split at hstep
      · cases hstep
      · obtain rfl := Option.some.inj hstep
        refine countersExact_set h (objects_acquire_set ..) fun y hy => ?_
        obtain rfl := Option.some.inj hy
        refine (h i _ hi).open (.inr ⟨descriptor, ttl, rfl⟩) ?_
        cases descriptor <;> exact ⟨rfl, rfl, rfl, rfl⟩
    · obtain rfl := Option.some.inj hstep
      refine countersExact_set h (objects_release_set ..) fun y hy => ?_
      obtain rfl := Option.some.inj hy
      exact Counters.reset as (.inr rfl)
    · rename_i u length len hi
      obtain rfl := Option.some.inj hstep
      refine countersExact_set h rfl fun y hy => ?_
      obtain rfl := Option.some.inj hy
      exact (h i _ hi).send length len
    · rename_i u len hi
      obtain rfl := Option.some.inj hstep
      refine countersExact_set h rfl fun y hy => ?_
      obtain rfl := Option.some.inj hy
      exact (h i _ hi).recv len
    · obtain rfl := Option.some.inj hstep
      exact countersExact_set h (objects_release_set ..) fun y hy => by cases hy
    · cases hstep

/-- **Counters**, in every state that the sockets of a process reach. -/
theorem counters_exact {descriptors : Int → Bool} {as : List (Action ι)}
    (hrun : run State.step (State.start ι descriptors) as = some s) : CountersExact as s :=
  @invariant_run _ _ State.step CountersExact _ (fun _ _ h => by cases h)
    (fun _ _ _ _ _ h hstep => countersExact_step h hstep) _ _ hrun

/-- A socket that sends, is opened again, and sends and fails to send. -/
def sendingSocket : List (Action (Fin 2)) :=
  [.call 0 .construct, .call 0 .reopen, .call 0 (.open (some 3) 0), .call 0 (.send 5 5),
    .call 0 .reopen, .call 0 (.open (some 3) 0), .call 0 (.send 7 7), .call 0 (.send 9 (-1))]

theorem counters_exact_sending :
    ∃ s, run State.step standardStreams sendingSocket = some s ∧
      CountersExact sendingSocket s :=
  ⟨_, rfl, counters_exact (show run State.step standardStreams sendingSocket = _ from rfl)⟩

end Sockets

/-! ## Files -/

namespace ScopedFiles

variable {ι H : Type} [DecidableEq ι] [DecidableEq H] {s s' : State ι H}

/-- A step, as one of an owner of files. -/
def ownersActs (_ : State ι H) : Action ι H → List (Owners.Action ι H)
  | .call _ (.construct none) | .call _ .constructOpen => []
  | .call i (.construct (some fid)) => [.adopt i fid]
  | .call i .reopen | .call i .destroy => [.drop i]
  | .call i (.fopen fid) => [.take i fid]
  | .openOther fid => [.takeOther fid]
  | .closeOther fid => [.dropOther fid]

/-- **One step** is one of owners. -/
theorem owners_step {a : Action ι H} (h : s.step a = some s') :
    run Owners.State.step (s.owners Object.fid) (ownersActs s a) =
      some (s'.owners Object.fid) := by
  cases a with
  | openOther fid => exact Owners.Table.run_takeOther h
  | closeOther fid => exact Owners.Table.run_dropOther h
  | call i call =>
    unfold State.step at h
    dsimp only at h
    split at h
    · rename_i hi
      obtain rfl := Option.some.inj h
      refine Owners.Table.run_same ?_
      rw [hi]
      rfl
    · rename_i fid hi
      obtain ⟨t, hadopt, rfl⟩ := Option.map_eq_some_iff.mp h
      exact Owners.Table.run_adopt (by rw [hi]; rfl) hadopt rfl
    · rename_i hi
      obtain rfl := Option.some.inj h
      refine Owners.Table.run_same ?_
      rw [hi]
      rfl
    · rename_i hi
      obtain rfl := Option.some.inj h
      exact Owners.Table.run_drop hi rfl
    · rename_i fid hi
      split at h
      · cases h
      · rename_i hfree
        obtain rfl := Option.some.inj h
        refine Owners.Table.run_take (by rw [hi]; rfl) ?_ rfl
        rintro r rfl htaken
        exact hfree htaken
    · rename_i hi
      obtain rfl := Option.some.inj h
      exact Owners.Table.run_drop hi rfl
    · cases h

/-- **Files**, in every state that the objects of a process reach. -/
theorem files_owned {files : H → Bool} {as : List (Action ι H)}
    (hrun : run State.step (State.start ι files) as = some s) : Owned Object.fid s :=
  owned_of_sole (Owners.sole_run (Owners.sole_start files)
    (run_simulates (fun _ _ _ => owners_step) hrun))

/-- A file that is taken over, one that is opened, and one that cannot be opened. -/
def scopedFiles : List (Action (Fin 2) Nat) :=
  [.openOther 1, .call 0 (.construct (some 1)), .call 1 .constructOpen, .call 1 (.fopen (some 2)),
    .call 0 .reopen, .call 0 (.fopen none), .call 1 .destroy]

theorem files_owned_scoped :
    ∃ s, run State.step (State.start (Fin 2) fun _ => false) scopedFiles = some s ∧
      Owned Object.fid s :=
  ⟨_, rfl,
    files_owned (show run State.step (State.start (Fin 2) fun _ => false) scopedFiles = _ from rfl)⟩

end ScopedFiles

end SslAutoref
