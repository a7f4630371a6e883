import Canal.LoopThread.Retry
import Canal.Reading.OnRead

/-!
# Slices that are not forwarded

`TcpSession::onRead` should remove a slice from its input buffer only when a
connection has taken it. The callback that forwards a slice returns nothing, so
the parser does not learn whether it has failed, and `onRead` drains what the
parser has consumed. A slice whose dispatch fails is lost, wherever it stands in
its batch.

The pool may be another one for each slice: connections come and go, and in each
turn of the loop a connection accepts the data or refuses it.
-/

namespace Canal.Reading

open Buffer RespParser LoopThread Trace

/-- What the dispatch of one slice finds: whether the thread has a loop thread,
its connections, and the results of `bufferevent_write`, by the number of turns
that remain. -/
structure Pool where
  loopThread : Bool
  connections : List Connection
  write : Nat → Bool

/-- The dispatch callback for one slice: the connection that has taken it, and
the counter afterwards. -/
def Pool.dispatch (p : Pool) (sIdGenerater : UInt32) : Option Nat × UInt32 :=
  if !p.loopThread || p.connections.isEmpty then
    (none, sIdGenerater)
  else
    let (chosen, sIdGenerater) :=
      tryConnections p.connections p.write (attempts p.connections.length) sIdGenerater
    (chosen.map Prod.fst, sIdGenerater)

/-- The dispatches of a batch of slices, each with its own pool. -/
def dispatchAll : List (List Byte) → (Nat → Pool) → UInt32 →
    List (List Byte × Option Nat) × UInt32
  | [], _, sIdGenerater => ([], sIdGenerater)
  | slice :: slices, pools, sIdGenerater =>
      let (taker, sIdGenerater) := (pools 0).dispatch sIdGenerater
      let (rest, sIdGenerater) := dispatchAll slices (fun k => pools (k + 1)) sIdGenerater
      ((slice, taker) :: rest, sIdGenerater)

/-- A session between two read events: its input buffer and its counter, and for
the last event the slices with the connections that have taken them, and the
bytes drained. -/
structure Forwarder where
  input : List Byte := []
  sIdGenerater : UInt32
  outcomes : List (List Byte × Option Nat) := []
  drained : List Byte := []

/-- A read event, with the pools that its slices meet. -/
structure ForwardEvent extends ReadEvent where
  pools : Nat → Pool

/-- `TcpSession::onRead`, with the callback. -/
def forwardEvent (s : Forwarder) (e : ForwardEvent) : Eval Forwarder := do
  let r ← onRead (s.input ++ e.chunk) e.past
  let (outcomes, sIdGenerater) := dispatchAll r.slices e.pools s.sIdGenerater
  return { input := r.input, sIdGenerater, outcomes, drained := r.drained }

def ForwardStep (s : Forwarder) (e : ForwardEvent) (t : Forwarder) : Prop :=
  forwardEvent s e = .ok t

/-- If the dispatch of a slice has failed, the slice and all that stands behind it
have not been drained. -/
def Retained (s : Forwarder) : Prop :=
  ∀ before slice after, s.outcomes = before ++ (slice, none) :: after →
    s.drained.length ≤ (before.map Prod.fst).flatten.length

/-- There is a loop thread, and in some turn the loop meets a connection that is
connected and accepts the data. -/
def Pool.HasTaker (p : Pool) (sIdGenerater : UInt32) : Prop :=
  p.loopThread = true ∧ ∃ k < attempts p.connections.length,
    Takes p.connections (fun _ => p.write (attempts p.connections.length - 1 - k))
      (turn p.connections.length sIdGenerater k)

/-- `n` slices in a row find a pool with a taker. -/
def Served : Nat → (Nat → Pool) → UInt32 → Prop
  | 0, _, _ => True
  | n + 1, pools, sIdGenerater =>
      (pools 0).HasTaker sIdGenerater ∧
        Served n (fun k => pools (k + 1)) ((pools 0).dispatch sIdGenerater).2

/-- Every slice of the event finds a pool with a taker. -/
def AllServed (s : Forwarder) (e : ForwardEvent) : Prop :=
  ∀ r, onRead (s.input ++ e.chunk) e.past = .ok r → Served r.slices.length e.pools s.sIdGenerater

variable {s t : Forwarder} {e : ForwardEvent} {p : Pool} {pools : Nat → Pool}
  {slices : List (List Byte)} {gen : UInt32}

/-! ## The dispatches of a batch -/

/-- A slice is taken exactly if its pool has a taker. -/
theorem dispatch_isSome_iff : (p.dispatch gen).1.isSome ↔ p.HasTaker gen := by
  by_cases hclosed : (!p.loopThread || p.connections.isEmpty) = true
  · rw [Pool.dispatch, if_pos hclosed]
    apply iff_of_false (by simp)
    rintro ⟨hthread, k, hk, conn, hget, -⟩
    rw [hthread, Bool.not_true, Bool.false_or, List.isEmpty_iff] at hclosed
    simp [hclosed] at hget
  · have hthread : p.loopThread = true := by
      cases hthread : p.loopThread <;> simp [hthread] at hclosed ⊢
    have hne : p.connections ≠ [] := by
      intro hnil
      simp [hnil] at hclosed
    rw [Pool.dispatch, if_neg hclosed]
    obtain ⟨k, conn, gen', hk, -, htakes, heq⟩ | ⟨hnone, gen', heq⟩ :=
      tryConnections_turns hne p.write (attempts p.connections.length) gen
    · exact iff_of_true (by simp [heq]) ⟨hthread, k, hk, htakes⟩
    · apply iff_of_false (by simp [heq])
      rintro ⟨-, k, hk, htakes⟩
      exact hnone k hk htakes

theorem dispatchAll_slices (slices : List (List Byte)) (pools : Nat → Pool) (gen : UInt32) :
    (dispatchAll slices pools gen).1.map Prod.fst = slices := by
  induction slices generalizing pools gen with
  | nil => rfl
  | cons slice slices ih => simp [dispatchAll, ih]

/-- No dispatch fails exactly if every slice is served. -/
theorem dispatchAll_served_iff :
    (∀ o ∈ (dispatchAll slices pools gen).1, o.2.isSome) ↔ Served slices.length pools gen := by
  induction slices generalizing pools gen with
  | nil => simp [dispatchAll, Served]
  | cons slice slices ih =>
      simp only [dispatchAll, List.forall_mem_cons, ih, dispatch_isSome_iff, List.length_cons,
        Served]

/-! ## One read event -/

theorem ForwardStep.eq (h : ForwardStep s e t) :
    ∃ r, onRead (s.input ++ e.chunk) e.past = .ok r ∧
      t.outcomes = (dispatchAll r.slices e.pools s.sIdGenerater).1 ∧ t.drained = r.drained := by
  unfold ForwardStep forwardEvent at h
  cases hr : onRead (s.input ++ e.chunk) e.past with
  | error stop => simp [hr] at h
  | ok r =>
      rw [hr] at h
      obtain rfl := Except.ok.inj h
      exact ⟨r, rfl, rfl, rfl⟩

theorem ForwardStep.retained (h : ForwardStep s e t) (hserved : AllServed s e) : Retained t := by
  obtain ⟨r, hr, houtcomes, -⟩ := h.eq
  intro before slice after hsplit
  have hall := dispatchAll_served_iff.mpr (hserved r hr)
  have hsome := hall (slice, none) (by rw [← houtcomes, hsplit]; simp)
  simp at hsome

/-- With no LF behind the view, exactly the slices are drained, and none is empty. -/
theorem ForwardStep.served (h : ForwardStep s e t) (hquiet : Quiet e.past) (ht : Retained t) :
    AllServed s e := by
  obtain ⟨r, hr, houtcomes, hdrained⟩ := h.eq
  intro r' hr'
  obtain rfl := Except.ok.inj (hr.symm.trans hr')
  rw [onRead_eq hquiet] at hr
  obtain rfl := Except.ok.inj hr
  apply dispatchAll_served_iff.mp
  rintro ⟨slice, taker⟩ hmem
  cases taker with
  | some c => rfl
  | none =>
      rw [← houtcomes] at hmem
      obtain ⟨before, after, hsplit⟩ := List.append_of_mem hmem
      have hle := ht before slice after hsplit
      have hslices := dispatchAll_slices (scan (front (s.input ++ e.chunk))).slices e.pools
        s.sIdGenerater
      rw [← houtcomes, hsplit, List.map_append, List.map_cons] at hslices
      have hshaped : MessageShaped slice :=
        messageShaped_of_mem_scan (by rw [← hslices]; simp)
      have hpos : 0 < slice.length := List.length_pos_of_ne_nil hshaped.ne_nil
      rw [hdrained, ← hslices, List.flatten_append, List.length_append, List.flatten_cons,
        List.length_append] at hle
      simp only at hle
      omega

/-! ## Runs -/

/-- A message is drained although there is no connection. -/
theorem unforwarded_slice_drained :
    ForwardStep { sIdGenerater := 0 }
        ⟨⟨[43, 97, 13, 10], fun _ => some 0⟩, fun _ => ⟨true, [], fun _ => true⟩⟩
        { sIdGenerater := 0
          outcomes := [([43, 97, 13, 10], none)]
          drained := [43, 97, 13, 10] } ∧
      ¬ Retained
        { sIdGenerater := 0
          outcomes := [([43, 97, 13, 10], none)]
          drained := [43, 97, 13, 10] } := by
  refine ⟨rfl, fun h => ?_⟩
  exact absurd (h [] [43, 97, 13, 10] [] rfl) (by decide)

/-- Slices are retained along every run in which each slice finds a taker, and,
where no LF stands behind a view, along no other run. -/
theorem retained_along (gen : UInt32) (run : List (ForwardEvent × Forwarder))
    (h : Steps ForwardStep { sIdGenerater := gen } run) :
    (Steps (fun s e _ => AllServed s e) { sIdGenerater := gen } run →
        Along Retained { sIdGenerater := gen } run) ∧
      (Steps (fun _ e _ => Quiet e.past) { sIdGenerater := gen } run →
        (Along Retained { sIdGenerater := gen } run ↔
          Steps (fun s e _ => AllServed s e) { sIdGenerater := gen } run)) := by
  have hinit : Retained { sIdGenerater := gen } := by
    intro before slice after hsplit
    simp at hsplit
  have hserved : Steps (fun s e _ => AllServed s e) { sIdGenerater := gen } run →
      Along Retained { sIdGenerater := gen } run := by
    intro hguard
    apply (h.and hguard).along hinit
    intro s e t _ hstep
    exact hstep.1.retained hstep.2
  refine ⟨hserved, fun hquiet => ⟨fun halong => ?_, hserved⟩⟩
  apply (h.and hquiet).of_along halong
  intro s e t _ hstep ht
  exact hstep.1.served hstep.2 ht

/-- Two connections, of which only the second one is connected. -/
private def halfConnected : Pool := ⟨true, [{}, { toTcpClient := idle }], fun _ => true⟩

private theorem halfConnected_hasTaker (gen : UInt32) (h : (gen + 1).toNat % 2 = 1) :
    halfConnected.HasTaker gen := by
  refine ⟨rfl, 1, by decide, { toTcpClient := idle }, ?_, rfl, rfl⟩
  rw [turn]
  exact congrArg (halfConnected.connections[·]?) h

/-- A read event with one message and the beginning of another one, and one with the rest
and a third one. All of them are taken by the second connection. -/
theorem retained_messages :
    ∃ t, Reaches ForwardStep { sIdGenerater := 0 } t ∧
      t.outcomes = [([43, 98, 13, 10], some 1), ([43, 99, 13, 10], some 1)] ∧
      t.drained = [43, 98, 13, 10, 43, 99, 13, 10] ∧ Retained t := by
  have hreach : Reaches (fun s e t => ForwardStep s e t ∧ AllServed s e) { sIdGenerater := 0 }
      { sIdGenerater := 6
        outcomes := [([43, 98, 13, 10], some 1), ([43, 99, 13, 10], some 1)]
        drained := [43, 98, 13, 10, 43, 99, 13, 10] } := by
    refine .cons (a := ⟨⟨[43, 97, 13, 10, 43, 98], fun _ => some 0⟩, fun _ => halfConnected⟩)
        (t := { input := [43, 98], sIdGenerater := 2, outcomes := [([43, 97, 13, 10], some 1)],
                drained := [43, 97, 13, 10] }) ⟨show forwardEvent _ _ = .ok _ from rfl, ?_⟩ <|
      .cons (a := ⟨⟨[13, 10, 43, 99, 13, 10], fun _ => some 0⟩, fun _ => halfConnected⟩)
        ⟨show forwardEvent _ _ = .ok _ from rfl, ?_⟩ .nil
    · intro r hr
      obtain rfl := Except.ok.inj ((show onRead _ _ = .ok _ from rfl).symm.trans hr)
      exact ⟨halfConnected_hasTaker 0 rfl, trivial⟩
    · intro r hr
      obtain rfl := Except.ok.inj ((show onRead _ _ = .ok _ from rfl).symm.trans hr)
      exact ⟨halfConnected_hasTaker 2 rfl, halfConnected_hasTaker 4 rfl, trivial⟩
  obtain ⟨run, hsteps, hfinal⟩ := hreach
  have hrun := hsteps.mono fun _ _ _ h => h.1
  have hretained := (retained_along 0 run hrun).1 (hsteps.mono fun _ _ _ h => h.2)
  exact ⟨_, ⟨run, hrun, hfinal⟩, rfl, rfl, hfinal ▸ hretained.final⟩

end Canal.Reading
