import Canal.Foundation.Rotation
import Canal.LoopThread.Affinity

/-!
# How a session spreads its requests

The counter of a session says whose turn it is, and nothing sets it before its first
use. While all connections are ready each slice goes to the one whose turn it is, so
that a session loads the backends evenly, wherever its counter has started. Only if
the size of the pool does not divide `2 ^ 32` does a counter that wraps favour the
first connections.

Whatever else goes on in the loop thread, as long as no connection is lost or added,
makes no difference: other sessions count for themselves.
-/

namespace Canal.LoopThread

open Rotation Trace

instance (client : TcpClient) : Decidable (Ready client) :=
  inferInstanceAs (Decidable (_ ∧ _ ∧ _))

/-- All connections of the pool are ready, and there are `k` of them. -/
structure Healthy (k : Nat) (s : State) : Prop where
  size : s.connections.length = k
  ready : ∀ conn ∈ s.connections, Ready conn.toTcpClient

/-- No write fails while a slice is dispatched. -/
def Accepting : Action → Prop
  | .dispatch _ write => ∀ k, write k = true
  | _ => True

/-- The action dispatches a slice of the session. -/
def Action.dispatches (i : SessionId) : Action → Bool
  | .dispatch j _ => j = i
  | _ => false

/-- The action dispatches a slice of the session, and the connection gets it. -/
def forwards (i : SessionId) (c : Nat) (s : State) (a : Action) (t : State) : Bool :=
  a.dispatches i && (s.connections[c]?).any fun conn =>
    t.connections[c]? = some (conn.push ⟨i, s.forwarded i⟩)

/-- How many slices of the session are dispatched in a run. -/
def asked (i : SessionId) (run : List (Action × State)) : Nat :=
  run.countP fun p => p.1.dispatches i

/-- How many of them the connection gets. -/
def taken (i : SessionId) (c : Nat) : State → List (Action × State) → Nat
  | _, [] => 0
  | s, (a, t) :: run => taken i c t run + if forwards i c s a t then 1 else 0

variable {s t : State} {a : Action} {i : SessionId} {c k : Nat} {sess : TcpSession}
  {run : List (Action × State)}

/-! ## One step -/

theorem processMsg_sessions (s : State) : s.processMsg.sessions = s.sessions := by
  refine State.processMsg_induction (P := fun t => t.sessions = s.sessions) rfl ?_
  intro t x _ ht
  cases x <;> exact ht

theorem push_ne_self (conn : Connection) (r : Request) : conn.push r ≠ conn := by
  intro heq
  have hlength := congrArg (·.outstanding.length) heq
  simp [Connection.push] at hlength

/-- What a step does to the counter of a session: it moves on if a slice is
dispatched, and the slice goes where it has pointed. -/
structure Turns (k : Nat) (i : SessionId) (sess : TcpSession) (s : State) (a : Action)
    (t : State) : Prop where
  counter : ∃ sess', t.sessions[i]? = some sess' ∧
    sess'.sIdGenerater = sess.sIdGenerater + (if a.dispatches i then 1 else 0)
  forwards : ∀ c, forwards i c s a t =
    (a.dispatches i && decide (sess.sIdGenerater.toNat % k = c))

theorem turns_of_other {sess' : TcpSession} (h : a.dispatches i = false)
    (hsess : t.sessions[i]? = some sess') (hgen : sess'.sIdGenerater = sess.sIdGenerater) :
    Turns k i sess s a t :=
  ⟨⟨sess', hsess, by simp [h, hgen]⟩, fun c => by simp [forwards, h]⟩

/-- On a healthy pool the connection whose turn it is gets the slice, and no other. -/
theorem turns_of_dispatch (hs : Healthy k s) (hk : 0 < k) {write : Nat → Bool}
    (hwrite : ∀ k, write k = true) (hsess : s.sessions[i]? = some sess) :
    Turns k i sess s (.dispatch i write) (s.dispatch i sess write) := by
  obtain ⟨hlt, -⟩ := List.getElem?_eq_some_iff.mp hsess
  have hne : s.connections ≠ [] := by
    intro hnil
    have hsize := hs.size
    rw [hnil, List.length_nil] at hsize
    exact Nat.ne_of_lt hk hsize
  obtain ⟨conn, found, heq⟩ := dispatch_ready i sess hs.ready hwrite hne
  rw [hs.size] at found heq
  have hdispatches : (Action.dispatch i write).dispatches i = true := by simp [Action.dispatches]
  refine ⟨⟨{ sess with sIdGenerater := sess.sIdGenerater + 1 }, ?_, ?_⟩, fun c => ?_⟩
  · simp [heq, hlt]
  · rw [hdispatches, if_pos rfl]
  by_cases hc : sess.sIdGenerater.toNat % k = c
  · obtain ⟨hpool, rfl⟩ := List.getElem?_eq_some_iff.mp found
    subst hc
    simp [forwards, hdispatches, heq, hpool]
  · have hstays : (s.dispatch i sess write).connections[c]? = s.connections[c]? := by
      rw [heq]
      exact List.getElem?_set_ne hc
    rw [forwards, hstays]
    cases hget : s.connections[c]? with
    | none => simp [hc]
    | some conn' => simp [hc, (push_ne_self conn' _).symm]

theorem Step.turns (h : Step s a t) (hs : Healthy k s) (hk : 0 < k) (haccepting : Accepting a)
    (hsess : s.sessions[i]? = some sess) : Turns k i sess s a t := by
  obtain ⟨hlt, -⟩ := List.getElem?_eq_some_iff.mp hsess
  cases h with
  | @dispatch j sess' write active =>
      obtain ⟨hsess', -⟩ := State.active_eq_some.mp active
      by_cases hj : j = i
      · subst hj
        obtain rfl := Option.some.inj (hsess'.symm.trans hsess)
        exact turns_of_dispatch hs hk haccepting hsess
      · refine turns_of_other (by simp [Action.dispatches, hj]) ?_ rfl
        obtain ⟨gen, heq | ⟨c, conn, -, -, -, -, heq⟩⟩ := s.dispatch_cases write hsess' <;>
          simpa [heq, hj] using hsess
  | @event j sess' active =>
      obtain ⟨hsess', -⟩ := State.active_eq_some.mp active
      by_cases hj : j = i
      · subst hj
        obtain rfl := Option.some.inj (hsess'.symm.trans hsess)
        have hclosed : (s.handleEvent j sess').sessions[j]? =
            some { sess' with isClosing := true } := by
          simp [State.handleEvent, hlt]
        exact turns_of_other rfl hclosed rfl
      · exact turns_of_other rfl (by simpa [State.handleEvent, hj] using hsess) rfl
  | @accept fd bev gen closed =>
      have hstays : (s.accept fd bev gen).sessions[i]? = some sess := by
        rw [State.accept, List.getElem?_append_left hlt]
        exact hsess
      exact turns_of_other rfl hstays rfl
  | batch => exact turns_of_other rfl (by rwa [processMsg_sessions]) rfl
  | _ => exact turns_of_other rfl hsess rfl

/-! ## Runs -/

theorem asked_cons (i : SessionId) (a : Action) (t : State) (run : List (Action × State)) :
    asked i ((a, t) :: run) = asked i run + if a.dispatches i then 1 else 0 := by
  rw [asked, List.countP_cons]
  rfl

/-- `x` is where the counter would be if it did not wrap. -/
theorem taken_window (h : Steps Step s run) (hs : Along (Healthy k) s run) (hk : 0 < k)
    (haccepting : ∀ p ∈ run, Accepting p.1) (hsess : s.sessions[i]? = some sess) {x : Nat}
    (hx : sess.sIdGenerater.toNat = x % 2 ^ 32) (c : Nat) :
    taken i c s run + served (2 ^ 32) k x c = served (2 ^ 32) k (x + asked i run) c := by
  induction run generalizing s sess x with
  | nil => simp [taken, asked]
  | cons p run ih =>
      obtain ⟨a, t⟩ := p
      obtain ⟨hnow, hrest⟩ := along_cons.mp hs
      obtain ⟨⟨sess', hsess', hgen⟩, hforwards⟩ :=
        h.1.turns hnow hk (haccepting _ List.mem_cons_self) hsess
      have hlater := fun p hp => haccepting p (List.mem_cons_of_mem _ hp)
      rw [taken, hforwards c, asked_cons]
      cases hdispatches : a.dispatches i with
      | false =>
          have hsame : sess'.sIdGenerater.toNat = x % 2 ^ 32 := by
            simpa [hgen, hdispatches] using hx
          simpa [hdispatches] using ih h.2 hrest hlater hsess' hsame
      | true =>
          have hnext : sess'.sIdGenerater.toNat = (x + 1) % 2 ^ 32 := by
            rw [hgen, hdispatches, if_pos rfl, UInt32.toNat_add, hx]
            simp
          have hrun := ih h.2 hrest hlater hsess' hnext
          rw [served_succ, Nat.add_right_comm] at hrun
          have hseat : sess.sIdGenerater.toNat % k = seat (2 ^ 32) k x := by rw [seat, hx]
          rw [hseat]
          simp only [Bool.true_and, decide_eq_true_eq, if_true]
          rw [← Nat.add_assoc]
          omega

/-- Of `n` slices of a session each connection of a pool of `k` gets its share: all
are taken, and no connection takes more than one more than another, and one more for
each time that the counter has wrapped if `k` does not divide `2 ^ 32`. -/
structure Spread (k n : Nat) (gen : UInt32) (share : Nat → Nat) : Prop where
  all : ∑ c ∈ Finset.range k, share c = n
  even : ∀ c c', c < k → c' < k → share c ≤ share c' + 1 + (gen.toNat + n) / 2 ^ 32
  exact : k ∣ 2 ^ 32 → ∀ c c', c < k → c' < k → share c ≤ share c' + 1

theorem spread_of_window {n : Nat} {gen : UInt32} {share : Nat → Nat} (hk : 0 < k)
    (h : ∀ c, share c + served (2 ^ 32) k gen.toNat c = served (2 ^ 32) k (gen.toNat + n) c) :
    Spread k n gen share := by
  have hpos : 0 < 2 ^ 32 := by decide
  refine ⟨?_, fun c c' hc hc' => ?_, fun hdvd c c' hc hc' => ?_⟩
  · have hsum :
        ∑ c ∈ Finset.range k, (share c + served (2 ^ 32) k gen.toNat c) = gen.toNat + n := by
      simp only [h]
      exact sum_served hk _
    rw [Finset.sum_add_distrib, sum_served hk] at hsum
    omega
  · have hwindow := served_window (m := n) hpos hc hc' gen.toNat_lt
    rw [← h c, ← h c'] at hwindow
    omega
  · have hwindow := served_window_of_dvd (m := n) hpos hdvd hc hc' gen.toNat
    rw [← h c, ← h c'] at hwindow
    omega

/-- Over any stretch of a run during which the pool is healthy and no write fails, a
session spreads its slices over the pool. -/
theorem spread_along (hk : 0 < k) (s : State) (run : List (Action × State)) (h : Steps Step s run)
    (hs : Along (Healthy k) s run) (haccepting : ∀ p ∈ run, Accepting p.1) (i : SessionId)
    (sess : TcpSession) (hsess : s.sessions[i]? = some sess) :
    Spread k (asked i run) sess.sIdGenerater fun c => taken i c s run := by
  have hgen : sess.sIdGenerater.toNat = sess.sIdGenerater.toNat % 2 ^ 32 :=
    (Nat.mod_eq_of_lt sess.sIdGenerater.toNat_lt).symm
  exact spread_of_window hk (taken_window h hs hk haccepting hsess hgen)

/-- A session whose counter wraps in front of the second of two slices, which go to the
same connection of a pool of three. -/
theorem spread_around_wrap :
    ∃ run, Steps Step ((start [idle, idle, idle]).accept 5 true 4294967295) run ∧
      taken 0 0 ((start [idle, idle, idle]).accept 5 true 4294967295) run = 2 ∧
      Spread 3 2 4294967295 fun c =>
        taken 0 c ((start [idle, idle, idle]).accept 5 true 4294967295) run := by
  have hrun : ∃ run, Steps Step ((start [idle, idle, idle]).accept 5 true 4294967295) run ∧
      taken 0 0 ((start [idle, idle, idle]).accept 5 true 4294967295) run = 2 ∧
      asked 0 run = 2 ∧ (∀ p ∈ run, Accepting p.1) ∧
      Along (Healthy 3) ((start [idle, idle, idle]).accept 5 true 4294967295) run :=
    ⟨[(.dispatch 0 fun _ => true, _), (.dispatch 0 fun _ => true, _)],
      ⟨.dispatch _ rfl, .dispatch _ rfl, trivial⟩, rfl, rfl, by simp [Accepting],
      along_cons.mpr ⟨⟨rfl, by decide⟩, along_cons.mpr ⟨⟨rfl, by decide⟩,
        along_nil.mpr ⟨rfl, by decide⟩⟩⟩⟩
  obtain ⟨run, hsteps, htaken, hasked, haccepting, hhealthy⟩ := hrun
  refine ⟨run, hsteps, htaken, ?_⟩
  rw [← hasked]
  exact spread_along (by decide) _ run hsteps hhealthy haccepting 0 ⟨5, true, false, 4294967295⟩ rfl

end Canal.LoopThread
