import Canal.LoopThread.Basic

/-!
# The retry loop of the dispatch

The dispatch callback walks through the pool until a connection takes the slice.
It should find one whenever there is one. The number of its turns is computed in
an `unsigned short`, and the index of a turn is a 32-bit counter modulo the size
of the pool.

Two things go wrong. A pool of 2^16 connections or more gets the turns of its
size modulo 2^16. And when the counter wraps, the turns jump to the front of the
pool, unless its size divides 2^32, so that some connections get no turn and the
first ones may get two.
-/

namespace Canal.LoopThread

/-- The `do … while (retry_time)` loop of the dispatch callback; `accepts` says
which connections accept a `bufferevent_write`. `none` is a loop that has not
ended within the fuel. -/
def retryLoop (conns : List Connection) (accepts : Nat → Bool) :
    (fuel : Nat) → (retryTime : UInt16) → (sIdGenerater : UInt32) →
      Option (Option (Nat × Connection) × UInt32)
  | 0, _, _ => none
  | fuel + 1, retryTime, sIdGenerater =>
      let retryTime := retryTime - 1
      let index := sIdGenerater.toNat % conns.length
      let sIdGenerater := sIdGenerater + 1
      let next :=
        if retryTime = 0 then some (none, sIdGenerater)
        else retryLoop conns accepts fuel retryTime sIdGenerater
      match conns[index]? with
      | none => next
      | some conn =>
          if !conn.isConnected then next
          else if !conn.send (accepts index) then next
          else some (some (index, conn), sIdGenerater)

/-- The connection is in the pool, connected, and accepts the data. -/
def Takes (conns : List Connection) (accepts : Nat → Bool) (c : Nat) : Prop :=
  ∃ conn, conns[c]? = some conn ∧ conn.isConnected = true ∧ conn.send (accepts c) = true

/-- The connection whose turn it is after `k` turns. -/
def turn (size : Nat) (gen : UInt32) (k : Nat) : Nat := (gen + UInt32.ofNat k).toNat % size

/-- What `bufferevent_write` answers when `retry` turns follow. -/
def writes (size : Nat) (gen : UInt32) (accepts : Nat → Bool) : Nat → Bool :=
  fun retry => accepts (turn size gen (attempts size - 1 - retry))

/-- The loop ends. If some connection takes the slice, exactly one is given it,
and the session is pushed once, on the queue of this connection; otherwise the
connections stay as they are. -/
structure Delivers (s : State) (i : SessionId) (sess : TcpSession) (accepts : Nat → Bool) :
    Prop where
  ends : ∃ fuel, (retryLoop s.connections accepts fuel
    (UInt16.ofNat s.connections.length + 1) sess.sIdGenerater).isSome
  delivered : (∃ c, Takes s.connections accepts c) →
    ∃ c conn, s.connections[c]? = some conn ∧ Takes s.connections accepts c ∧
      (s.dispatch i sess (writes s.connections.length sess.sIdGenerater accepts)).connections =
        s.connections.set c (conn.push ⟨i, s.forwarded i⟩)
  unchanged : (¬ ∃ c, Takes s.connections accepts c) →
    (s.dispatch i sess (writes s.connections.length sess.sIdGenerater accepts)).connections =
      s.connections

/-- Connection `c` of a pool gets a turn if the counter starts at `gen`: before
the counter wraps, or behind it. -/
def Reached (size gen c : Nat) : Prop :=
  ((c + (size - gen % size)) % size < size % 2 ^ 16 + 1 ∧
      gen + (c + (size - gen % size)) % size < 2 ^ 32) ∨
    2 ^ 32 + c < gen + (size % 2 ^ 16 + 1)

instance (size gen c : Nat) : Decidable (Reached size gen c) :=
  inferInstanceAs (Decidable (_ ∨ _))

variable {conns : List Connection} {accepts write : Nat → Bool} {gen : UInt32} {c k : Nat}

/-! ## The loop and its turns -/

theorem attempts_eq (size : Nat) : attempts size = size % 2 ^ 16 + 1 := by
  simp [attempts]

theorem turn_lt (hne : conns ≠ []) : turn conns.length gen k < conns.length :=
  Nat.mod_lt _ (List.length_pos_of_ne_nil hne)

@[simp] theorem turn_zero (size : Nat) (gen : UInt32) : turn size gen 0 = gen.toNat % size := by
  simp [turn]

theorem turn_succ (size : Nat) (gen : UInt32) (k : Nat) :
    turn size (gen + 1) k = turn size gen (k + 1) := by
  rw [turn, turn, UInt32.add_assoc, UInt32.ofNat_add, UInt32.add_comm 1]
  rfl

/-- A turn either takes the slice or leaves it to the turns that follow. -/
theorem tryConnections_succ (hne : conns ≠ []) (write : Nat → Bool) (retry : Nat) (gen : UInt32) :
    (∃ conn, conns[gen.toNat % conns.length]? = some conn ∧
        Takes conns (fun _ => write retry) (gen.toNat % conns.length) ∧
        tryConnections conns write (retry + 1) gen =
          (some (gen.toNat % conns.length, conn), gen + 1)) ∨
      (¬ Takes conns (fun _ => write retry) (gen.toNat % conns.length) ∧
        tryConnections conns write (retry + 1) gen =
          tryConnections conns write retry (gen + 1)) := by
  have hlt : turn conns.length gen 0 < conns.length := turn_lt hne
  rw [turn_zero] at hlt
  have hget := List.getElem?_eq_getElem hlt
  rw [tryConnections, hget]
  simp only [Takes, hget, Option.some.injEq, exists_eq_left']
  cases hconnected : conns[gen.toNat % conns.length].isConnected <;>
    cases hsend : conns[gen.toNat % conns.length].send (write retry) <;>
    simp

/-- The loop finds the first turn at which the slice is taken, or there is none. -/
theorem tryConnections_turns (hne : conns ≠ []) (write : Nat → Bool) (k : Nat) (gen : UInt32) :
    (∃ j conn gen', j < k ∧ conns[turn conns.length gen j]? = some conn ∧
        Takes conns (fun _ => write (k - 1 - j)) (turn conns.length gen j) ∧
        tryConnections conns write k gen = (some (turn conns.length gen j, conn), gen')) ∨
      ((∀ j < k, ¬ Takes conns (fun _ => write (k - 1 - j)) (turn conns.length gen j)) ∧
        ∃ gen', tryConnections conns write k gen = (none, gen')) := by
  induction k generalizing gen with
  | zero => exact Or.inr ⟨by simp, gen, rfl⟩
  | succ k ih =>
      have hindex : ∀ j, k + 1 - 1 - (j + 1) = k - 1 - j := by omega
      obtain ⟨conn, hget, htakes, heq⟩ | ⟨hnot, heq⟩ := tryConnections_succ hne write k gen
      · refine Or.inl ⟨0, conn, gen + 1, Nat.succ_pos k, ?_⟩
        rw [turn_zero]
        exact ⟨hget, htakes, heq⟩
      · rw [heq]
        obtain ⟨j, conn, gen', hj, h⟩ | ⟨hnone, h⟩ := ih (gen + 1)
        · rw [turn_succ, ← hindex] at h
          exact Or.inl ⟨j + 1, conn, gen', by omega, h⟩
        · refine Or.inr ⟨?_, h⟩
          intro j hj
          cases j with
          | zero =>
              rw [turn_zero]
              exact hnot
          | succ j =>
              rw [← turn_succ, hindex]
              exact hnone j (by omega)

/-- The loop runs at most `attempts` turns, and `tryConnections` is its result. -/
theorem retryLoop_eq (hne : conns ≠ []) {fuel : Nat} {retryTime : UInt16}
    (hk : (retryTime - 1).toNat + 1 = k) (hfuel : k ≤ fuel)
    (hwrite : ∀ j < k, write (k - 1 - j) = accepts (turn conns.length gen j)) :
    retryLoop conns accepts fuel retryTime gen = some (tryConnections conns write k gen) := by
  induction k generalizing fuel retryTime gen with
  | zero => omega
  | succ k ih =>
      obtain ⟨f, rfl⟩ : ∃ f, fuel = f + 1 := ⟨fuel - 1, by omega⟩
      have hfirst := hwrite 0 (Nat.succ_pos k)
      rw [turn_zero, Nat.add_sub_cancel, Nat.sub_zero] at hfirst
      have hnext : (if retryTime - 1 = 0 then some (none, gen + 1)
          else retryLoop conns accepts f (retryTime - 1) (gen + 1)) =
            some (tryConnections conns write k (gen + 1)) := by
        by_cases hlast : retryTime - 1 = 0
        · rw [hlast] at hk
          obtain rfl : k = 0 := by simpa using hk.symm
          rw [if_pos hlast, tryConnections]
        · have hpos : (retryTime - 1).toNat ≠ 0 := fun hzero => hlast (UInt16.toNat_inj.mp hzero)
          rw [if_neg hlast]
          apply ih
          · have hle : (1 : UInt16) ≤ retryTime - 1 := Nat.one_le_iff_ne_zero.mpr hpos
            rw [UInt16.toNat_sub_of_le _ _ hle, show (1 : UInt16).toNat = 1 from rfl]
            omega
          · omega
          · intro j hj
            have hindex : k + 1 - 1 - (j + 1) = k - 1 - j := by omega
            rw [turn_succ, ← hwrite (j + 1) (by omega), hindex]
      have hget := List.getElem?_eq_getElem (Nat.mod_lt gen.toNat (List.length_pos_of_ne_nil hne))
      rw [retryLoop, tryConnections, hget]
      simp only [hnext, hfirst]
      split
      · rfl
      · split <;> rfl

theorem writes_turn {size : Nat} (hk : k < attempts size) :
    writes size gen accepts (attempts size - 1 - k) = accepts (turn size gen k) := by
  have hindex : attempts size - 1 - (attempts size - 1 - k) = k := by omega
  rw [writes, hindex]

theorem retryLoop_ends (hne : conns ≠ []) (accepts : Nat → Bool) (gen : UInt32) :
    ∃ fuel, (retryLoop conns accepts fuel (UInt16.ofNat conns.length + 1) gen).isSome := by
  have hloop : retryLoop conns accepts (attempts conns.length) (UInt16.ofNat conns.length + 1)
      gen = some (tryConnections conns (writes conns.length gen accepts) _ gen) :=
    retryLoop_eq hne rfl (Nat.le_refl _) fun j hj => writes_turn hj
  refine ⟨attempts conns.length, ?_⟩
  rw [hloop]
  rfl

/-! ## The connections that get a turn -/

theorem turn_eq (size : Nat) (gen : UInt32) (k : Nat) :
    turn size gen k = (gen.toNat + k) % 2 ^ 32 % size := by
  simp [turn]

/-- `c` lies `(c + (n - m % n)) % n` steps behind `m` in a ring of `n`. -/
theorem mod_distance {m n c : Nat} (hc : c < n) : (m + (c + (n - m % n)) % n) % n = c := by
  have hlt := Nat.mod_lt m (show n > 0 by omega)
  have hdiv := Nat.div_add_mod m n
  have hsum : m + (c + (n - m % n)) = c + n * (m / n + 1) := by
    rw [Nat.mul_add, Nat.mul_one]
    omega
  rw [Nat.add_mod_mod, hsum, Nat.add_mul_mod_self_left, Nat.mod_eq_of_lt hc]

/-- There is no shorter way. -/
theorem distance_le {m n c k : Nat} (hc : c < n) (hk : (m + k) % n = c) :
    (c + (n - m % n)) % n ≤ k := by
  have hlt := Nat.mod_lt m (show n > 0 by omega)
  have hdiv := Nat.div_add_mod m n
  have hdiv' := Nat.div_add_mod (m + k) n
  have hsum : c + (n - m % n) + n * ((m + k) / n) = k + n * (m / n + 1) := by
    rw [Nat.mul_add, Nat.mul_one]
    omega
  have hmod := congrArg (· % n) hsum
  simp only [Nat.add_mul_mod_self_left] at hmod
  rw [hmod]
  exact Nat.mod_le k n

/-- The turns of a dispatch, as arithmetic. -/
theorem reached_iff {size : Nat} (hc : c < size) :
    (∃ k < attempts size, turn size gen k = c) ↔ Reached size gen.toNat c := by
  have hgen := gen.toNat_lt
  have hshort := Nat.mod_lt size (show 2 ^ 16 > 0 by decide)
  simp only [attempts_eq, turn_eq, Reached]
  constructor
  · rintro ⟨k, hk, hturn⟩
    obtain hlt | hge := Nat.lt_or_ge (gen.toNat + k) (2 ^ 32)
    · rw [Nat.mod_eq_of_lt hlt] at hturn
      have hle := distance_le hc hturn
      exact Or.inl ⟨by omega, by omega⟩
    · -- behind the wrap the turns start again at the front of the pool
      have hwrap : (gen.toNat + k) % 2 ^ 32 = gen.toNat + k - 2 ^ 32 := by omega
      rw [hwrap] at hturn
      have hle := Nat.mod_le (gen.toNat + k - 2 ^ 32) size
      exact Or.inr (by omega)
  · rintro (⟨hturns, hbefore⟩ | hbehind)
    · refine ⟨_, hturns, ?_⟩
      rw [Nat.mod_eq_of_lt hbefore, mod_distance hc]
    · refine ⟨2 ^ 32 + c - gen.toNat, by omega, ?_⟩
      have hwrap : (gen.toNat + (2 ^ 32 + c - gen.toNat)) % 2 ^ 32 = c := by omega
      rw [hwrap, Nat.mod_eq_of_lt hc]

/-! ## The outcome of a dispatch -/

variable {conn : Connection}

theorem Takes.lt (h : Takes conns accepts c) : c < conns.length := by
  obtain ⟨conn, hget, -⟩ := h
  exact (List.getElem?_eq_some_iff.mp hget).1

/-- Either a connection with a turn takes the slice, or no connection with a
turn does and the connections stay as they are. -/
theorem dispatch_turns (s : State) (i : SessionId) (sess : TcpSession) (accepts : Nat → Bool)
    (hne : s.connections ≠ []) :
    (∃ c conn, Reached s.connections.length sess.sIdGenerater.toNat c ∧
        s.connections[c]? = some conn ∧ Takes s.connections accepts c ∧
        (s.dispatch i sess (writes s.connections.length sess.sIdGenerater accepts)).connections =
          s.connections.set c (conn.push ⟨i, s.forwarded i⟩)) ∨
      ((∀ c, Reached s.connections.length sess.sIdGenerater.toNat c →
          ¬ Takes s.connections accepts c) ∧
        (s.dispatch i sess (writes s.connections.length sess.sIdGenerater accepts)).connections =
          s.connections) := by
  obtain ⟨j, conn, gen', hj, hget, htakes, heq⟩ | ⟨hnone, gen', heq⟩ :=
    tryConnections_turns hne (writes s.connections.length sess.sIdGenerater accepts)
      (attempts s.connections.length) sess.sIdGenerater
  · rw [writes_turn hj] at htakes
    refine Or.inl ⟨_, conn, (reached_iff htakes.lt).mp ⟨j, hj, rfl⟩, hget, htakes, ?_⟩
    simp [State.dispatch, hne, heq]
  · refine Or.inr ⟨?_, by simp [State.dispatch, hne, heq]⟩
    intro c hreached htakes
    obtain ⟨j, hj, rfl⟩ := (reached_iff htakes.lt).mpr hreached
    apply hnone j hj
    rwa [writes_turn hj]

theorem push_ne (h : conns[c]? = some conn) (r : Request) : conns.set c (conn.push r) ≠ conns := by
  intro heq
  have hlt := (List.getElem?_eq_some_iff.mp h).1
  have hget := congrArg (·[c]?) heq
  simp only [List.getElem?_set_self hlt, h, Option.some.injEq] at hget
  have hlen := congrArg (fun conn => conn.sessionQueue.length) hget
  simp [Connection.push] at hlen

/-- Six connections of which only the last is connected, and a counter shortly
before its wrap: the turns go to 2, 3, 0, 1, 2, 3 and 4. -/
theorem ready_connection_missed :
    Takes (start [{}, {}, {}, {}, {}, idle]).connections (fun _ => true) 5 ∧
      ¬ Delivers (start [{}, {}, {}, {}, {}, idle]) 0
        { fd := 3, bev := true, sIdGenerater := 4294967294 } fun _ => true := by
  have htakes : Takes (start [{}, {}, {}, {}, {}, idle]).connections (fun _ => true) 5 :=
    ⟨_, rfl, rfl, rfl⟩
  refine ⟨htakes, fun h => ?_⟩
  obtain ⟨c, conn, hget, -, heq⟩ := h.delivered ⟨5, htakes⟩
  exact push_ne hget _ (heq.symm.trans (by rfl))

/-- The dispatch does what it should exactly if one of the connections that take
the slice gets a turn, or there is none. -/
theorem delivers_iff (s : State) (i : SessionId) (sess : TcpSession) (accepts : Nat → Bool)
    (hne : s.connections ≠ []) :
    Delivers s i sess accepts ↔
      ((∃ c, Takes s.connections accepts c) →
        ∃ c, Takes s.connections accepts c ∧
          Reached s.connections.length sess.sIdGenerater.toNat c) := by
  have hends := retryLoop_ends hne accepts sess.sIdGenerater
  obtain ⟨c, conn, hreached, hget, htakes, heq⟩ | ⟨hnone, heq⟩ :=
    dispatch_turns s i sess accepts hne
  · refine iff_of_true ⟨hends, fun _ => ⟨c, conn, hget, htakes, heq⟩, ?_⟩
      fun _ => ⟨c, htakes, hreached⟩
    exact fun hno => absurd ⟨c, htakes⟩ hno
  · constructor
    · intro h hsome
      obtain ⟨c, conn, hget, -, hpush⟩ := h.delivered hsome
      exact absurd (hpush.symm.trans heq) (push_ne hget _)
    · intro hcond
      refine ⟨hends, fun hsome => ?_, fun _ => heq⟩
      obtain ⟨c, htakes, hreached⟩ := hcond hsome
      exact absurd htakes (hnone c hreached)

/-- Three connections of which the first is not connected and the last accepts nothing.
The counter wraps, so the first one gets two turns before the second one takes the
slice. -/
theorem delivers_behind_wrap :
    Delivers (start [{}, idle, idle]) 0 { fd := 3, bev := true, sIdGenerater := 4294967295 }
      fun c => c ≠ 2 := by
  apply (delivers_iff _ _ _ _ (by decide)).mpr
  intro _
  exact ⟨1, ⟨_, rfl, rfl, rfl⟩, by decide⟩

end Canal.LoopThread
