import Canal.LoopThread.Alignment

/-!
# Sessions and their descriptors

`DEL_SESSION` names a descriptor. Between the moment a session asks for its
removal and the batch that carries it out, the descriptor may change hands: a
queue can keep the session alive after a first removal, so that it asks a second
time, and its descriptor is closed only when the last reply arrives.

As long as a session holds its descriptor open, no other session stands under it
in the map. So if no descriptor is accepted while a removal of it is waiting, a
waiting removal can only hit the session that has asked for it.
-/

namespace Canal.LoopThread

open Trace

namespace State

variable {s t : State} {i j : SessionId} {fd : Nat}

/-- The part of a session that never changes. -/
def ident (s : State) (i : SessionId) : Option (Nat × Bool) :=
  (s.sessions[i]?).map fun sess => (sess.fd, sess.bev)

theorem ident_eq_some {p : Nat × Bool} :
    s.ident i = some p ↔ ∃ sess, s.sessions[i]? = some sess ∧ sess.fd = p.1 ∧ sess.bev = p.2 := by
  simp [ident, Prod.ext_iff]

theorem queued_iff : s.queued i = true ↔ ∃ conn ∈ s.connections, i ∈ conn.sessionQueue := by
  simp [queued]

theorem alive_iff : s.alive i = true ↔
    ∃ p, s.ident i = some p ∧ (s.fdToSession p.1 = some i ∨ s.queued i = true) := by
  unfold alive ident
  cases s.sessions[i]? <;> simp

theorem owns_iff :
    s.owns fd i = true ↔ s.ident i = some (fd, true) ∧ s.alive i = true := by
  unfold owns ident
  cases s.sessions[i]? <;> simp

theorem owns_of_isOpen_false (h : s.isOpen fd = false) : s.owns fd i = false := by
  cases howns : s.owns fd i with
  | false => rfl
  | true =>
      obtain ⟨hident, -⟩ := owns_iff.mp howns
      obtain ⟨sess, hsess, -⟩ := ident_eq_some.mp hident
      have hlt := (List.getElem?_eq_some_iff.mp hsess).1
      have hnot := List.any_eq_false.mp h i (List.mem_range.mpr hlt)
      simp [howns] at hnot

/-- No session gains a reference, and none stops closing. -/
structure Shrinks (s t : State) : Prop where
  ident : ∀ i, t.ident i = s.ident i
  closing : ∀ i, s.closing i = true → t.closing i = true
  entry : ∀ fd i, t.fdToSession fd = some i → s.fdToSession fd = some i
  queued : ∀ i, t.queued i = true → s.queued i = true ∨ s.alive i = true

theorem shrinks_refl (t : State) (hsessions : t.sessions = s.sessions)
    (hentries : t.fdToSession = s.fdToSession) (hconns : t.connections = s.connections) :
    Shrinks s t where
  ident i := by simp only [ident, hsessions]
  closing i h := by simpa only [closing, hsessions] using h
  entry fd i h := by rwa [hentries] at h
  queued i h := Or.inl (by simpa only [queued, hconns] using h)

theorem Shrinks.alive (h : Shrinks s t) (ht : t.alive i = true) : s.alive i = true := by
  obtain ⟨p, hident, href⟩ := alive_iff.mp ht
  rw [h.ident] at hident
  obtain hentry | hqueued := href
  · exact alive_iff.mpr ⟨p, hident, Or.inl (h.entry _ _ hentry)⟩
  · obtain hqueued | halive := h.queued i hqueued
    · exact alive_iff.mpr ⟨p, hident, Or.inr hqueued⟩
    · exact halive

theorem Shrinks.owns (h : Shrinks s t) (ht : t.owns fd i = true) : s.owns fd i = true := by
  obtain ⟨hident, halive⟩ := owns_iff.mp ht
  rw [h.ident] at hident
  exact owns_iff.mpr ⟨hident, h.alive halive⟩

end State

/-- The entry of a descriptor that is held open is the session that holds it, and
whatever is or will be erased has asked for it. -/
structure Owned (s : State) : Prop where
  holder : ∀ fd i j, s.owns fd i = true → s.fdToSession fd = some j → j = i
  pending : ∀ fd i, .delSession fd ∈ s.taskQueue → s.fdToSession fd = some i → s.closing i = true
  erased : ∀ i ∈ s.erased, s.closing i = true

/-- No descriptor is accepted while a removal of it is waiting. -/
def Fresh (s : State) : Action → Prop
  | .accept fd _ _ => .delSession fd ∉ s.taskQueue
  | _ => True

variable {s t : State} {a : Action} {i : SessionId} {fd : Nat}

/-- A step that gives no session a reference, and no descriptor a removal that
its owner has not asked for. -/
theorem Owned.of_shrinks (h : Owned s) (hst : State.Shrinks s t)
    (hpending : ∀ fd, .delSession fd ∈ t.taskQueue → .delSession fd ∈ s.taskQueue ∨
      ∀ i, s.fdToSession fd = some i → t.closing i = true)
    (herased : ∀ i ∈ t.erased, i ∈ s.erased ∨ s.closing i = true) : Owned t where
  holder fd i j hi hj := h.holder fd i j (hst.owns hi) (hst.entry fd j hj)
  pending fd i htask hentry := by
    have hentry' := hst.entry fd i hentry
    obtain htask | hclosing := hpending fd htask
    · exact hst.closing i (h.pending fd i htask hentry')
    · exact hclosing i hentry'
  erased i hi := by
    obtain hi | hi := herased i hi
    · exact hst.closing i (h.erased i hi)
    · exact hst.closing i hi

/-! ## Steps that give no references -/

namespace State

theorem getElem?_set_of_some {α : Type} {l : List α} {i : Nat} {x : α} (h : l[i]? = some x)
    (y : α) (j : Nat) : (l.set i y)[j]? = if i = j then some y else l[j]? := by
  have hlt := (List.getElem?_eq_some_iff.mp h).1
  rw [List.getElem?_set]
  simp [hlt]

theorem Shrinks.trans {u : State} (h : Shrinks s t) (h' : Shrinks t u) : Shrinks s u where
  ident i := (h'.ident i).trans (h.ident i)
  closing i hi := h'.closing i (h.closing i hi)
  entry fd i hi := h.entry fd i (h'.entry fd i hi)
  queued i hi := by
    obtain hqueued | halive := h'.queued i hi
    · exact h.queued i hqueued
    · exact Or.inr (h.alive halive)

/-- A session changes, but not its descriptor, and does not stop closing. -/
theorem shrinks_set_session {sess : TcpSession} (sess' : TcpSession)
    (found : s.sessions[i]? = some sess)
    (hident : (sess'.fd, sess'.bev) = (sess.fd, sess.bev))
    (hclosing : sess.isClosing = true → sess'.isClosing = true) :
    Shrinks s { s with sessions := s.sessions.set i sess' } where
  ident j := by
    simp only [ident, getElem?_set_of_some found]
    by_cases hij : i = j
    · subst hij
      simp only [↓reduceIte, found, Option.map_some, hident]
    · rw [if_neg hij]
  closing j hj := by
    simp only [closing, getElem?_set_of_some found] at hj ⊢
    by_cases hij : i = j
    · subst hij
      simp only [found, Option.any_some, ↓reduceIte] at hj ⊢
      exact hclosing hj
    · rwa [if_neg hij]
  entry _ _ h := h
  queued _ h := Or.inl h

/-- A connection changes, and only sessions that live are pushed. -/
theorem shrinks_set_conn {c : Nat} {conn : Connection} (conn' : Connection)
    (found : s.connections[c]? = some conn)
    (hqueue : ∀ i ∈ conn'.sessionQueue, i ∈ conn.sessionQueue ∨ s.alive i = true) :
    Shrinks s { s with connections := s.connections.set c conn' } where
  ident _ := rfl
  closing _ h := h
  entry _ _ h := h
  queued i hi := by
    obtain ⟨x, hx, hmem⟩ := queued_iff.mp hi
    obtain hx | rfl := List.mem_or_eq_of_mem_set hx
    · exact Or.inl (queued_iff.mpr ⟨x, hx, hmem⟩)
    · obtain hmem | halive := hqueue i hmem
      · exact Or.inl (queued_iff.mpr ⟨conn, List.mem_of_getElem? found, hmem⟩)
      · exact Or.inr halive

theorem shrinks_handleEvent {sess : TcpSession} (active : s.active i = some sess) :
    Shrinks s (s.handleEvent i sess) := by
  have h := shrinks_set_session { sess with isClosing := true }
    (active_eq_some.mp active).1 rfl fun _ => rfl
  exact ⟨h.ident, h.closing, h.entry, h.queued⟩

theorem shrinks_dispatch {sess : TcpSession} (write : Nat → Bool)
    (active : s.active i = some sess) : Shrinks s (s.dispatch i sess write) := by
  obtain ⟨hsess, -, halive⟩ := active_eq_some.mp active
  obtain ⟨gen, heq | ⟨c, conn, found, -, -, -, heq⟩⟩ := s.dispatch_cases write hsess
  · rw [heq]
    exact shrinks_set_session _ hsess rfl id
  · rw [heq]
    have hconn := shrinks_set_conn (conn.push ⟨i, s.forwarded i⟩) found <| by
      intro j hj
      obtain hj | hj := List.mem_append.mp hj
      · exact Or.inl hj
      · rw [List.mem_singleton.mp hj]
        exact Or.inr halive
    have hset := hconn.trans
      (shrinks_set_session { sess with sIdGenerater := gen } hsess rfl id)
    exact ⟨hset.ident, hset.closing, hset.entry, hset.queued⟩

theorem shrinks_reply {c : Nat} {conn : Connection} {r : Request} (write : Bool)
    (found : s.connections[c]? = some conn) : Shrinks s (s.reply c conn r i write) := by
  have h := shrinks_set_conn conn.pop found fun j hj => Or.inl (List.mem_of_mem_tail hj)
  exact ⟨h.ident, h.closing, h.entry, h.queued⟩

theorem shrinks_processTask (x : Task) : Shrinks s (s.processTask x) := by
  cases x with
  | delSession fd =>
      refine ⟨fun _ => rfl, fun _ h => h, ?_, fun _ h => Or.inl h⟩
      intro fd' i hi
      simp only [processTask, Function.update_apply] at hi
      split at hi
      · simp at hi
      · exact hi
  | addConn outcome =>
      refine ⟨fun _ => rfl, fun _ h => h, fun _ _ h => h, ?_⟩
      intro i hi
      obtain ⟨conn, hconn, hmem⟩ := queued_iff.mp hi
      obtain hconn | hconn := List.mem_append.mp hconn
      · exact Or.inl (queued_iff.mpr ⟨conn, hconn, hmem⟩)
      · rw [List.mem_singleton.mp hconn] at hmem
        simp at hmem

/-- A batch takes references away, and erases only what a task of it names. -/
theorem shrinks_processMsg (s : State) : Shrinks s s.processMsg ∧ ∀ i ∈ s.processMsg.erased,
    i ∈ s.erased ∨ ∃ fd, .delSession fd ∈ s.taskQueue ∧ s.fdToSession fd = some i := by
  refine processMsg_induction (P := fun t => Shrinks s t ∧ ∀ i ∈ t.erased,
    i ∈ s.erased ∨ ∃ fd, .delSession fd ∈ s.taskQueue ∧ s.fdToSession fd = some i) ?_ ?_
  · exact ⟨⟨fun _ => rfl, fun _ h => h, fun _ _ h => h, fun _ h => Or.inl h⟩, fun _ h => Or.inl h⟩
  · rintro t x hx ⟨hshrinks, herased⟩
    refine ⟨hshrinks.trans (shrinks_processTask x), ?_⟩
    cases x with
    | addConn outcome => exact herased
    | delSession fd =>
        intro i hi
        obtain hi | hi := List.mem_append.mp hi
        · exact herased i hi
        · exact Or.inr ⟨fd, hx, hshrinks.entry fd i (Option.mem_toList.mp hi)⟩

theorem processMsg_taskQueue (s : State) : s.processMsg.taskQueue = [] := by
  refine processMsg_induction (P := fun t => t.taskQueue = []) rfl ?_
  intro t x _ ht
  cases x <;> exact ht

end State

theorem Owned.event (h : Owned s) {sess : TcpSession} (active : s.active i = some sess) :
    Owned (s.handleEvent i sess) := by
  refine h.of_shrinks (State.shrinks_handleEvent active) ?_ fun j hj => Or.inl hj
  intro fd htask
  obtain htask | htask := List.mem_append.mp htask
  · exact Or.inl htask
  · -- the new removal names the descriptor of the session that asks for it
    obtain rfl := Task.delSession.inj (List.mem_singleton.mp htask)
    obtain ⟨hsess, hbev, halive⟩ := State.active_eq_some.mp active
    have howns : s.owns sess.fd i = true :=
      State.owns_iff.mpr ⟨State.ident_eq_some.mpr ⟨sess, hsess, rfl, hbev⟩, halive⟩
    apply Or.inr
    intro j hj
    obtain rfl := h.holder _ _ _ howns hj
    have hlt := (List.getElem?_eq_some_iff.mp hsess).1
    simp [State.closing, State.handleEvent, hlt]

theorem Owned.processMsg (h : Owned s) : Owned s.processMsg := by
  obtain ⟨hshrinks, herased⟩ := s.shrinks_processMsg
  refine h.of_shrinks hshrinks ?_ ?_
  · intro fd htask
    simp [State.processMsg_taskQueue] at htask
  · intro i hi
    apply (herased i hi).imp id
    rintro ⟨fd, htask, hentry⟩
    exact h.pending fd i htask hentry

/-! ## Accepting a descriptor -/

namespace State

variable {bev : Bool} {gen : UInt32}

theorem getElem?_concat_of_ne {α : Type} {l : List α} {i : Nat} (x : α) (h : i ≠ l.length) :
    (l ++ [x])[i]? = l[i]? := by
  obtain hlt | hgt := Nat.lt_or_gt_of_ne h
  · exact List.getElem?_append_left hlt
  · have hlen : (l ++ [x]).length ≤ i := by
      rw [List.length_append, List.length_singleton]
      omega
    rw [List.getElem?_eq_none hlen, List.getElem?_eq_none (Nat.le_of_lt hgt)]

theorem ident_accept_new : (s.accept fd bev gen).ident s.sessions.length = some (fd, bev) := by
  simp [ident, accept]

theorem ident_accept_old (h : i ≠ s.sessions.length) :
    (s.accept fd bev gen).ident i = s.ident i := by
  simp only [ident, accept, getElem?_concat_of_ne _ h]

theorem closing_accept (h : s.closing i = true) : (s.accept fd bev gen).closing i = true := by
  have hne : i ≠ s.sessions.length := by
    rintro rfl
    simp [closing] at h
  simp only [closing, accept, getElem?_concat_of_ne _ hne] at h ⊢
  exact h

/-- The new session owns its descriptor; nobody else's ownership changes. -/
theorem owns_accept {fd' : Nat} (closed : s.isOpen fd = false)
    (h : (s.accept fd bev gen).owns fd' i = true) :
    (i = s.sessions.length ∧ fd' = fd) ∨ (fd' ≠ fd ∧ s.owns fd' i = true) := by
  obtain ⟨hident, halive⟩ := owns_iff.mp h
  by_cases hi : i = s.sessions.length
  · subst hi
    rw [ident_accept_new] at hident
    exact Or.inl ⟨rfl, by simpa [eq_comm] using (Prod.mk.inj (Option.some.inj hident)).1⟩
  · rw [ident_accept_old hi] at hident
    have howns : s.owns fd' i = true := by
      refine owns_iff.mpr ⟨hident, ?_⟩
      obtain ⟨p, hp, hrefs⟩ := alive_iff.mp halive
      rw [ident_accept_old hi] at hp
      refine alive_iff.mpr ⟨p, hp, hrefs.imp ?_ id⟩
      intro hentry
      simp only [accept, Function.update_apply] at hentry
      split at hentry
      · exact absurd (Option.some.inj hentry).symm hi
      · exact hentry
    refine Or.inr ⟨?_, howns⟩
    rintro rfl
    rw [owns_of_isOpen_false closed] at howns
    simp at howns

end State

theorem Owned.accept (h : Owned s) {bev : Bool} {gen : UInt32} (closed : s.isOpen fd = false)
    (hfresh : .delSession fd ∉ s.taskQueue) : Owned (s.accept fd bev gen) where
  holder fd' i j hi hj := by
    obtain ⟨rfl, rfl⟩ | ⟨hne, hi⟩ := State.owns_accept closed hi
    · simpa [State.accept, eq_comm] using hj
    · simp only [State.accept, Function.update_of_ne hne] at hj
      exact h.holder fd' i j hi hj
  pending fd' i htask hentry := by
    simp only [State.accept, Function.update_apply] at hentry
    split at hentry
    · rename_i heq
      exact absurd (heq ▸ htask) hfresh
    · exact State.closing_accept (h.pending fd' i htask hentry)
  erased i hi := State.closing_accept (h.erased i hi)

theorem Step.owned (hs : Owned s) (hfresh : Fresh s a) (h : Step s a t) : Owned t := by
  cases h with
  | accept bev gen closed => exact hs.accept closed hfresh
  | event active => exact hs.event active
  | dispatch write active =>
      refine hs.of_shrinks (State.shrinks_dispatch write active) ?_ ?_
      · intro fd htask
        exact Or.inl (by simpa using htask)
      · intro i hi
        exact Or.inl (by simpa using hi)
  | reply write found answers front =>
      exact hs.of_shrinks (State.shrinks_reply write found) (fun _ h => Or.inl h)
        fun _ h => Or.inl h
  | batch => exact hs.processMsg
  | post outcome =>
      refine hs.of_shrinks (State.shrinks_refl _ rfl rfl rfl) ?_ fun _ h => Or.inl h
      intro fd htask
      obtain htask | htask := List.mem_append.mp htask
      · exact Or.inl htask
      · simp at htask
  | clientEvent e found live =>
      exact hs.of_shrinks (State.shrinks_set_conn _ found fun i hi => Or.inl (by simpa using hi))
        (fun _ h => Or.inl h) fun _ h => Or.inl h
  | connect outcome found =>
      exact hs.of_shrinks (State.shrinks_set_conn _ found fun i hi => Or.inl (by simpa using hi))
        (fun _ h => Or.inl h) fun _ h => Or.inl h
  | reconnect outcome found =>
      exact hs.of_shrinks (State.shrinks_set_conn _ found fun i hi => Or.inl (by simpa using hi))
        (fun _ h => Or.inl h) fun _ h => Or.inl h
  | disConnect found =>
      exact hs.of_shrinks (State.shrinks_set_conn _ found fun i hi => Or.inl (by simpa using hi))
        (fun _ h => Or.inl h) fun _ h => Or.inl h

theorem owned_start (clients : List TcpClient) : Owned (start clients) where
  holder fd i j h := by simp [State.owns, start] at h
  pending fd i h := by simp [start] at h
  erased i h := by simp [start] at h

/-- Every session that has been erased has asked for it. -/
def ErasedClosing (s : State) : Prop := ∀ i ∈ s.erased, s.closing i = true

/-- Session 0 asks twice for the removal of descriptor 5, once before and once
after it has been erased. Its last reply closes the descriptor, which is
accepted again, and the second removal hits session 1. -/
theorem stale_removal_erases :
    ∃ run, Steps Step (start [idle]) run ∧ (final (start [idle]) run).erased = [0, 1] ∧
      (final (start [idle]) run).closing 1 = false ∧ ¬ Along ErasedClosing (start [idle]) run := by
  have hreach : ∃ t, Reaches Step (start [idle]) t ∧ t.erased = [0, 1] ∧ t.closing 1 = false :=
    ⟨_, .cons (a := Action.accept 5 true 0) (.accept true 0 rfl) <|
      .cons (a := Action.dispatch 0 fun _ => true) (.dispatch _ rfl) <|
      .cons (a := Action.event 0) (.event rfl) <|
      .cons (a := Action.batch) .batch <|
      .cons (a := Action.event 0) (.event rfl) <|
      .cons (a := Action.reply 0 true) (.reply true rfl rfl rfl) <|
      .cons (a := Action.accept 5 true 0) (.accept true 0 rfl) <|
      .cons (a := Action.batch) .batch .nil, rfl, rfl⟩
  obtain ⟨t, ⟨run, hsteps, rfl⟩, herased, hclosing⟩ := hreach
  refine ⟨run, hsteps, herased, hclosing, fun h => ?_⟩
  have hone := h.final 1 (by simp [herased])
  simp [hclosing] at hone

/-- As long as no descriptor is accepted while a removal of it is waiting, only
sessions on which `handleEvent` has run are erased. -/
theorem erasedClosing_along (clients : List TcpClient) (run : List (Action × State))
    (h : Steps Step (start clients) run)
    (hfresh : Steps (fun s a _ => Fresh s a) (start clients) run) :
    Along ErasedClosing (start clients) run :=
  ((h.and hfresh).along (owned_start clients) fun _ _ _ hs hstep => hstep.1.owned hs hstep.2).mono
    fun _ hs => hs.erased

theorem erasedClosing_after_batch :
    ∃ t, Reaches Step (start [idle]) t ∧ t.erased = [0] ∧ ErasedClosing t := by
  have hreach : ∃ t, Reaches (fun s a t => Step s a t ∧ Fresh s a) (start [idle]) t ∧
      t.erased = [0] :=
    ⟨_, .cons (a := Action.accept 5 true 0) ⟨.accept true 0 rfl, List.not_mem_nil⟩ <|
      .cons (a := Action.event 0) ⟨.event rfl, trivial⟩ <|
      .cons (a := Action.accept 6 true 0)
        ⟨.accept true 0 rfl, (by decide : Task.delSession 6 ∉ [Task.delSession 5])⟩ <|
      .cons (a := Action.batch) ⟨.batch, trivial⟩ <|
      .cons (a := Action.accept 5 true 0) ⟨.accept true 0 rfl, List.not_mem_nil⟩ .nil, rfl⟩
  obtain ⟨t, ⟨run, hsteps, rfl⟩, herased⟩ := hreach
  have hrun := hsteps.mono fun _ _ _ h => h.1
  exact ⟨_, ⟨run, hrun, rfl⟩, herased,
    (erasedClosing_along [idle] run hrun (hsteps.mono fun _ _ _ h => h.2)).final⟩

end Canal.LoopThread
