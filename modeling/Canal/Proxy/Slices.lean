import Canal.LoopThread.Lifetime
import Canal.Proxy.Basic

/-!
# The slices of a read event

A read event is a run of the loop thread that `LoopThread` describes, one dispatch or
delivery for each slice. Each of them leaves whole slices in the buffers: a connection
has been sent those of the requests that it has answered and that wait on it, whichever
sessions they are from, and a client those of the replies that have been written to it.
-/

namespace Canal.Proxy

open Buffer RespParser Reading LoopThread Trace

variable {s t : State} {i j : SessionId} {sess : TcpSession} {c : Nat} {conn : Connection}
  {slice : List Byte} {slices : List (List Byte)} {r : Request}

namespace State

/-- The slice that has been forwarded as the request. -/
def content (s : State) (r : Request) : List Byte := ((s.requests r.session)[r.number]?).getD []

/-- What has been written to the bufferevent of a connection, request by request: those
that have been answered there, and those that wait. -/
def sent (s : State) (c : Nat) (conn : Connection) : List Request :=
  (s.answers c).map Prod.fst ++ conn.outstanding

/-- Which requests have been answered with which slices, by whatever connection. -/
def exchanges (s : State) : List (Request × List Byte) :=
  (s.deliveries.map Delivery.request).zip s.texts

/-- The slices that have been written to a client. -/
def repliesTo (s : State) (i : SessionId) : List (List Byte) :=
  ((s.deliveries.zip s.texts).filter fun p => p.1.receiver = some i).map Prod.snd

end State

/-- The bytes written to the bufferevent of a connection are those of its requests. -/
structure Sent (s : State) (c : Nat) (conn : Connection) : Prop where
  made : ∀ r ∈ s.sent c conn, r.number < (s.requests r.session).length
  outbox : s.outbox c = (s.sent c conn).flatMap s.content

/-- The bytes in the buffers are whole slices, and none of them has been made up. -/
structure Whole (s : State) : Prop where
  inOrder : ∀ i, (s.requests i).Sublist (s.cut i)
  numbered : ∀ i, s.forwarded i = (s.requests i).length
  outbox : ∀ c conn, s.connections[c]? = some conn → Sent s c conn
  unused : ∀ c, s.connections.length ≤ c → s.outbox c = [] ∧ s.answers c = []
  answered : ∀ c, (s.answers c).Sublist s.exchanges
  recorded : s.texts.length = s.deliveries.length
  written : ∀ i, s.written i = (s.repliesTo i).flatten
  shaped : ∀ i, ∀ slice ∈ s.cut i, MessageShaped slice
  replies : ∀ slice ∈ s.texts, MessageShaped slice

/-! ## The slices of a read event -/

/-- The slices of a read event are what it takes off the input buffer. -/
theorem onRead_split {input : List Byte} {past : Memory} {r : ReadResult} (hquiet : Quiet past)
    (h : onRead input past = .ok r) :
    r.slices.flatten ++ r.input = input ∧ ∀ slice ∈ r.slices, MessageShaped slice := by
  rw [onRead_eq hquiet] at h
  obtain rfl := Except.ok.inj h
  exact ⟨List.prefix_iff_eq_append.mp (prefix_scan_front input),
    fun slice => messageShaped_of_mem_scan⟩

/-! ## What has been sent -/

theorem content_of_prefix (hext : ∀ j, s.requests j <+: t.requests j)
    (hr : r.number < (s.requests r.session).length) : t.content r = s.content r := by
  obtain ⟨rest, hrest⟩ := hext r.session
  rw [State.content, State.content, ← hrest, List.getElem?_append_left hr]

theorem made_of_prefix (hext : ∀ j, s.requests j <+: t.requests j)
    (hr : r.number < (s.requests r.session).length) : r.number < (t.requests r.session).length :=
  hr.trans_le (hext r.session).length_le

theorem flatMap_content_of_prefix (hext : ∀ j, s.requests j <+: t.requests j) {rs : List Request}
    (hrs : ∀ r ∈ rs, r.number < (s.requests r.session).length) :
    rs.flatMap t.content = rs.flatMap s.content := by
  rw [List.flatMap_def, List.flatMap_def]
  exact congrArg _ (List.map_congr_left fun r hr => content_of_prefix hext (hrs r hr))

theorem Sent.stays {conn' : Connection} (h : Sent s c conn)
    (hext : ∀ j, s.requests j <+: t.requests j) (houtbox : t.outbox c = s.outbox c)
    (hsent : t.sent c conn' = s.sent c conn) : Sent t c conn' := by
  refine ⟨?_, ?_⟩
  · rw [hsent]
    exact fun r hr => made_of_prefix hext (h.made r hr)
  · rw [hsent, houtbox, h.outbox, flatMap_content_of_prefix hext h.made]

/-- A request is sent behind the others. -/
theorem Sent.push (h : Sent s c conn) (hext : ∀ j, s.requests j <+: t.requests j)
    (hr : r.number < (t.requests r.session).length)
    (houtbox : t.outbox c = s.outbox c ++ t.content r) (hanswers : t.answers c = s.answers c) :
    Sent t c (conn.push r) := by
  have hsent : t.sent c (conn.push r) = s.sent c conn ++ [r] := by
    rw [State.sent, State.sent, hanswers, Connection.push, List.append_assoc]
  refine ⟨fun r' hr' => ?_, ?_⟩
  · rw [hsent, List.mem_append, List.mem_singleton] at hr'
    obtain hr' | rfl := hr'
    · exact made_of_prefix hext (h.made r' hr')
    · exact hr
  · rw [hsent, List.flatMap_append, houtbox, h.outbox, flatMap_content_of_prefix hext h.made,
      List.flatMap_singleton]

theorem sent_eq {conn' : Connection} (hanswers : t.answers c = s.answers c)
    (houtstanding : conn'.outstanding = conn.outstanding) : t.sent c conn' = s.sent c conn := by
  rw [State.sent, State.sent, hanswers, houtstanding]

/-- The request in front has been answered. -/
theorem sent_pop {rs : List Request} (houtstanding : conn.outstanding = r :: rs)
    (hanswers : t.answers c = s.answers c ++ [(r, slice)]) :
    t.sent c conn.pop = s.sent c conn := by
  simp [State.sent, Connection.pop, hanswers, houtstanding]

/-- Nothing has been sent on a new bufferevent. -/
theorem sent_nil (houtstanding : conn.outstanding = []) (houtbox : s.outbox c = [])
    (hanswers : s.answers c = []) : Sent s c conn := by
  have hsent : s.sent c conn = [] := by
    rw [State.sent, hanswers, houtstanding]
    rfl
  exact ⟨by simp [hsent], by simp [hsent, houtbox]⟩

/-! ## One slice of a session -/

/-- What `dispatch` does, and which connection takes the slice. -/
theorem dispatch_taker {s : LoopThread.State} (write : Nat → Bool)
    (h : s.sessions[i]? = some sess) :
    ∃ gen, (taker s sess write = none ∧ s.dispatch i sess write =
        { s with sessions := s.sessions.set i { sess with sIdGenerater := gen } }) ∨
      ∃ c conn, taker s sess write = some c ∧ s.connections[c]? = some conn ∧
        s.dispatch i sess write =
          { s with
            sessions := s.sessions.set i { sess with sIdGenerater := gen }
            connections := s.connections.set c (conn.push ⟨i, s.forwarded i⟩)
            forwarded := Function.update s.forwarded i (s.forwarded i + 1) } := by
  by_cases hconns : s.connections = []
  · refine ⟨sess.sIdGenerater, Or.inl ⟨by simp [taker, hconns], ?_⟩⟩
    have hset : s.sessions.set i sess = s.sessions := by
      obtain ⟨hlt, rfl⟩ := List.getElem?_eq_some_iff.mp h
      exact List.set_getElem_self hlt
    rw [LoopThread.State.dispatch, if_pos hconns, hset]
  · rcases htry : tryConnections s.connections write (attempts s.connections.length)
      sess.sIdGenerater with ⟨_ | ⟨c, conn⟩, gen⟩
    · exact ⟨gen, Or.inl ⟨by simp [taker, hconns, htry],
        by simp [LoopThread.State.dispatch, hconns, htry]⟩⟩
    · obtain ⟨hget, -⟩ := tryConnections_some htry
      exact ⟨gen, Or.inr ⟨c, conn, by simp [taker, hconns, htry], hget,
        by simp [LoopThread.State.dispatch, hconns, htry]⟩⟩

theorem active_stays {s t : LoopThread.State} {sess' : TcpSession} (h : s.active i = some sess)
    (hsess : t.sessions[i]? = some sess') (hfd : sess'.fd = sess.fd) (hbev : sess'.bev = sess.bev)
    (hmap : t.fdToSession = s.fdToSession) (hqueued : s.queued i = true → t.queued i = true) :
    t.active i = some sess' := by
  obtain ⟨hsess₀, hbev₀, halive⟩ := State.active_eq_some.mp h
  refine State.active_eq_some.mpr ⟨hsess, hbev.trans hbev₀, ?_⟩
  simp only [State.alive, hsess₀, Bool.or_eq_true, decide_eq_true_eq] at halive
  simp only [State.alive, hsess, hfd, hmap, Bool.or_eq_true, decide_eq_true_eq]
  exact halive.imp_right hqueued

/-- A session that has dispatched a slice can dispatch another one. -/
theorem active_dispatch {s : LoopThread.State} (write : Nat → Bool)
    (h : s.active i = some sess) : ∃ sess', (s.dispatch i sess write).active i = some sess' := by
  obtain ⟨hsess, -⟩ := State.active_eq_some.mp h
  obtain ⟨hlt, -⟩ := List.getElem?_eq_some_iff.mp hsess
  obtain ⟨gen, ⟨-, heq⟩ | ⟨c, conn, -, found, heq⟩⟩ := dispatch_taker write hsess
  · rw [heq]
    exact ⟨_, active_stays h (List.getElem?_set_self hlt) rfl rfl rfl id⟩
  · rw [heq]
    refine ⟨_, active_stays h (List.getElem?_set_self hlt) rfl rfl rfl fun hqueued => ?_⟩
    obtain ⟨x, hx, hmem⟩ := State.queued_iff.mp hqueued
    obtain ⟨k, hk⟩ := List.getElem?_of_mem hx
    apply State.queued_iff.mpr
    by_cases hkc : c = k
    · subst hkc
      obtain rfl := Option.some.inj (hk.symm.trans found)
      exact ⟨_, List.mem_set (List.getElem?_eq_some_iff.mp found).1 _, List.mem_append_left _ hmem⟩
    · have hstays : (s.connections.set c (conn.push ⟨i, s.forwarded i⟩))[k]? = some x := by
        rw [List.getElem?_set_ne hkc, hk]
      exact ⟨x, List.mem_of_getElem? hstays, hmem⟩

theorem prefix_update (f : SessionId → List (List Byte)) (i : SessionId) (slice : List Byte)
    (j : SessionId) : f j <+: Function.update f i (f i ++ [slice]) j := by
  by_cases hj : j = i
  · subst hj
    rw [Function.update_self]
    exact List.prefix_append _ _
  · exact ⟨[], by rw [List.append_nil, Function.update_of_ne hj]⟩

theorem sublist_update {f g : SessionId → List (List Byte)} (h : ∀ j, (f j).Sublist (g j))
    (i : SessionId) (slice : List Byte) (j : SessionId) :
    (f j).Sublist (Function.update g i (g i ++ [slice]) j) :=
  (h j).trans (prefix_update g i slice j).sublist

theorem shaped_update {f : SessionId → List (List Byte)}
    (h : ∀ j, ∀ slice ∈ f j, MessageShaped slice) (hslice : MessageShaped slice) (i j : SessionId) :
    ∀ x ∈ Function.update f i (f i ++ [slice]) j, MessageShaped x := by
  by_cases hj : j = i
  · subst hj
    rw [Function.update_self]
    intro x hx
    obtain hx | hx := List.mem_append.mp hx
    · exact h j x hx
    · rwa [List.mem_singleton.mp hx]
  · rw [Function.update_of_ne hj]
    exact h j

/-- A slice that nobody takes. -/
theorem Whole.drop {sessions : List TcpSession} (hs : Whole s) (hslice : MessageShaped slice) :
    Whole { s with
      toState := { s.toState with sessions }
      cut := Function.update s.cut i (s.cut i ++ [slice]) } where
  inOrder := sublist_update hs.inOrder i slice
  numbered := hs.numbered
  outbox c conn found := (hs.outbox c conn found).stays (fun _ => List.prefix_rfl) rfl rfl
  unused := hs.unused
  answered := hs.answered
  recorded := hs.recorded
  written := hs.written
  shaped := shaped_update hs.shaped hslice i
  replies := hs.replies

/-- A slice that a connection takes. -/
theorem Whole.take {sessions : List TcpSession} (hs : Whole s) (hslice : MessageShaped slice)
    (found : s.connections[c]? = some conn) :
    Whole { s with
      toState := { s.toState with
        sessions
        connections := s.connections.set c (conn.push ⟨i, s.forwarded i⟩)
        forwarded := Function.update s.forwarded i (s.forwarded i + 1) }
      cut := Function.update s.cut i (s.cut i ++ [slice])
      outbox := Function.update s.outbox c (s.outbox c ++ slice)
      requests := Function.update s.requests i (s.requests i ++ [slice]) } where
  inOrder j := by
    by_cases hj : j = i
    · subst hj
      simp only [Function.update_self]
      exact (hs.inOrder j).append (List.Sublist.refl _)
    · simp only [Function.update_of_ne hj]
      exact hs.inOrder j
  numbered j := by
    by_cases hj : j = i
    · subst hj
      simp [hs.numbered j]
    · simp [Function.update_of_ne hj, hs.numbered j]
  outbox c' conn' found' := by
    by_cases hc : c' = c
    · subst hc
      obtain ⟨hlt, -⟩ := List.getElem?_eq_some_iff.mp found
      obtain rfl := Option.some.inj ((List.getElem?_set_self hlt).symm.trans found')
      refine (hs.outbox c' conn found).push (prefix_update s.requests i slice) ?_ ?_ rfl
      · simp [hs.numbered i]
      · simp [State.content, hs.numbered i]
    · have hbefore : s.connections[c']? = some conn' := by
        rwa [← List.getElem?_set_ne (Ne.symm hc)]
      refine (hs.outbox c' conn' hbefore).stays (prefix_update s.requests i slice) ?_ rfl
      exact Function.update_of_ne hc _ _
  unused c' hc' := by
    obtain ⟨hlt, -⟩ := List.getElem?_eq_some_iff.mp found
    rw [List.length_set] at hc'
    have hne : c' ≠ c := by omega
    obtain ⟨houtbox, hanswers⟩ := hs.unused c' hc'
    exact ⟨(Function.update_of_ne hne _ _).trans houtbox, hanswers⟩
  answered := hs.answered
  recorded := hs.recorded
  written := hs.written
  shaped := shaped_update hs.shaped hslice i
  replies := hs.replies

/-- What the slices of a read event of a session do. -/
structure Dispatched (i : SessionId) (slices : List (List Byte)) (s t : State) : Prop where
  reaches : Reaches LifeStep s.toState t.toState
  whole : Whole t
  cut : t.cut = Function.update s.cut i (s.cut i ++ slices)
  sessionInput : t.sessionInput = s.sessionInput
  received : t.received = s.received
  connectionInput : t.connectionInput = s.connectionInput
  heard : t.heard = s.heard
  answers : t.answers = s.answers

theorem dispatchSlice_dispatched (hs : Whole s) (hactive : s.active i = some sess)
    (hslice : MessageShaped slice) (write : Nat → Bool) :
    Dispatched i [slice] s (s.dispatchSlice i sess slice write) := by
  obtain ⟨hsess, -⟩ := State.active_eq_some.mp hactive
  have hstep : LifeStep s.toState (.dispatch i write) (s.toState.dispatch i sess write) :=
    ⟨.dispatch write hactive, rfl⟩
  obtain ⟨gen, ⟨hnone, heq⟩ | ⟨c, conn, hsome, found, heq⟩⟩ := dispatch_taker write hsess
  · rw [State.dispatchSlice, hnone]
    refine ⟨.cons hstep .nil, ?_, rfl, rfl, rfl, rfl, rfl, rfl⟩
    rw [heq]
    exact hs.drop hslice
  · rw [State.dispatchSlice, hsome]
    refine ⟨.cons hstep .nil, ?_, rfl, rfl, rfl, rfl, rfl, rfl⟩
    rw [heq]
    exact hs.take hslice found

theorem dispatchAll_dispatched (hs : Whole s) (hactive : s.active i = some sess)
    (hslices : ∀ slice ∈ slices, MessageShaped slice) (writes : Nat → Nat → Bool) :
    Dispatched i slices s (s.dispatchAll i slices writes) := by
  induction slices generalizing s sess writes with
  | nil => exact ⟨.nil, hs, by simp [State.dispatchAll], rfl, rfl, rfl, rfl, rfl⟩
  | cons slice slices ih =>
      obtain ⟨hsess, -⟩ := State.active_eq_some.mp hactive
      have hfirst := dispatchSlice_dispatched hs hactive (hslices _ List.mem_cons_self) (writes 0)
      obtain ⟨sess', hactive'⟩ := active_dispatch (writes 0) hactive
      have hstate : (s.dispatchSlice i sess slice (writes 0)).toState =
          s.toState.dispatch i sess (writes 0) := by
        rw [State.dispatchSlice]
        split <;> rfl
      have hrest := ih hfirst.whole (hstate ▸ hactive')
        (fun x hx => hslices x (List.mem_cons_of_mem _ hx)) fun k => writes (k + 1)
      have hall : s.dispatchAll i (slice :: slices) writes =
          (s.dispatchSlice i sess slice (writes 0)).dispatchAll i slices
            fun k => writes (k + 1) := by
        rw [State.dispatchAll, hsess]
      rw [hall]
      refine ⟨hfirst.reaches.trans hrest.reaches, hrest.whole, ?_, ?_, ?_, ?_, ?_, ?_⟩
      · rw [hrest.cut, hfirst.cut, Function.update_idem, Function.update_self, List.append_assoc]
        rfl
      · rw [hrest.sessionInput, hfirst.sessionInput]
      · rw [hrest.received, hfirst.received]
      · rw [hrest.connectionInput, hfirst.connectionInput]
      · rw [hrest.heard, hfirst.heard]
      · rw [hrest.answers, hfirst.answers]

/-! ## One slice of a connection -/

/-- The slice is written to the session in front of the queue, or to nobody. -/
theorem repliesTo_deliverSlice (hs : s.texts.length = s.deliveries.length) (write : Bool)
    (j : SessionId) :
    (s.deliverSlice c conn r i slice write).repliesTo j = s.repliesTo j ++
      if (s.sessions[i]?).any (·.send write) = true ∧ i = j then [slice] else [] := by
  have hzip : (s.deliverSlice c conn r i slice write).deliveries.zip
      (s.deliverSlice c conn r i slice write).texts = s.deliveries.zip s.texts ++
        [({ request := r
            closing := s.closing r.session
            receiver := if (s.sessions[i]?).any (·.send write) then some i else none }, slice)] :=
    List.zip_append hs.symm
  rw [State.repliesTo, hzip, List.filter_append, List.map_append, State.repliesTo]
  congr 1
  by_cases hsends : (s.sessions[i]?).any (·.send write) = true
  · by_cases hij : i = j
    · subst hij
      simp [hsends]
    · simp [hsends, hij]
  · simp [hsends]

theorem exchanges_deliverSlice (hs : s.texts.length = s.deliveries.length) (write : Bool) :
    (s.deliverSlice c conn r i slice write).exchanges = s.exchanges ++ [(r, slice)] := by
  have hlength : (s.deliveries.map Delivery.request).length = s.texts.length := by
    rw [List.length_map, hs]
  simp only [State.exchanges, State.deliverSlice, LoopThread.State.reply, List.map_append]
  exact List.zip_append hlength

theorem Whole.deliver {rs : List Request} (hs : Whole s) (hslice : MessageShaped slice)
    (found : s.connections[c]? = some conn) (houtstanding : conn.outstanding = r :: rs)
    (write : Bool) : Whole (s.deliverSlice c conn r i slice write) where
  inOrder := hs.inOrder
  numbered := hs.numbered
  outbox c' conn' found' := by
    by_cases hc : c' = c
    · subst hc
      obtain ⟨hlt, -⟩ := List.getElem?_eq_some_iff.mp found
      obtain rfl := Option.some.inj ((List.getElem?_set_self hlt).symm.trans found')
      refine (hs.outbox c' conn found).stays (fun _ => List.prefix_rfl) rfl ?_
      exact sent_pop houtstanding (Function.update_self ..)
    · have hbefore : s.connections[c']? = some conn' := by
        rwa [← List.getElem?_set_ne (Ne.symm hc)]
      refine (hs.outbox c' conn' hbefore).stays (fun _ => List.prefix_rfl) rfl ?_
      exact sent_eq (Function.update_of_ne hc _ _) rfl
  unused c' hc' := by
    obtain ⟨hlt, -⟩ := List.getElem?_eq_some_iff.mp found
    have hlength : s.connections.length ≤ c' := by
      rwa [← List.length_set (i := c) (a := conn.pop)]
    have hne : c' ≠ c := by omega
    obtain ⟨houtbox, hanswers⟩ := hs.unused c' hlength
    exact ⟨houtbox, (Function.update_of_ne hne _ _).trans hanswers⟩
  answered c' := by
    rw [exchanges_deliverSlice hs.recorded]
    by_cases hc : c' = c
    · subst hc
      rw [show State.answers _ c' = _ from Function.update_self ..]
      exact (hs.answered c').append (List.Sublist.refl _)
    · rw [show State.answers _ c' = _ from Function.update_of_ne hc _ _]
      exact (hs.answered c').trans (List.sublist_append_left _ _)
  recorded := by
    simp [State.deliverSlice, LoopThread.State.reply, hs.recorded]
  written j := by
    rw [repliesTo_deliverSlice hs.recorded, List.flatten_append, ← hs.written j]
    by_cases hsends : (s.sessions[i]?).any (·.send write) = true
    · by_cases hij : i = j
      · subst hij
        simp [State.deliverSlice, hsends]
      · simp [State.deliverSlice, hsends, hij, Function.update_of_ne (Ne.symm hij)]
    · simp [State.deliverSlice, hsends]
  shaped := hs.shaped
  replies slice' hslice' := by
    obtain hslice' | hslice' := List.mem_append.mp hslice'
    · exact hs.replies slice' hslice'
    · rwa [List.mem_singleton.mp hslice']

/-- What the slices of a read event of a connection do: they answer as many requests. -/
structure Delivered (c : Nat) (exchanges : List (Request × List Byte)) (s t : State) : Prop where
  reaches : Reaches LifeStep s.toState t.toState
  whole : Whole t
  answers : t.answers = Function.update s.answers c (s.answers c ++ exchanges)
  sessionInput : t.sessionInput = s.sessionInput
  received : t.received = s.received
  connectionInput : t.connectionInput = s.connectionInput
  heard : t.heard = s.heard
  cut : t.cut = s.cut

theorem deliverAll_delivered (hs : Whole s) (hstocked : Stocked s.toState)
    (found : s.connections[c]? = some conn) (hslices : ∀ slice ∈ slices, MessageShaped slice)
    (hsolicited : slices.length ≤ conn.outstanding.length) (writes : Nat → Bool) :
    Delivered c (conn.outstanding.zip slices) s (s.deliverAll c slices writes) := by
  induction slices generalizing s conn writes with
  | nil => exact ⟨.nil, hs, by simp [State.deliverAll], rfl, rfl, rfl, rfl, rfl⟩
  | cons slice slices ih =>
      obtain ⟨r, rs, houtstanding⟩ := List.exists_cons_of_length_pos
        (Nat.lt_of_lt_of_le (Nat.succ_pos _) hsolicited)
      obtain ⟨stale, hstale⟩ := hstocked.get found
      obtain ⟨i, q, hqueue⟩ : ∃ i q, conn.sessionQueue = i :: q := by
        apply List.exists_cons_of_ne_nil
        rw [← hstale, houtstanding]
        simp
      have hstep : LifeStep s.toState (.reply c (writes 0))
          (s.toState.reply c conn r i (writes 0)) := ⟨.reply _ found houtstanding hqueue, rfl⟩
      obtain ⟨hlt, -⟩ := List.getElem?_eq_some_iff.mp found
      have hrest := ih (s := s.deliverSlice c conn r i slice (writes 0))
        (hs.deliver (hslices _ List.mem_cons_self) found houtstanding _)
        (hstep.1.stocked hstocked) (List.getElem?_set_self hlt)
        (fun x hx => hslices x (List.mem_cons_of_mem _ hx))
        (by simpa [Connection.pop, houtstanding] using hsolicited) fun k => writes (k + 1)
      have hall : s.deliverAll c (slice :: slices) writes =
          (s.deliverSlice c conn r i slice (writes 0)).deliverAll c slices
            fun k => writes (k + 1) := by
        simp only [State.deliverAll, found, houtstanding, hqueue]
      rw [hall]
      refine ⟨.cons hstep hrest.reaches, hrest.whole, ?_, hrest.sessionInput, hrest.received,
        hrest.connectionInput, hrest.heard, hrest.cut⟩
      rw [hrest.answers]
      simp [State.deliverSlice, Connection.pop, houtstanding]

end Canal.Proxy
