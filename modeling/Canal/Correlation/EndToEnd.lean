import Canal.Correlation.Basic
import Canal.Correlation.Separate

/-!
# Every reply reaches the client it is due to

At the level of whole messages a command passes through three places: it is
pending until its session forwards it, asked until the backend answers it, and
its reply is answered until the connection delivers it. The queue of sessions is
the list of those who wait, first for the replies on the way and then for the
commands that the backend has yet to answer.

`Correlated` relates the bytes in the system to such a flow of messages. A read
event preserves it if its view separates the messages to come: then each slice is
one message, and each entry of the queue stands for one command.
-/

namespace Canal.Correlation

open Buffer RespParser Reading LoopThread Trace

/-- The messages in the system. `taken` are the replies that the connection has
taken off its stream and is about to deliver. -/
structure Flow where
  pending : SessionId → List Value := fun _ => []
  asked : List (SessionId × Value) := []
  answered : List (SessionId × Value) := []
  taken : List (SessionId × Value) := []

/-- The bytes of a command, with the session they come from. -/
def tagged (p : SessionId × Value) : List (SessionId × Byte) := p.2.encode.map fun c => (p.1, c)

/-- The bytes of the replies to one client. -/
def bytesTo (i : SessionId) (replies : List (SessionId × Value)) : List Byte :=
  encodeAll ((replies.filter fun p => p.1 = i).map Prod.snd)

/-- The bytes of one client are those of its messages in the flow. -/
structure Matches (f : Flow) (i : SessionId) (c : Client) : Prop where
  bev : c.session.bev = true
  isClosing : c.session.isClosing = false
  pending : c.input ++ c.wire = encodeAll (f.pending i)
  due : c.due = c.written ++ bytesTo i (f.taken ++ f.answered)

/-- The bytes in the system are those of the messages in the flow. -/
structure Correlated (s : State) (f : Flow) : Prop where
  ready : Ready s.conn.toTcpClient
  sound : s.fault = false
  client : ∀ i, Matches f i (s.client i)
  asked : s.inbox = f.asked.flatMap tagged
  answered : s.input ++ s.wire = encodeAll (f.answered.map Prod.snd)
  queue : s.conn.sessionQueue = (f.taken ++ f.answered ++ f.asked).map Prod.fst
  wellFormedPending : ∀ i, ∀ v ∈ f.pending i, v.WellFormed
  wellFormedAsked : ∀ p ∈ f.asked, p.2.WellFormed
  wellFormedAnswered : ∀ p ∈ f.answered, p.2.WellFormed

theorem Correlated.correct {s : State} {f : Flow} (h : Correlated s f) : Correct s where
  sound := h.sound
  inOrder := fun i => ⟨_, (h.client i).due.symm⟩

variable {s t : State} {a : Action} {f : Flow} {i j : SessionId} {v r : Value}
  {vs : List Value}

@[simp] theorem bytesTo_nil (i : SessionId) : bytesTo i [] = [] := by
  simp [bytesTo]

@[simp] theorem bytesTo_append (i : SessionId) (ps qs : List (SessionId × Value)) :
    bytesTo i (ps ++ qs) = bytesTo i ps ++ bytesTo i qs := by
  simp [bytesTo]

theorem bytesTo_cons_self (i : SessionId) (v : Value) (ps : List (SessionId × Value)) :
    bytesTo i ((i, v) :: ps) = v.encode ++ bytesTo i ps := by
  simp [bytesTo]

theorem bytesTo_cons_of_ne (h : j ≠ i) (v : Value) (ps : List (SessionId × Value)) :
    bytesTo i ((j, v) :: ps) = bytesTo i ps := by
  simp [bytesTo, h]

@[simp] theorem map_snd_tagged (p : SessionId × Value) : (tagged p).map Prod.snd = p.2.encode := by
  simp [tagged, Function.comp_def]

@[simp] theorem length_tagged (p : SessionId × Value) : (tagged p).length = p.2.encode.length := by
  simp [tagged]

/-! ## A read event -/

section ReadEvent

variable {input wire : List Byte} {n : Nat} {past : Memory} {r : ReadResult}

/-- The view of a read event is a part of the values to come. -/
theorem front_prefix_encodeAll (hstream : input ++ wire = encodeAll vs) (n : Nat) :
    front (input ++ wire.take n) <+: encodeAll vs := by
  refine (prefix_front _).trans ⟨wire.drop n, ?_⟩
  rw [List.append_assoc, List.take_append_drop, hstream]

/-- A read event hands over the next values, one slice each, exactly if its view
separates them. -/
theorem prefix_slices_iff (hquiet : Quiet past) (hvs : ∀ v ∈ vs, v.WellFormed)
    (hstream : input ++ wire = encodeAll vs) (hr : onRead (input ++ wire.take n) past = .ok r) :
    r.slices <+: vs.map Value.encode ↔ Separate vs (front (input ++ wire.take n)) := by
  rw [onRead_eq hquiet] at hr
  obtain rfl := Except.ok.inj hr
  exact prefix_scan_iff hvs (front_prefix_encodeAll hstream n)

/-- The values that such an event does not hand over are still to come. -/
theorem onRead_separate (hquiet : Quiet past) (hvs : ∀ v ∈ vs, v.WellFormed)
    (hstream : input ++ wire = encodeAll vs)
    (hsep : Separate vs (front (input ++ wire.take n)))
    (hr : onRead (input ++ wire.take n) past = .ok r) :
    ∃ done todo, vs = done ++ todo ∧ r.slices = done.map Value.encode ∧
      r.input ++ wire.drop n = encodeAll todo := by
  rw [onRead_eq hquiet] at hr
  obtain rfl := Except.ok.inj hr
  obtain ⟨done, todo, rfl, hdone⟩ := hsep.split hvs (front_prefix_encodeAll hstream n)
  refine ⟨done, todo, rfl, hdone, ?_⟩
  have hflatten : (scan (front (input ++ wire.take n))).slices.flatten = encodeAll done := by
    rw [hdone, encodeAll_eq_flatten]
  obtain ⟨left, hleft⟩ := prefix_scan_front (input ++ wire.take n)
  rw [hflatten] at hleft
  have hsplit : input ++ wire.take n ++ wire.drop n = encodeAll (done ++ todo) := by
    rw [List.append_assoc, List.take_append_drop, hstream]
  rw [← hleft, encodeAll_append, List.append_assoc, List.append_cancel_left_eq] at hsplit
  show (input ++ wire.take n).drop _ ++ wire.drop n = encodeAll todo
  rw [hflatten, ← hleft, List.drop_left' rfl, hsplit]

end ReadEvent

/-! ## Forwarding and delivering a slice -/

/-- The only connection is ready, so the slice goes there at once. -/
theorem dispatch_ready (hready : Ready s.conn.toTcpClient) (i : SessionId) (slice : List Byte) :
    ∃ gen, s.dispatch i slice =
      { s.modify i fun c => { c with session := { c.session with sIdGenerater := gen } } with
        conn := { s.conn with sessionQueue := s.conn.sessionQueue ++ [i] }
        inbox := s.inbox ++ slice.map fun c => (i, c) } := by
  have htry : tryConnections [s.conn] (fun _ => true) (attempts 1)
      (s.client i).session.sIdGenerater =
        (some ((s.client i).session.sIdGenerater.toNat % 1, s.conn),
          (s.client i).session.sIdGenerater + 1) :=
    tryConnections_first (by simp [Nat.mod_one]) hready fun _ => rfl
  refine ⟨(s.client i).session.sIdGenerater + 1, ?_⟩
  simp only [State.dispatch, htry]
  rfl

/-- A slice that is one command is forwarded. -/
theorem Correlated.dispatch (h : Correlated s f) (hv : v.WellFormed) :
    Correlated (s.dispatch i v.encode) { f with asked := f.asked ++ [(i, v)] } := by
  obtain ⟨gen, heq⟩ := dispatch_ready h.ready i v.encode
  rw [heq]
  exact
    { ready := h.ready
      sound := h.sound
      client := by
        refine (Function.forall_update_iff s.client (Matches _)).mpr ⟨?_, fun j _ => ?_⟩
        · exact ⟨(h.client i).bev, (h.client i).isClosing, (h.client i).pending, (h.client i).due⟩
        · exact ⟨(h.client j).bev, (h.client j).isClosing, (h.client j).pending, (h.client j).due⟩
      asked := by simp [h.asked, tagged]
      answered := h.answered
      queue := by simp [h.queue]
      wellFormedPending := h.wellFormedPending
      wellFormedAsked := by
        intro p hp
        obtain hp | hp := List.mem_append.mp hp
        · exact h.wellFormedAsked p hp
        · rw [List.mem_singleton.mp hp]
          exact hv
      wellFormedAnswered := h.wellFormedAnswered }

theorem Correlated.dispatchAll (h : Correlated s f) (hvs : ∀ v ∈ vs, v.WellFormed) :
    Correlated ((vs.map Value.encode).foldl (State.dispatch i) s)
      { f with asked := f.asked ++ vs.map fun v => (i, v) } := by
  induction vs generalizing s f with
  | nil => simpa using h
  | cons v vs ih =>
      have hnext := ih (h.dispatch (i := i) (hvs v (by simp))) fun w hw => hvs w (by simp [hw])
      simpa using hnext

/-- A slice that is the reply at the front is delivered to the session at the
front of the queue. -/
theorem Correlated.deliver {taken : List (SessionId × Value)}
    (h : Correlated s { f with taken := (i, r) :: taken }) :
    Correlated (s.deliver r.encode) { f with taken } := by
  have hqueue : s.conn.sessionQueue = i :: (taken ++ f.answered ++ f.asked).map Prod.fst := by
    simpa using h.queue
  have hsend : (s.client i).session.send true = true := by
    simp [TcpSession.send, (h.client i).bev, (h.client i).isClosing]
  have heq : s.deliver r.encode =
      { s.modify i fun c => { c with written := c.written ++ r.encode } with
        conn :=
          { s.conn with sessionQueue := (taken ++ f.answered ++ f.asked).map Prod.fst } } := by
    rw [State.deliver, hqueue]
    simp only [hsend, ↓reduceIte]
    rfl
  rw [heq]
  exact
    { ready := h.ready
      sound := h.sound
      client := by
        refine (Function.forall_update_iff s.client (Matches _)).mpr ⟨?_, fun j hj => ?_⟩
        · have hdue := (h.client i).due
          rw [List.cons_append, bytesTo_cons_self, ← List.append_assoc] at hdue
          exact ⟨(h.client i).bev, (h.client i).isClosing, (h.client i).pending, hdue⟩
        · have hdue := (h.client j).due
          rw [List.cons_append, bytesTo_cons_of_ne (Ne.symm hj)] at hdue
          exact ⟨(h.client j).bev, (h.client j).isClosing, (h.client j).pending, hdue⟩
      asked := h.asked
      answered := h.answered
      queue := rfl
      wellFormedPending := h.wellFormedPending
      wellFormedAsked := h.wellFormedAsked
      wellFormedAnswered := h.wellFormedAnswered }

theorem Correlated.deliverAll {taken : List (SessionId × Value)}
    (h : Correlated s { f with taken }) :
    Correlated ((taken.map fun p => p.2.encode).foldl State.deliver s) { f with taken := [] } := by
  induction taken generalizing s with
  | nil => exact h
  | cons p taken ih =>
      obtain ⟨i, r⟩ := p
      exact ih h.deliver

/-! ## The steps -/

/-- The view of a read event separates the values that are still to come. -/
def Clean (s : State) : Action → Prop
  | .read i n _ => ∃ vs, (∀ v ∈ vs, v.WellFormed) ∧
      (s.client i).input ++ (s.client i).wire = encodeAll vs ∧
      Separate vs (front ((s.client i).input ++ (s.client i).wire.take n))
  | .receive n _ => ∃ vs, (∀ v ∈ vs, v.WellFormed) ∧
      s.input ++ s.wire = encodeAll vs ∧ Separate vs (front (s.input ++ s.wire.take n))
  | _ => True

/-- The stream of one client changes, and the values that are pending with it. -/
theorem Correlated.modify (h : Correlated s f) {input wire : List Byte}
    (hvs : ∀ v ∈ vs, v.WellFormed) (hstream : input ++ wire = encodeAll vs) :
    Correlated (s.modify i fun c => { c with wire, input })
      { f with pending := Function.update f.pending i vs } where
  ready := h.ready
  sound := h.sound
  client := by
    refine (Function.forall_update_iff s.client (Matches _)).mpr ⟨?_, fun j hj => ?_⟩
    · exact ⟨(h.client i).bev, (h.client i).isClosing, by simpa using hstream, (h.client i).due⟩
    · have hpending := (h.client j).pending
      rw [← Function.update_of_ne hj vs f.pending] at hpending
      exact ⟨(h.client j).bev, (h.client j).isClosing, hpending, (h.client j).due⟩
  asked := h.asked
  answered := h.answered
  queue := h.queue
  wellFormedPending := by
    refine (Function.forall_update_iff f.pending fun _ ws => ∀ w ∈ ws, w.WellFormed).mpr ⟨hvs, ?_⟩
    intro j _
    exact h.wellFormedPending j
  wellFormedAsked := h.wellFormedAsked
  wellFormedAnswered := h.wellFormedAnswered

theorem Correlated.command (h : Correlated s f) (hv : v.WellFormed) :
    Correlated (s.modify i fun c => { c with wire := c.wire ++ v.encode })
      { f with pending := Function.update f.pending i (f.pending i ++ [v]) } := by
  have hvs : ∀ w ∈ f.pending i ++ [v], w.WellFormed := by
    intro w hw
    obtain hw | hw := List.mem_append.mp hw
    · exact h.wellFormedPending i w hw
    · rw [List.mem_singleton.mp hw]
      exact hv
  have hstream : (s.client i).input ++ ((s.client i).wire ++ v.encode) =
      encodeAll (f.pending i ++ [v]) := by
    rw [← List.append_assoc, (h.client i).pending]
    simp
  exact h.modify hvs hstream

/-- A clean read event of a session forwards some of its pending commands. -/
theorem Correlated.read (h : Correlated s f) {n : Nat} {past : Memory} {r : ReadResult}
    (hquiet : Quiet past) (hclean : Clean s (.read i n past))
    (hr : onRead ((s.client i).input ++ (s.client i).wire.take n) past = .ok r) :
    ∃ done todo, f.pending i = done ++ todo ∧
      Correlated (r.slices.foldl (State.dispatch i)
          (s.modify i fun c => { c with wire := c.wire.drop n, input := r.input }))
        { f with
          pending := Function.update f.pending i todo
          asked := f.asked ++ done.map fun v => (i, v) } := by
  obtain ⟨vs, hvs, hstream, hsep⟩ := hclean
  obtain rfl : vs = f.pending i :=
    encodeAll_injective hvs (h.wellFormedPending i) (hstream.symm.trans (h.client i).pending)
  obtain ⟨done, todo, hsplit, hslices, hleft⟩ := onRead_separate hquiet hvs hstream hsep hr
  rw [hsplit] at hvs
  refine ⟨done, todo, hsplit, ?_⟩
  rw [hslices]
  refine Correlated.dispatchAll (f := { f with pending := Function.update f.pending i todo }) ?_
    fun v hv => hvs v (by simp [hv])
  exact h.modify (fun v hv => hvs v (by simp [hv])) hleft

/-- The command at the front of the inbox is the first one asked. -/
theorem Correlated.asked_eq_cons (h : Correlated s f) {c : Byte} (hv : v.WellFormed)
    (hfront : v.encode <+: s.inbox.map Prod.snd) (howner : s.inbox.head? = some (i, c)) :
    ∃ asked, f.asked = (i, v) :: asked ∧ s.inbox.drop v.encode.length = asked.flatMap tagged := by
  have hinbox := h.asked
  cases hasked : f.asked with
  | nil =>
      rw [hasked] at hinbox
      simp [hinbox] at howner
  | cons p asked =>
      obtain ⟨j, w⟩ := p
      rw [hasked, List.flatMap_cons] at hinbox
      have hw : w.WellFormed := h.wellFormedAsked (j, w) (by simp [hasked])
      obtain ⟨rest, hrest⟩ := hfront
      rw [hinbox, List.map_append, map_snd_tagged] at hrest
      obtain ⟨rfl, -⟩ := encode_append_inj hv hw hrest
      have hij : j = i := by
        obtain ⟨c', t, ht⟩ := List.exists_cons_of_ne_nil (encode_ne_nil v)
        rw [hinbox, tagged, ht] at howner
        simp only [List.map_cons, List.cons_append, List.head?_cons, Option.some.injEq,
          Prod.mk.injEq] at howner
        exact howner.1
      subst hij
      exact ⟨asked, rfl, by rw [hinbox]; exact List.drop_left' (length_tagged _)⟩

/-- The backend answers the first of the commands asked. -/
theorem Correlated.answer (h : Correlated s f) (hf : f.taken = []) {c : Byte} (hv : v.WellFormed)
    (hr : r.WellFormed) (hfront : v.encode <+: s.inbox.map Prod.snd)
    (howner : s.inbox.head? = some (i, c)) :
    ∃ asked, f.asked = (i, v) :: asked ∧
      Correlated
        { s.modify i fun c => { c with due := c.due ++ r.encode } with
          inbox := s.inbox.drop v.encode.length
          wire := s.wire ++ r.encode }
        { f with asked, answered := f.answered ++ [(i, r)] } := by
  obtain ⟨asked, hasked, hinbox⟩ := h.asked_eq_cons hv hfront howner
  refine ⟨asked, hasked, ?_⟩
  exact
    { ready := h.ready
      sound := h.sound
      client := by
        refine (Function.forall_update_iff s.client (Matches _)).mpr ⟨?_, fun j hj => ?_⟩
        · refine ⟨(h.client i).bev, (h.client i).isClosing, (h.client i).pending, ?_⟩
          show (s.client i).due ++ r.encode = _
          rw [(h.client i).due]
          simp [bytesTo_cons_self]
        · refine ⟨(h.client j).bev, (h.client j).isClosing, (h.client j).pending, ?_⟩
          rw [(h.client j).due]
          simp [bytesTo_cons_of_ne (Ne.symm hj)]
      asked := hinbox
      answered := by
        show s.input ++ (s.wire ++ r.encode) = _
        rw [← List.append_assoc, h.answered]
        simp
      queue := by
        have hqueue := h.queue
        rw [hf, hasked] at hqueue
        show s.conn.sessionQueue = _
        simpa [hf] using hqueue
      wellFormedPending := h.wellFormedPending
      wellFormedAsked := fun p hp => h.wellFormedAsked p (by simp [hasked, hp])
      wellFormedAnswered := by
        intro p hp
        obtain hp | hp := List.mem_append.mp hp
        · exact h.wellFormedAnswered p hp
        · rw [List.mem_singleton.mp hp]
          exact hr }

theorem Correlated.wellFormed_replies (h : Correlated s f) :
    ∀ v ∈ f.answered.map Prod.snd, v.WellFormed := by
  intro v hv
  obtain ⟨p, hp, rfl⟩ := List.mem_map.mp hv
  exact h.wellFormedAnswered p hp

/-- A clean read event of the connection delivers some of the replies. -/
theorem Correlated.receive (h : Correlated s f) (hf : f.taken = []) {n : Nat} {past : Memory}
    {r : ReadResult} (hquiet : Quiet past) (hclean : Clean s (.receive n past))
    (hr : onRead (s.input ++ s.wire.take n) past = .ok r) :
    ∃ done todo, f.answered = done ++ todo ∧
      Correlated
        (r.slices.foldl State.deliver { s with wire := s.wire.drop n, input := r.input })
        { f with answered := todo } := by
  obtain ⟨vs, hvs, hstream, hsep⟩ := hclean
  obtain rfl : vs = f.answered.map Prod.snd :=
    encodeAll_injective hvs h.wellFormed_replies (hstream.symm.trans h.answered)
  obtain ⟨values, left, hsplit, hslices, hleft⟩ := onRead_separate hquiet hvs hstream hsep hr
  obtain ⟨done, todo, hdone, rfl, rfl⟩ := List.map_eq_append_iff.mp hsplit
  refine ⟨done, todo, hdone, ?_⟩
  have hslices' : r.slices = done.map fun p => p.2.encode := by
    rw [hslices, List.map_map]
    rfl
  have htaken : Correlated { s with wire := s.wire.drop n, input := r.input }
      { f with answered := todo, taken := done } :=
    { ready := h.ready
      sound := h.sound
      client := by
        intro j
        have hdue := (h.client j).due
        rw [hf, hdone, List.nil_append] at hdue
        exact ⟨(h.client j).bev, (h.client j).isClosing, (h.client j).pending, hdue⟩
      asked := h.asked
      answered := hleft
      queue := by
        have hqueue := h.queue
        rw [hf, hdone, List.nil_append] at hqueue
        exact hqueue
      wellFormedPending := h.wellFormedPending
      wellFormedAsked := h.wellFormedAsked
      wellFormedAnswered := fun p hp => h.wellFormedAnswered p (by simp [hdone, hp]) }
  have hdelivered := Correlated.deliverAll (f := { f with answered := todo }) htaken
  rw [hslices']
  obtain ⟨pending, asked, answered, taken⟩ := f
  obtain rfl : taken = [] := hf
  exact hdelivered

/-- An event is clean exactly if the session forwards the next commands, one by
one. -/
theorem Correlated.clean_read_iff (h : Correlated s f) {n : Nat} {past : Memory} {r : ReadResult}
    (hquiet : Quiet past)
    (hr : onRead ((s.client i).input ++ (s.client i).wire.take n) past = .ok r) :
    Clean s (.read i n past) ↔ r.slices <+: (f.pending i).map Value.encode := by
  rw [prefix_slices_iff hquiet (h.wellFormedPending i) (h.client i).pending hr]
  constructor
  · rintro ⟨vs, hvs, hstream, hsep⟩
    obtain rfl : vs = f.pending i :=
      encodeAll_injective hvs (h.wellFormedPending i) (hstream.symm.trans (h.client i).pending)
    exact hsep
  · intro hsep
    exact ⟨f.pending i, h.wellFormedPending i, (h.client i).pending, hsep⟩

/-- An event is clean exactly if the connection delivers the next replies, one by
one. -/
theorem Correlated.clean_receive_iff (h : Correlated s f) {n : Nat} {past : Memory}
    {r : ReadResult} (hquiet : Quiet past)
    (hr : onRead (s.input ++ s.wire.take n) past = .ok r) :
    Clean s (.receive n past) ↔ r.slices <+: (f.answered.map Prod.snd).map Value.encode := by
  rw [prefix_slices_iff hquiet h.wellFormed_replies h.answered hr]
  constructor
  · rintro ⟨vs, hvs, hstream, hsep⟩
    obtain rfl : vs = f.answered.map Prod.snd :=
      encodeAll_injective hvs h.wellFormed_replies (hstream.symm.trans h.answered)
    exact hsep
  · intro hsep
    exact ⟨_, h.wellFormed_replies, h.answered, hsep⟩

/-- The messages in the system match its bytes. -/
def Flowing (s : State) : Prop := ∃ f : Flow, Correlated s f ∧ f.taken = []

theorem Step.flowing (h : Step s a t) (hclean : Clean s a) (hs : Flowing s) : Flowing t := by
  obtain ⟨f, hs, hf⟩ := hs
  cases h with
  | command i hv => exact ⟨_, hs.command hv, hf⟩
  | read hquiet hparsed =>
      obtain ⟨done, todo, -, ht⟩ := hs.read hquiet hclean hparsed
      exact ⟨_, ht, hf⟩
  | answer hv hr hfront howner =>
      obtain ⟨asked, -, ht⟩ := hs.answer hf hv hr hfront howner
      exact ⟨_, ht, hf⟩
  | receive hquiet hparsed =>
      obtain ⟨done, todo, -, ht⟩ := hs.receive hf hquiet hclean hparsed
      exact ⟨_, ht, hf⟩

theorem start_flowing {session : SessionId → TcpSession} {backend : TcpClient}
    (hopen : ∀ i, (session i).bev = true ∧ (session i).isClosing = false)
    (hready : Ready backend) : Flowing (start session backend) := by
  refine ⟨{}, ?_, rfl⟩
  exact
    { ready := hready
      sound := rfl
      client := fun i => ⟨(hopen i).1, (hopen i).2, by simp [start], by simp [start]⟩
      asked := rfl
      answered := by simp [start]
      queue := rfl
      wellFormedPending := by simp
      wellFormedAsked := by simp
      wellFormedAnswered := by simp }

/-- In every run whose read events are clean, each client receives its own replies
in order, and no reply meets an empty queue. -/
theorem correct_along (session : SessionId → TcpSession) (backend : TcpClient)
    (hopen : ∀ i, (session i).bev = true ∧ (session i).isClosing = false)
    (hready : Ready backend) (run : List (Action × State))
    (h : Steps Step (start session backend) run)
    (hclean : Steps (fun s a _ => Clean s a) (start session backend) run) :
    Along Correct (start session backend) run := by
  have hflowing : Along Flowing (start session backend) run :=
    (h.and hclean).along (start_flowing hopen hready) fun s a t hs hstep =>
      hstep.1.flowing hstep.2 hs
  apply hflowing.mono
  intro s hs
  obtain ⟨f, hs, -⟩ := hs
  exact hs.correct

/-! ## Runs -/

/-- A session on an open descriptor. -/
def openSession (i : SessionId) : TcpSession := { fd := i, bev := true, sIdGenerater := 0 }

private def past : Memory := fun _ => some 0

private theorem past_quiet : Quiet past := fun _ _ => ⟨0, rfl, by decide⟩

/-- An array of one bulk string, which has one byte. -/
private def order (c : Byte) : Value := .array [.bulk [c]]

private theorem order_wellFormed (c : Byte) : (order c).WellFormed := by
  simp [order, Value.WellFormed]

private theorem simple_wellFormed (c : Byte) (h : c ≠ CR ∧ c ≠ LF) :
    (Value.simple [c]).WellFormed := by
  simp [Value.WellFormed, Ne.symm h.1, Ne.symm h.2]

/-- Client 0 sends two commands in one piece. They are forwarded as one slice, and
client 1 receives the reply to the second of them. -/
theorem pipelined_commands_cross :
    ∃ t, Reaches Step (start openSession idle) t ∧ (t.client 1).written = [43, 50, 13, 10] ∧
      (t.client 1).due = [] ∧ ¬ Correct t := by
  have hreach : ∃ t, Reaches Step (start openSession idle) t ∧
      (t.client 1).written = [43, 50, 13, 10] ∧ (t.client 1).due = [] :=
    ⟨_, .cons (a := Action.command 0 (order 97)) (.command 0 (order_wellFormed 97)) <|
      .cons (a := Action.command 0 (order 97)) (.command 0 (order_wellFormed 97)) <|
      .cons (a := Action.command 1 (order 98)) (.command 1 (order_wellFormed 98)) <|
      .cons (a := Action.read 0 22 past)
        (.read (r := ⟨[encodeAll [order 97, order 97]], some .completed,
          encodeAll [order 97, order 97], []⟩) past_quiet rfl) <|
      .cons (a := Action.read 1 11 past)
        (.read (r := ⟨[encodeAll [order 98]], some .completed, encodeAll [order 98], []⟩)
          past_quiet rfl) <|
      .cons (a := Action.answer (order 97) (.simple [49]))
        (.answer (order_wellFormed 97) (simple_wellFormed 49 (by decide))
          ⟨encodeAll [order 97, order 98], rfl⟩ rfl) <|
      .cons (a := Action.answer (order 97) (.simple [50]))
        (.answer (order_wellFormed 97) (simple_wellFormed 50 (by decide))
          ⟨encodeAll [order 98], rfl⟩ rfl) <|
      .cons (a := Action.receive 8 past)
        (.receive (r := ⟨[[43, 49, 13, 10], [43, 50, 13, 10]], some .completed,
          [43, 49, 13, 10, 43, 50, 13, 10], []⟩) past_quiet rfl) .nil, rfl, rfl⟩
  obtain ⟨t, hrun, hwritten, hdue⟩ := hreach
  refine ⟨t, hrun, hwritten, hdue, fun hcorrect => ?_⟩
  have hpre := hcorrect.inOrder 1
  rw [hwritten, hdue] at hpre
  simp at hpre

/-- A command of client 0 is cut in two on its way, and between its parts client 1 sends
two commands in one piece. The three replies arrive in one piece as well. -/
theorem correct_after_replies :
    ∃ t, Reaches Step (start openSession idle) t ∧ (t.client 0).written = [43, 49, 13, 10] ∧
      (t.client 1).written = [43, 50, 13, 10, 43, 51, 13, 10] ∧ Correct t := by
  have hreach : ∃ t, Reaches (fun s a t => Step s a t ∧ Clean s a) (start openSession idle) t ∧
      (t.client 0).written = [43, 49, 13, 10] ∧
      (t.client 1).written = [43, 50, 13, 10, 43, 51, 13, 10] :=
    ⟨_, .cons (a := Action.command 0 (order 97)) ⟨.command 0 (order_wellFormed 97), trivial⟩ <|
      .cons (a := Action.command 1 (.simple [98]))
        ⟨.command 1 (simple_wellFormed 98 (by decide)), trivial⟩ <|
      .cons (a := Action.command 1 (.simple [100]))
        ⟨.command 1 (simple_wellFormed 100 (by decide)), trivial⟩ <|
      .cons (a := Action.read 0 6 past)
        ⟨.read (r := ⟨[], some .error, [], [42, 49, 13, 10, 36, 49]⟩) past_quiet rfl,
          [order 97], by simpa using order_wellFormed 97, rfl,
          ⟨fun _ _ h => absurd h (by decide +kernel),
            fun h => by simp [order, Value.Plain] at h⟩⟩ <|
      .cons (a := Action.read 1 8 past)
        ⟨.read (r := ⟨[[43, 98, 13, 10], [43, 100, 13, 10]], some .completed,
            [43, 98, 13, 10, 43, 100, 13, 10], []⟩) past_quiet rfl,
          [.simple [98], .simple [100]],
          by simp [simple_wellFormed 98 (by decide), simple_wellFormed 100 (by decide)], rfl,
          ⟨trivial, fun _ _ => ⟨trivial, fun _ _ => trivial⟩⟩⟩ <|
      .cons (a := Action.read 0 5 past)
        ⟨.read (r := ⟨[encodeAll [order 97]], some .completed, encodeAll [order 97], []⟩)
            past_quiet rfl,
          [order 97], by simpa using order_wellFormed 97, rfl,
          ⟨fun _ _ _ => rfl, fun h => by simp [order, Value.Plain] at h⟩⟩ <|
      .cons (a := Action.answer (.simple [98]) (.simple [50]))
        ⟨.answer (simple_wellFormed 98 (by decide)) (simple_wellFormed 50 (by decide))
          ⟨encodeAll [.simple [100], order 97], rfl⟩ rfl, trivial⟩ <|
      .cons (a := Action.answer (.simple [100]) (.simple [51]))
        ⟨.answer (simple_wellFormed 100 (by decide)) (simple_wellFormed 51 (by decide))
          ⟨encodeAll [order 97], rfl⟩ rfl, trivial⟩ <|
      .cons (a := Action.answer (order 97) (.simple [49]))
        ⟨.answer (order_wellFormed 97) (simple_wellFormed 49 (by decide)) ⟨[], rfl⟩ rfl,
          trivial⟩ <|
      .cons (a := Action.receive 12 past)
        ⟨.receive (r := ⟨[[43, 50, 13, 10], [43, 51, 13, 10], [43, 49, 13, 10]],
            some .completed, [43, 50, 13, 10, 43, 51, 13, 10, 43, 49, 13, 10], []⟩)
            past_quiet rfl,
          [.simple [50], .simple [51], .simple [49]],
          by simp [simple_wellFormed 49 (by decide), simple_wellFormed 50 (by decide),
            simple_wellFormed 51 (by decide)], rfl,
          ⟨trivial, fun _ _ => ⟨trivial, fun _ _ => ⟨trivial, fun _ _ => trivial⟩⟩⟩⟩ .nil,
      rfl, rfl⟩
  obtain ⟨t, ⟨run, hsteps, rfl⟩, hfirst, hsecond⟩ := hreach
  have hrun := hsteps.mono fun _ _ _ h => h.1
  have hclean := hsteps.mono fun _ _ _ h => h.2
  have hcorrect :=
    correct_along openSession idle (fun _ => ⟨rfl, rfl⟩) ⟨rfl, rfl, rfl⟩ run hrun hclean
  exact ⟨_, ⟨run, hrun, rfl⟩, hfirst, hsecond, hcorrect.final⟩

end Canal.Correlation
