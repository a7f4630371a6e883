import Canal.Foundation.Buffer
import Canal.Foundation.Trace

/-!
# Closing a socket

`TcpSocket::close` should be final: nothing is accepted any more, what has been
accepted is still flushed if the caller waits for it, and in the end the
descriptor is shut down once.

The flag that makes `send` refuse is set only while a close waits for pending
output, and `closeImpl` clears it when the close completes. The buffer of a
closed socket therefore takes data again, though it is never written out. And
`closeImpl` asks `get_socket` for the descriptor, whose two branches are swapped:
where there is a bufferevent, it answers with the invalid descriptor.

The last five fields of the state record what has happened and influence nothing.
-/

namespace Canal.LoopThread.Closing

open Buffer Trace

/-- A bufferevent with its descriptor and its buffers; `writing` is `EV_WRITE`. -/
structure Bufferevent where
  fd : Nat
  input : List Byte := []
  output : List Byte := []
  writing : Bool := true

/-- A `TcpSocket`. `sent` are the bytes written out, `closed` the bytes that had
been accepted when `close` was called first, `late` the results of `send` since,
and `shutdowns` the descriptors that have been shut down. -/
structure Socket where
  bev : Option Bufferevent
  isClosing : Bool := false
  sent : List Byte := []
  closed : Option (List Byte) := none
  late : List Bool := []
  shutdowns : List Int := []
  completed : Bool := false

/-- `SOCKET_FD_INVALID` -/
def socketFdInvalid : Int := -1

namespace Socket

/-- `TcpSocket::get_socket`. Without a bufferevent it follows a null pointer. -/
def getSocket (s : Socket) : Option Int :=
  match s.bev with
  | some _ => some socketFdInvalid
  | none => none

/-- `TcpSocket::send`; `write` is the result of `bufferevent_write`. -/
def send (s : Socket) (data : List Byte) (write : Bool) : Bool × Socket :=
  match s.bev with
  | none => (false, s)
  | some b =>
      if s.isClosing then
        (false, s)
      else if write then
        (true, { s with bev := some { b with output := b.output ++ data } })
      else
        (false, s)

/-- `TcpSocket::closeImpl` on its bufferevent. -/
def closeImpl (s : Socket) (b : Bufferevent) : Socket :=
  { s with
    isClosing := false
    bev := some { b with input := [], writing := false }
    shutdowns := s.shutdowns ++ s.getSocket.toList
    completed := true }

/-- `TcpSocket::close` -/
def close (s : Socket) (waiting : Bool) : Socket :=
  match s.bev with
  | none => s
  | some b =>
      if waiting && b.output.length > 0 then { s with isClosing := true } else s.closeImpl b

/-- `TcpSocket::checkClosing`, which only a bufferevent calls. -/
def checkClosing (s : Socket) : Socket :=
  match s.bev with
  | none => s
  | some b =>
      if s.isClosing && b.output.length = 0 then closeImpl { s with isClosing := false } b else s

/-- The bufferevent writes out some of its output, unless writing is disabled. -/
def flush (s : Socket) (n : Nat) : Socket :=
  match s.bev with
  | none => s
  | some b =>
      if b.writing then
        { s with
          bev := some { b with output := b.output.drop n }
          sent := s.sent ++ b.output.take n }
      else
        s

/-- What has been accepted: written out, or still in the output buffer. -/
def accepted (s : Socket) : List Byte := s.sent ++ (s.bev.map Bufferevent.output).getD []

end Socket

inductive Action where
  | send (data : List Byte) (write : Bool)
  | close (waiting : Bool)
  | drained
  | flush (n : Nat)

/-- One call or callback, recorded. -/
def Socket.step (s : Socket) : Action → Socket
  | .send data write =>
      let (result, t) := s.send data write
      { t with late := if s.closed.isSome then s.late ++ [result] else s.late }
  | .close waiting => Socket.close { s with closed := some (s.closed.getD s.accepted) } waiting
  | .drained => s.checkClosing
  | .flush n => s.flush n

def Step (s : Socket) (a : Action) (t : Socket) : Prop := t = s.step a

/-- A socket on which nothing has happened yet. -/
def opened (b : Bufferevent) : Socket := { bev := some b }

/-- After the first close nothing is accepted, what had been accepted is flushed
and nothing else, and a close that is complete has shut the descriptor down once. -/
structure Final (s : Socket) : Prop where
  refused : ∀ r ∈ s.late, r = false
  flushed : ∀ w, s.closed = some w → s.accepted = w
  shutdown : ∀ b, s.bev = some b → s.shutdowns = if s.completed then [(b.fd : Int)] else []

/-- The action completes the closing of a socket. -/
def Completes (s : Socket) (a : Action) : Prop :=
  ∃ b, s.bev = some b ∧
    match a with
    | .close waiting => waiting = false ∨ b.output = []
    | .drained => s.isClosing = true ∧ b.output = []
    | _ => False

variable {s t : Socket} {a : Action}

/-- No close has completed. -/
structure Open (s : Socket) : Prop where
  bev : s.bev.isSome = true
  isClosing : s.isClosing = s.closed.isSome
  late : ∀ r ∈ s.late, r = false
  accepted : ∀ w, s.closed = some w → s.accepted = w
  shutdowns : s.shutdowns = []
  completed : s.completed = false

theorem Open.final (h : Open s) : Final s where
  refused := h.late
  flushed := h.accepted
  shutdown _ _ := by simp [h.shutdowns, h.completed]

theorem opened_open (b : Bufferevent) : Open (opened b) where
  bev := rfl
  isClosing := rfl
  late := by simp [opened]
  accepted := by simp [opened]
  shutdowns := rfl
  completed := rfl

/-! ## One action -/

theorem Open.send (hs : Open s) (data : List Byte) (write : Bool) :
    Open (s.step (.send data write)) := by
  obtain ⟨b, hb⟩ := Option.isSome_iff_exists.mp hs.bev
  cases hclosing : s.isClosing with
  | true =>
      have hclosed : s.closed.isSome = true := hs.isClosing.symm.trans hclosing
      have heq : s.step (.send data write) = { s with late := s.late ++ [false] } := by
        simp [Socket.step, Socket.send, hb, hclosing, hclosed]
      rw [heq]
      refine ⟨hs.bev, hs.isClosing, ?_, hs.accepted, hs.shutdowns, hs.completed⟩
      intro r hr
      obtain hmem | hmem := List.mem_append.mp hr
      · exact hs.late r hmem
      · exact List.mem_singleton.mp hmem
  | false =>
      have hclosed : s.closed = none := by
        rw [← Option.not_isSome_iff_eq_none, ← hs.isClosing, hclosing]
        simp
      cases write with
      | true =>
          have heq : s.step (.send data true) =
              { s with bev := some { b with output := b.output ++ data } } := by
            simp [Socket.step, Socket.send, hb, hclosing, hclosed]
          rw [heq]
          exact ⟨rfl, hs.isClosing, hs.late, by simp [hclosed], hs.shutdowns, hs.completed⟩
      | false =>
          have heq : s.step (.send data false) = s := by
            obtain ⟨bev, isClosing, sent, closed, late, shutdowns, completed⟩ := s
            obtain rfl : bev = some b := hb
            obtain rfl : isClosing = false := hclosing
            obtain rfl : closed = none := hclosed
            rfl
          rwa [heq]

theorem Open.close (hs : Open s) {waiting : Bool} (h : ¬ Completes s (.close waiting)) :
    Open (s.step (.close waiting)) := by
  obtain ⟨b, hb⟩ := Option.isSome_iff_exists.mp hs.bev
  obtain ⟨rfl, hpending⟩ : waiting = true ∧ b.output ≠ [] := by
    constructor
    · cases waiting with
      | true => rfl
      | false => exact absurd ⟨b, hb, Or.inl rfl⟩ h
    · exact fun hnil => h ⟨b, hb, Or.inr hnil⟩
  have hlen := List.length_pos_of_ne_nil hpending
  have heq : s.step (.close true) =
      { s with isClosing := true, closed := some (s.closed.getD s.accepted) } := by
    simp [Socket.step, Socket.close, hb, hlen]
  rw [heq]
  refine ⟨hs.bev, rfl, hs.late, ?_, hs.shutdowns, hs.completed⟩
  rintro w hw
  obtain rfl := Option.some.inj hw
  cases hclosed : s.closed with
  | none => rfl
  | some w => exact hs.accepted w hclosed

theorem Open.drained (hs : Open s) (h : ¬ Completes s .drained) : Open (s.step .drained) := by
  obtain ⟨b, hb⟩ := Option.isSome_iff_exists.mp hs.bev
  have hnot : ¬ (s.isClosing && decide (b.output.length = 0)) = true := by
    rw [Bool.and_eq_true, decide_eq_true_eq, List.length_eq_zero_iff]
    exact fun hdone => h ⟨b, hb, hdone⟩
  have heq : s.step .drained = s := by
    simp only [Socket.step, Socket.checkClosing, hb]
    exact if_neg hnot
  rwa [heq]

theorem Open.flush (hs : Open s) (n : Nat) : Open (s.step (.flush n)) := by
  obtain ⟨b, hb⟩ := Option.isSome_iff_exists.mp hs.bev
  cases hwriting : b.writing with
  | false =>
      have heq : s.step (.flush n) = s := by
        simp [Socket.step, Socket.flush, hb, hwriting]
      rwa [heq]
  | true =>
      have heq : s.step (.flush n) =
          { s with
            bev := some { b with output := b.output.drop n }
            sent := s.sent ++ b.output.take n } := by
        simp [Socket.step, Socket.flush, hb, hwriting]
      rw [heq]
      refine ⟨rfl, hs.isClosing, hs.late, ?_, hs.shutdowns, hs.completed⟩
      intro w hw
      rw [← hs.accepted w hw]
      simp [Socket.accepted, hb]

theorem Open.step (hs : Open s) (h : ¬ Completes s a) : Open (s.step a) := by
  cases a with
  | send data write => exact hs.send data write
  | close waiting => exact hs.close h
  | drained => exact hs.drained h
  | flush n => exact hs.flush n

/-- A close that completes asks for the descriptor and gets the invalid one. -/
theorem Completes.shutdowns (h : Completes s a) :
    ∃ b, (s.step a).bev = some b ∧ (s.step a).shutdowns = s.shutdowns ++ [socketFdInvalid] ∧
      (s.step a).completed = true := by
  obtain ⟨b, hb, h⟩ := h
  cases a with
  | send data write => exact h.elim
  | flush n => exact h.elim
  | close waiting =>
      have hnot : (waiting && decide (b.output.length > 0)) = false := by
        obtain rfl | hnil := h
        · rfl
        · simp [hnil]
      simp [Socket.step, Socket.close, hb, hnot, Socket.closeImpl, Socket.getSocket]
  | drained =>
      obtain ⟨hclosing, hnil⟩ := h
      simp [Socket.step, Socket.checkClosing, hb, hclosing, hnil, Socket.closeImpl,
        Socket.getSocket]

theorem Completes.not_final (h : Completes s a) : ¬ Final (s.step a) := by
  obtain ⟨b, hb, hshutdowns, hcompleted⟩ := h.shutdowns
  intro hfinal
  have hlast := congrArg List.getLast? (hfinal.shutdown b hb)
  simp [hshutdowns, hcompleted, socketFdInvalid] at hlast

/-! ## Runs -/

/-- A socket without pending output that is closed and then written to. -/
theorem send_after_close :
    ∃ t, Reaches Step (opened { fd := 5 }) t ∧ t.late = [true] ∧ t.shutdowns = [-1] ∧
      ¬ Final t := by
  refine ⟨_, .cons (a := .close true) rfl <| .cons (a := .send [97] true) rfl .nil, rfl, rfl, ?_⟩
  intro h
  exact absurd (h.refused true (by decide)) (by decide)

/-- A close is final exactly along the runs in which none completes. -/
theorem final_along_iff (b : Bufferevent) (run : List (Action × Socket))
    (h : Steps Step (opened b) run) :
    Along Final (opened b) run ↔ Steps (fun s a _ => ¬ Completes s a) (opened b) run := by
  have hnothing : Along (fun _ => True) (opened b) run := ⟨trivial, fun _ _ => trivial⟩
  apply h.along_iff_stronger hnothing (opened_open b)
  · rintro s a t hs rfl hnot
    exact hs.step hnot
  · exact fun s hs => hs.final
  · rintro s a t - rfl ht hcompletes
    exact hcompletes.not_final ht

/-- A waiting close with pending output, and a send behind it. -/
theorem final_while_waiting :
    Final (((opened { fd := 5, output := [97] }).step (.close true)).step (.send [98] true)) := by
  have hrun := final_along_iff { fd := 5, output := [97] }
    [(.close true, _), (.send [98] true, _)] (steps_cons.mpr ⟨rfl, steps_cons.mpr ⟨rfl, steps_nil⟩⟩)
  refine (hrun.mpr (steps_cons.mpr ⟨?_, steps_cons.mpr ⟨?_, steps_nil⟩⟩)).final
  · rintro ⟨b, hb, hclosed⟩
    obtain rfl := Option.some.inj hb
    simp at hclosed
  · rintro ⟨b, -, hfalse⟩
    exact hfalse

end Canal.LoopThread.Closing
