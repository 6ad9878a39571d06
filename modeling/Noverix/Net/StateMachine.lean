/-
  The states of a socket against the connection diagram of RFC 793.

  The diagram is restricted to the eight states of tcp.h.  It draws no resets;
  the text of the RFC lets one close a connection.  Both readings are covered:
  `resets` says whether a reset to CLOSED counts as drawn.

  A segment is handled as the diagram says exactly when it is `InOrder`.  Over
  whole runs, in which the calls and frames interleave, one thing is added: a
  frame received while a segment is being sent must not change a state, since
  the function that sends goes on with what it knew.
-/

import Noverix.Net.Isolation

namespace Noverix.Net

open Lib

/-! ## The diagram -/

/-- The edges of the RFC 793 diagram between the states of tcp.h. -/
def diagram : List (TcpState × TcpState) := [
  -- active OPEN, and CLOSE before an answer
  (.closed, .synSent), (.synSent, .closed),
  -- SYN and ACK received
  (.synSent, .established),
  -- CLOSE, ACK of FIN received, FIN received, timeout
  (.established, .finWait1), (.finWait1, .finWait2), (.finWait2, .timeWait), (.timeWait, .closed),
  -- FIN received, CLOSE, ACK of FIN received
  (.established, .closeWait), (.closeWait, .lastAck), (.lastAck, .closed)]

abbrev Edge (a b : TcpState) : Prop := (a, b) ∈ diagram

/-- The segment acknowledges the FIN that `tcp_close` has sent, the last thing sent. -/
def AcksFin (sock : Sock) (seg : RxSegment) : Prop := seg.isAck = true ∧ seg.ack = sock.sndNxt

/-- What a segment may make of the state `sock.state`: nothing, or an edge, which is not the one
    out of CLOSED; and FIN_WAIT_2 if it has to. -/
structure SegConforms (resets : Bool) (sock : Sock) (seg : RxSegment) (new : TcpState) : Prop where
  edge : new = sock.state ∨ (sock.state ≠ .closed ∧ Edge sock.state new) ∨
    (resets = true ∧ seg.isRst = true ∧ new = .closed)
  finAcked : sock.state = .finWait1 → seg.isRst = false → seg.isFin = false → AcksFin sock seg →
    new = .finWait2

/-- A frame does to the state of socket `i` what its segment may do, if it has one, and
    nothing otherwise. -/
def FrameConforms (resets : Bool) (rounds : Nat) (s : Stack) (i : Fin tcpMaxSocks) (f : Frame) :
    Prop :=
  ∀ t, Outcome quiet (tcpHandlePacket rounds f) s () t →
    (∀ seg, Reaches s f i seg → SegConforms resets (s.sockets i) seg (t.sockets i).state) ∧
    ((∀ seg, ¬ Reaches s f i seg) → (t.sockets i).state = (s.sockets i).state)

/-- A segment that the code handles as the diagram says: no reset that would not count, no FIN
    but in ESTABLISHED, FIN_WAIT_2 and CLOSE_WAIT, and no ACK of our FIN in FIN_WAIT_1. -/
structure InOrder (resets : Bool) (sock : Sock) (seg : RxSegment) : Prop where
  reset : seg.isRst = true → resets = true ∨ sock.state = .closed ∨ Edge sock.state .closed
  fin : seg.isRst = false → sock.state ≠ .synSent → seg.isFin = true →
    sock.state = .established ∨ sock.state = .finWait2 ∨ sock.state = .closeWait
  finAcked : seg.isRst = false → seg.isFin = false → sock.state = .finWait1 → ¬ AcksFin sock seg

theorem handled_state (sock : Sock) (seg : RxSegment) :
    (sock.handled seg).state =
      if seg.isRst then .closed
      else if sock.state = .synSent then
        if seg.isSyn ∧ seg.isAck ∧ seg.ack = sock.sndNxt then .established else .synSent
      else if seg.isFin then sock.state.afterFin
      else sock.state := by
  unfold Sock.handled
  split
  · rfl
  split
  · next hsyn =>
    split
    · rfl
    · exact hsyn
  split
  · rfl
  split
  · exact takeAck_state ..
  · exact takeAck_state ..

variable {st : TcpState}

/-- The state after a FIN is as drawn only in three states. -/
theorem afterFin_edge (h : st ≠ .synSent) :
    st.afterFin = st ∨ (st ≠ .closed ∧ Edge st st.afterFin) ↔
      st = .established ∨ st = .finWait2 ∨ st = .closeWait := by
  revert h
  cases st <;> decide

theorem edge_closed_ne (h : Edge st .closed) : st ≠ .closed := by
  rintro rfl
  contradiction

variable {resets : Bool}

theorem segConforms_handled_iff {sock : Sock} {seg : RxSegment} :
    SegConforms resets sock seg (sock.handled seg).state ↔ InOrder resets sock seg := by
  rw [handled_state]
  by_cases hrst : seg.isRst = true
  · have hrst' : seg.isRst ≠ false := by simp [hrst]
    rw [if_pos hrst]
    constructor
    · rintro ⟨hedge, -⟩
      refine ⟨fun _ => ?_, fun h => absurd h hrst', fun h => absurd h hrst'⟩
      rcases hedge with h | ⟨-, h⟩ | ⟨h, -⟩
      · exact .inr (.inl h.symm)
      · exact .inr (.inr h)
      · exact .inl h
    · rintro ⟨hreset, -, -⟩
      refine ⟨?_, fun _ h => absurd h hrst'⟩
      rcases hreset hrst with h | h | h
      · exact .inr (.inr ⟨h, hrst, rfl⟩)
      · exact .inl h.symm
      · exact .inr (.inl ⟨edge_closed_ne h, h⟩)
  rw [if_neg hrst]
  have hrst' : seg.isRst = false := by simpa using hrst
  by_cases hsyn : sock.state = .synSent
  · rw [if_pos hsyn]
    -- nothing to see to in a handshake
    refine iff_of_true ⟨?_, fun h => ?_⟩ ⟨fun h => absurd h hrst, fun _ h => absurd hsyn h, ?_⟩
    · rw [hsyn]
      split
      · exact .inr (.inl (by decide))
      · exact .inl rfl
    · rw [hsyn] at h
      cases h
    · intro _ _ h
      rw [hsyn] at h
      cases h
  rw [if_neg hsyn]
  by_cases hfin : seg.isFin = true
  · have hfin' : seg.isFin ≠ false := by simp [hfin]
    rw [if_pos hfin]
    constructor
    · rintro ⟨hedge, -⟩
      refine ⟨fun h => absurd h hrst, fun _ _ _ => ?_, fun _ h => absurd h hfin'⟩
      refine (afterFin_edge hsyn).mp ?_
      rcases hedge with h | h | ⟨-, h, -⟩
      · exact .inl h
      · exact .inr h
      · exact absurd h hrst
    · rintro ⟨-, hf, -⟩
      refine ⟨?_, fun _ _ h => absurd h hfin'⟩
      rcases (afterFin_edge hsyn).mpr (hf hrst' hsyn hfin) with h | h
      · exact .inl h
      · exact .inr (.inl h)
  rw [if_neg hfin]
  have hfin' : seg.isFin = false := by simpa using hfin
  constructor
  · rintro ⟨-, hacked⟩
    refine ⟨fun h => absurd h hrst, fun _ _ h => absurd h hfin, fun _ _ hst hack => ?_⟩
    have h2 := hacked hst hrst' hfin' hack
    rw [hst] at h2
    cases h2
  · rintro ⟨-, -, hno⟩
    exact ⟨.inl rfl, fun hst _ _ hack => absurd hack (hno hrst' hfin' hst)⟩

/-- A frame is handled as the diagram says exactly when its segment is in order. -/
theorem frameConforms_iff_inOrder {rounds : Nat} {s : Stack} {i : Fin tcpMaxSocks}
    {f : Frame} : FrameConforms resets rounds s i f ↔
      ∀ seg, Reaches s f i seg → InOrder resets (s.sockets i) seg := by
  constructor
  · intro h seg hreach
    obtain ⟨⟨⟩, t, hout⟩ := exists_outcome quiet_answers (tcpHandlePacket rounds f) s
    have hseg := (h t hout).1 seg hreach
    rw [outcome_of_reaches rounds hreach hout, set_self] at hseg
    exact segConforms_handled_iff.mp hseg
  · intro h t hout
    refine ⟨fun seg hreach => ?_, fun hno => ?_⟩
    · rw [outcome_of_reaches rounds hreach hout, set_self]
      exact segConforms_handled_iff.mpr (h seg hreach)
    · by_cases hr : ∃ j seg, Reaches s f j seg
      · obtain ⟨j, seg, hreach⟩ := hr
        have hij : i ≠ j := by
          rintro rfl
          exact hno seg hreach
        rw [outcome_of_reaches rounds hreach hout, Stack.set_of_ne hij]
      · rw [outcome_of_not_reaches rounds (fun j seg hj => hr ⟨j, seg, hj⟩) hout]

/-! ## Runs -/

/-- A store of a run, as seen from socket `i`: in use, its state moves along an edge that does
    not leave CLOSED, or is reset; and it comes into use by an active open. -/
structure Conforms (resets : Bool) (s t : Stack) (i : Fin tcpMaxSocks) : Prop where
  edge : (s.sockets i).used = true → (t.sockets i).state = (s.sockets i).state ∨
    ((s.sockets i).state ≠ .closed ∧ Edge (s.sockets i).state (t.sockets i).state) ∨
    (resets = true ∧ (t.sockets i).state = .closed)
  opens : (s.sockets i).used = false → (t.sockets i).used = true → (t.sockets i).state = .synSent

/-- While a segment is being sent, a state changes at most by the end of a handshake. -/
def Steady (s t : Stack) : Prop :=
  ∀ i, (t.sockets i).state = (s.sockets i).state ∨
    ((s.sockets i).state = .synSent ∧ (t.sockets i).state = .established)

/-- What may be received: segments that are in order and, while a segment is being sent, that
    change no state but by the end of a handshake. -/
def Orderly (resets : Bool) : Stack → (q : Req) → q.Ans → Prop :=
  Receiving fun buf s i seg => InOrder resets (s.sockets i) seg ∧
    (buf = .pktBuf → ((s.sockets i).handled seg).state = (s.sockets i).state ∨
      ((s.sockets i).state = .synSent ∧ ((s.sockets i).handled seg).state = .established))

section

variable {resets : Bool} {buf : RxBuf} {s t u : Stack} {i j : Fin tcpMaxSocks} {seg : RxSegment}

theorem Steady.trans (h : Steady s t) (h' : Steady t u) : Steady s u := by
  intro i
  rcases h i with h1 | ⟨h1, h2⟩
  · rw [← h1]
    exact h' i
  rcases h' i with h3 | ⟨h3, -⟩
  · exact .inr ⟨h1, h3.trans h2⟩
  rw [h2] at h3
  cases h3

variable {sock : Sock}

theorem conforms_set (hused : sock.used = true → (s.sockets i).used = true)
    (hedge : sock.state = (s.sockets i).state ∨
      ((s.sockets i).state ≠ .closed ∧ Edge (s.sockets i).state sock.state) ∨
      (resets = true ∧ sock.state = .closed)) (j : Fin tcpMaxSocks) :
    Conforms resets s (s.set i sock) j := by
  by_cases hij : j = i
  · subst hij
    refine ⟨fun _ => ?_, fun h h' => ?_⟩
    · rw [set_self]
      exact hedge
    · rw [set_self] at h'
      rw [hused h'] at h
      cases h
  refine ⟨fun _ => ?_, fun h h' => ?_⟩
  · rw [Stack.set_of_ne hij]
    exact .inl rfl
  · rw [Stack.set_of_ne hij, h] at h'
    cases h'

theorem steady_set (h : sock.state = (s.sockets i).state ∨
    ((s.sockets i).state = .synSent ∧ sock.state = .established)) : Steady s (s.set i sock) := by
  intro j
  by_cases hij : j = i
  · subst hij
    rw [set_self]
    exact h
  rw [Stack.set_of_ne hij]
  exact .inl rfl

theorem good_set_of_state (hused : sock.used = (s.sockets i).used)
    (hstate : sock.state = (s.sockets i).state) :
    Good (fun s t => ∀ i, Conforms resets s t i) (fun _ => True) Steady buf s (s.set i sock) :=
  ⟨conforms_set (fun h => hused ▸ h) (.inl hstate), trivial, fun _ => steady_set (.inl hstate)⟩

theorem conforms_of_sockets (h : t.sockets = s.sockets) (j : Fin tcpMaxSocks) :
    Conforms resets s t j := by
  refine ⟨fun _ => .inl ?_, fun h1 h2 => ?_⟩
  · rw [h]
  · rw [h, h1] at h2
    cases h2

theorem good_of_sockets (h : t.sockets = s.sockets) :
    Good (fun s t => ∀ i, Conforms resets s t i) (fun _ => True) Steady buf s t :=
  ⟨conforms_of_sockets h, trivial, fun _ _ => .inl (by rw [h])⟩

theorem conforms_emit (seg : Segment) : ∀ j, Conforms resets s (s.emit i seg) j :=
  conforms_of_sockets (Stack.emit_sockets s i seg)

theorem finDone_state (hplain : Plain (Orderly resets) buf s i seg)
    (h : Steady (s.set i ((s.sockets i).takeFin seg)) t) :
    (t.sockets i).state = (s.sockets i).state := by
  have hself : ((s.set i ((s.sockets i).takeFin seg)).sockets i).state = (s.sockets i).state := by
    rw [set_self]
    exact takeAck_state ..
  rcases h i with h | ⟨h, -⟩
  · rw [h, hself]
  rw [hself] at h
  exact absurd h hplain.notSynSent

theorem keepsHandling_orderly :
    KeepsHandling (Orderly resets) (fun s t => ∀ i, Conforms resets s t i) (fun _ => True) Steady where
  refl _ _ := .inl rfl
  trans := Steady.trans
  aside _ ha := good_of_sockets ha.sockets
  answer _ _ _ := good_of_sockets rfl
  reset {buf s i seg} _ ha hrst := by
    have hstate := handled_state (s.sockets i) seg
    rw [if_pos hrst] at hstate
    refine ⟨conforms_set (fun h => h) ?_, trivial, ?_⟩
    · rcases ha.allowed.1.reset hrst with h | h | h
      · exact .inr (.inr ⟨h, rfl⟩)
      · exact .inl h.symm
      · exact .inr (.inl ⟨edge_closed_ne h, h⟩)
    · rintro rfl
      have hsteady := ha.allowed.2 rfl
      rw [hstate] at hsteady
      exact steady_set hsteady
  synAck {buf s i seg} _ ha hrst hsyn _ _ _ := by
    refine ⟨conforms_set (fun h => h) (.inr (.inl ?_)), trivial, fun _ => ?_⟩
    · rw [hsyn]
      exact ⟨by decide, show Edge .synSent .established by decide⟩
    · exact steady_set (.inr ⟨hsyn, rfl⟩)
  ack _ _ _ _ := good_set_of_state (takeAck_used ..) (takeAck_state ..)
  data _ _ _ _ _ := good_set_of_state (takeAck_used ..) (takeAck_state ..)
  fin _ _ _ := good_set_of_state (takeAck_used ..) (takeAck_state ..)
  finDone {buf s t i seg} _ hplain hfin hf _ := by
    have hstate := finDone_state hplain hf
    have hthree := hplain.arrives.allowed.1.fin hplain.notRst hplain.notSynSent hfin
    refine ⟨conforms_set (fun h => h) ?_, trivial, ?_⟩
    · rw [hstate]
      rcases (afterFin_edge hplain.notSynSent).mpr hthree with h | h
      · exact .inl h
      · exact .inr (.inl h)
    · rintro rfl
      have hsteady := hplain.arrives.allowed.2 rfl
      rw [handled_state, if_neg (by simp [hplain.notRst]), if_neg hplain.notSynSent, if_pos hfin]
        at hsteady
      refine steady_set ?_
      rw [hstate]
      exact hsteady

/-- The calls move along edges as well. -/
theorem keeps_orderly : Keeps (Orderly resets) (fun _ _ => True)
    (fun s t => ∀ i, Conforms resets s t i) (fun _ => True) Steady where
  toKeepsHandling := keepsHandling_orderly
  connect {s i _ _ _ _ _} _ _ hfree := by
    refine ⟨fun j => ?_, trivial⟩
    by_cases hij : j = i
    · subst hij
      refine ⟨fun h => ?_, fun _ _ => ?_⟩
      · rw [hfree] at h
        cases h
      · simp [Stack.opening, Stack.reopen, Sock.opened]
    refine ⟨fun _ => .inl ?_, fun h h' => ?_⟩
    · simp [Stack.opening, Stack.reopen, hij]
    · simp [Stack.opening, Stack.reopen, hij, h] at h'
  syn _ _ _ := ⟨conforms_emit _, trivial⟩
  synSent _ _ _ _ := ⟨conforms_set (fun h => h) (.inl rfl), trivial⟩
  drop _ _ := ⟨conforms_set (fun h => by cases h) (.inl rfl), trivial⟩
  rewind _ _ _ _ := ⟨conforms_set (fun h => h) (.inl rfl), trivial⟩
  push _ _ _ _ _ _ := ⟨conforms_emit _, trivial⟩
  pushed _ _ _ _ _ _ _ := ⟨conforms_set (fun h => h) (.inl rfl), trivial⟩
  take {s i n} _ _ _ := by
    have h : ∀ j, Conforms resets s (s.set i ((s.sockets i).takeOut n)) j :=
      conforms_set (fun h => h) (.inl rfl)
    exact ⟨fun j => ⟨(h j).edge, (h j).opens⟩, trivial⟩
  finish _ _ _ _ _ _ := ⟨conforms_emit _, trivial⟩
  finished {s t u i _} _ _ _ hest hf _ hu := by
    -- the state is still ESTABLISHED when the FIN has been sent
    have hstate : (u.sockets i).state = .established := by
      have ht : (t.sockets i).state = .established := by
        rcases hf i with h | ⟨h, -⟩
        · rw [h, hest]
        rw [hest] at h
        cases h
      rcases hu with rfl | rfl
      · exact ht
      · exact ht
    refine ⟨conforms_set (fun h => h) (.inr (.inl ?_)), trivial⟩
    rw [hstate]
    exact ⟨by decide, show Edge .established .finWait1 by decide⟩

end

/-- Segments are handled as the diagram says exactly when they are in order; and in every run
    that receives such segments only, and none that changes a state while another is being
    sent, every store moves every socket along the diagram. -/
theorem states_conform (resets : Bool) :
    (∀ rounds s i f, FrameConforms resets rounds s i f ↔
      ∀ seg, Reaches s f i seg → InOrder resets (s.sockets i) seg) ∧
    (∀ s₀ c c', Reactive.Reached (calls fun _ _ => True) (Orderly resets) s₀ c →
      Reactive.Step (calls fun _ _ => True) (Orderly resets) c c' →
      ∀ i, Conforms resets c.st c'.st i) := by
  refine ⟨fun rounds s i f => frameConforms_iff_inOrder, fun s₀ c c' hreach hstep => ?_⟩
  rcases Reactive.Reached.kept (I := fun _ => True) trivial
    (fun s p h hc => keeps_orderly.call h hc) hreach hstep with heq | h
  · exact conforms_of_sockets (congrArg Stack.sockets heq)
  · exact h

/-- The connection after a reset. -/
def resetConn : Stack :=
  (Call.handle 0).prog.exec (answering (some (segmentFrame ipTcp netGwIp 101 1 tcpFlagRst [])))
    connected

/-- A FIN that follows the reset. -/
def lateFin : Frame := segmentFrame ipTcp netGwIp 101 1 tcpFlagFin []

/-- A FIN moves a closed socket to CLOSE_WAIT, whether or not resets count. -/
theorem lateFin_not_conforms : FreeRun ⟨resetConn, .ret ()⟩ ∧ (resetConn.sockets 0).used = true ∧
    (resetConn.sockets 0).state = .closed ∧
    ∀ resets, ¬ FrameConforms resets 0 resetConn 0 lateFin := by
  have hclosed : (resetConn.sockets 0).state = .closed := by decide +kernel
  refine ⟨freeRun_connected.exec _ (.handle 0), by decide +kernel, hclosed, fun resets h => ?_⟩
  have hreach : Reaches resetConn lateFin 0 lateFin.tcpFields := ⟨by decide +kernel, by decide +kernel⟩
  have hfin := (frameConforms_iff_inOrder.mp h _ hreach).fin (by decide +kernel)
    (by rw [hclosed]; decide) (by decide +kernel)
  rw [hclosed] at hfin
  contradiction

end Noverix.Net
