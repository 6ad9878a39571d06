/-
  What one frame does to the sockets.

  `Sock.handled` is the effect of a segment on its socket when no other frame
  is received meanwhile.  It depends on the ports of the frame and on nothing
  else that says where the frame comes from: not on the addresses of the IP
  header, not on the peer the socket is connected to, and not on the checks of
  `net_parse_packet`.  The two theorems say for which frames this makes no
  difference.
-/

import Noverix.Net.Handling

namespace Noverix.Net

open Lib
open Lib.Reactive (wp wp_bind)

variable {buf : RxBuf} {s t : Stack} {i : Fin tcpMaxSocks} {seg : RxSegment} {sock : Sock}
  {proto : UInt8} {rounds : Nat} {f : Frame}

/-- Surroundings in which no frame is received. -/
def quiet (_ : Stack) : (q : Req) → q.Ans → Prop
  | .recv _, a => a = none
  | _, _ => True

theorem quiet_answers (s : Stack) (q : Req) : ∃ a, quiet s q a := by
  cases q with
  | ticks => exact ⟨(0 : UInt32), trivial⟩
  | recv buf => exact ⟨none, rfl⟩
  | send out => exact ⟨TxResult.ok, trivial⟩

theorem not_arrives_quiet :
    ¬ Arrives quiet buf s i seg := by
  rintro ⟨f, hf, -⟩
  cases hf

theorem keepsHandling_quiet : KeepsHandling quiet (fun _ _ => True) (fun _ => True)
    (fun s t => t.sockets = s.sockets) where
  refl _ := rfl
  trans h h' := h'.trans h
  aside _ ha := ⟨trivial, trivial, fun _ => ha.sockets⟩
  reset _ ha := absurd ha not_arrives_quiet
  synAck _ ha := absurd ha not_arrives_quiet
  ack _ hp := absurd hp.arrives not_arrives_quiet
  data _ hp := absurd hp.arrives not_arrives_quiet
  fin _ hp := absurd hp.arrives not_arrives_quiet
  finDone _ hp := absurd hp.arrives not_arrives_quiet
  answer _ _ _ := ⟨trivial, trivial, fun _ => rfl⟩

/-! ## The effect of a segment -/

/-- What a segment makes of its socket. -/
def Sock.handled (sock : Sock) (seg : RxSegment) : Sock :=
  if seg.isRst then { sock with state := .closed }
  else if sock.state = .synSent then
    if seg.isSyn ∧ seg.isAck ∧ seg.ack = sock.sndNxt then sock.takeSynAck seg else sock
  else if seg.isFin then { sock.takeFin seg with state := sock.state.afterFin }
  else if seg.data ≠ [] ∧ seg.seq = sock.rcvNxt then (sock.takeAck seg).takeData seg
  else sock.takeAck seg

/-- A frame holds a segment for socket `i`. -/
def Reaches (s : Stack) (f : Frame) (i : Fin tcpMaxSocks) (seg : RxSegment) : Prop :=
  f.segment = some seg ∧ findSockByPort s seg.dstPort = some i

/-- Surroundings in which a segment reaches a socket only as `P` allows. -/
def Receiving (P : RxBuf → Stack → Fin tcpMaxSocks → RxSegment → Prop) (s : Stack) :
    (q : Req) → q.Ans → Prop
  | .recv buf, some f => (buf = .pktBuf → f.isTcp = true) →
      ∀ i seg, Reaches s f i seg → P buf s i seg
  | _, _ => True

theorem Arrives.allowed {P : RxBuf → Stack → Fin tcpMaxSocks → RxSegment → Prop}
    (ha : Arrives (Receiving P) buf s i seg) :
    P buf s i seg := by
  obtain ⟨f, hok, hbuf, hseg, hfind⟩ := ha
  exact hok hbuf i seg ⟨hseg, hfind⟩

section

variable {s : Stack} {i : Fin tcpMaxSocks} {seg : RxSegment} {f : Frame} (rounds : Nat)

theorem takeAck_used (sock : Sock) (seg : RxSegment) : (sock.takeAck seg).used = sock.used := by
  unfold Sock.takeAck
  split <;> rfl

@[simp] theorem takeAck_state (sock : Sock) (seg : RxSegment) :
    (sock.takeAck seg).state = sock.state := by
  unfold Sock.takeAck
  split <;> rfl

@[simp] theorem takeAck_rcvNxt (sock : Sock) (seg : RxSegment) :
    (sock.takeAck seg).rcvNxt = sock.rcvNxt := by
  unfold Sock.takeAck
  split <;> rfl

theorem wp_quiet_answer :
    wp quiet (fun _ _ => True) (sendTcpSegment rounds i tcpFlagAck [])
      (fun _ u => u.sockets = t.sockets) t := by
  refine wp_imp (keepsHandling_quiet.wp_answer
    (keepsHandling_quiet.sends_sendTcpSegment rounds) trivial) ?_
  exact fun _ u hu => hu.2

theorem wp_quiet_handleSegment :
    wp quiet (fun _ _ => True) (handleSegment (sendTcpSegment rounds) i seg)
      (fun _ t => t.sockets = (s.set i ((s.sockets i).handled seg)).sockets) s := by
  have hnone : s.sockets = (s.set i (s.sockets i)).sockets := (update_eq_self ..).symm
  unfold handleSegment Sock.handled
  rw [wp_bind, wp_getSock]
  by_cases hrst : seg.isRst = true
  · rw [if_pos hrst, if_pos hrst]
    exact ⟨trivial, rfl⟩
  rw [if_neg hrst, if_neg hrst]
  by_cases hsyn : (s.sockets i).state = .synSent
  · rw [if_pos hsyn, if_pos hsyn]
    by_cases hsa : seg.isSyn = true ∧ seg.isAck = true
    · rw [if_pos hsa]
      by_cases hack : seg.ack = (s.sockets i).sndNxt
      · rw [if_neg (not_not.mpr hack), if_pos ⟨hsa.1, hsa.2, hack⟩]
        simp only [wp_bind, wp_setSock]
        exact ⟨trivial, wp_quiet_answer rounds⟩
      rw [if_pos hack, if_neg fun h => hack h.2.2]
      exact hnone
    · rw [if_neg hsa, if_neg fun h => hsa ⟨h.1, h.2.1⟩]
      exact hnone
  rw [if_neg hsyn, if_neg hsyn]
  by_cases hfin : seg.isFin = true
  · rw [if_pos hfin, if_pos hfin]
    simp only [wp_bind, wp_setSock, wp_getSock]
    refine ⟨trivial, wp_imp (wp_quiet_answer rounds) ?_⟩
    -- the socket is found as it was left
    intro _ t ht
    have hself : t.sockets i = (s.sockets i).takeFin seg := by
      rw [ht]
      exact set_self ..
    have hstate : ((s.sockets i).takeFin seg).state = (s.sockets i).state := takeAck_state ..
    have hlast : ∀ st, (t.set i { (s.sockets i).takeFin seg with state := st }).sockets
        = (s.set i { (s.sockets i).takeFin seg with state := st }).sockets := fun st => by
      show update t.sockets i _ = update s.sockets i _
      rw [ht]
      exact update_idem ..
    rw [hself, hstate]
    unfold TcpState.afterFin
    by_cases hfw : (s.sockets i).state = .finWait2
    · rw [if_pos hfw, if_pos hfw]
      simp only [wp_bind, wp_setSock]
      refine ⟨trivial, wp_imp (wp_quiet_answer rounds) fun _ u hu => ?_⟩
      exact hu.trans (hlast _)
    rw [if_neg hfw, if_neg hfw]
    exact ⟨trivial, hlast _⟩
  rw [if_neg hfin, if_neg hfin]
  simp only [takeAck_rcvNxt]
  by_cases hdata : seg.data ≠ [] ∧ seg.seq = (s.sockets i).rcvNxt
  · rw [if_pos hdata, if_pos hdata]
    simp only [wp_bind, wp_setSock]
    exact ⟨trivial, wp_quiet_answer rounds⟩
  rw [if_neg hdata, if_neg hdata]
  exact ⟨trivial, rfl⟩

theorem outcome_of_reaches (h : Reaches s f i seg)
    (hout : Outcome quiet (tcpHandlePacket rounds f) s () t) :
    t.sockets = (s.set i ((s.sockets i).handled seg)).sockets := by
  suffices hwp : wp quiet (fun _ _ => True) (tcpHandlePacket rounds f)
      (fun _ t => t.sockets = (s.set i ((s.sockets i).handled seg)).sockets) s from
    wp_iff.mp hwp () t hout
  unfold tcpHandlePacket
  rw [wp_tcpHandleVia, h.1]
  simp only
  rw [h.2]
  exact wp_quiet_handleSegment rounds

theorem outcome_of_not_reaches (h : ∀ i seg, ¬ Reaches s f i seg)
    (hout : Outcome quiet (tcpHandlePacket rounds f) s () t) : t = s := by
  suffices hwp : wp quiet (fun _ _ => True) (tcpHandlePacket rounds f) (fun _ t => t = s) s from
    wp_iff.mp hwp () t hout
  unfold tcpHandlePacket
  rw [wp_tcpHandleVia]
  cases hseg : f.segment with
  | none => rfl
  | some seg =>
    simp only
    cases hfind : findSockByPort s seg.dstPort with
    | none => trivial
    | some i => exact absurd ⟨hseg, hfind⟩ (h i seg)

theorem outcome_sockets_unique {u : Stack}
    (ht : Outcome quiet (tcpHandlePacket rounds f) s () t)
    (hu : Outcome quiet (tcpHandlePacket rounds f) s () u) : t.sockets = u.sockets := by
  by_cases hr : ∃ i seg, Reaches s f i seg
  · obtain ⟨i, seg, hreach⟩ := hr
    rw [outcome_of_reaches rounds hreach ht, outcome_of_reaches rounds hreach hu]
  have hno : ∀ i seg, ¬ Reaches s f i seg := fun i seg hi => hr ⟨i, seg, hi⟩
  rw [outcome_of_not_reaches rounds hno ht, outcome_of_not_reaches rounds hno hu]

end

/-! ## Frames from elsewhere -/

/-- The frame is not from the peer of the socket, or not for this host. -/
def Foreign (sock : Sock) (f : Frame) : Prop :=
  f.srcIp ≠ sock.dstIp ∨ f.tcpFields.srcPort ≠ sock.dstPort ∨ f.dstIp ≠ netHostIp

/-- The same state, sequence numbers and receive buffer. -/
structure SameConn (a b : Sock) : Prop where
  state : b.state = a.state
  sndNxt : b.sndNxt = a.sndNxt
  rcvNxt : b.rcvNxt = a.rcvNxt
  sndUna : b.sndUna = a.sndUna
  isn : b.isn = a.isn
  rcvBuf : b.rcvBuf = a.rcvBuf
  rcvLen : b.rcvLen = a.rcvLen

/-- Handling the frame leaves socket `i` as it was, if the frame is from elsewhere. -/
def Isolated (rounds : Nat) (s : Stack) (i : Fin tcpMaxSocks) (f : Frame) : Prop :=
  Foreign (s.sockets i) f →
    ∀ t, Outcome quiet (tcpHandlePacket rounds f) s () t → SameConn (s.sockets i) (t.sockets i)

/-- A segment that tells the socket nothing new: a reset of a closed socket; in a handshake,
    not the answer waited for; otherwise no other acknowledgement, no FIN but one already
    taken, and no data that is next in order. -/
def Inert (sock : Sock) (seg : RxSegment) : Prop :=
  if seg.isRst then sock.state = .closed
  else if sock.state = .synSent then ¬ (seg.isSyn ∧ seg.isAck ∧ seg.ack = sock.sndNxt)
  else (seg.isAck = true → seg.ack = sock.sndUna) ∧
    if seg.isFin then seg.seq + 1 = sock.rcvNxt ∧ sock.state = .closeWait
    else ¬ (seg.data ≠ [] ∧ seg.seq = sock.rcvNxt)

theorem takeAck_sndUna (sock : Sock) (seg : RxSegment) :
    (sock.takeAck seg).sndUna = if seg.isAck then seg.ack else sock.sndUna := by
  unfold Sock.takeAck
  split <;> rfl

/-- In-order data moves `rcv_nxt`: at most 1460 bytes are taken, and at least one. -/
theorem takeData_rcvNxt_ne (sock : Sock) (hdata : seg.data ≠ [])
    (hseq : seg.seq = sock.rcvNxt) : (sock.takeData seg).rcvNxt ≠ sock.rcvNxt := by
  intro h
  have hlen : (seg.data.take rcvBufSize).length ≤ 1460 := List.length_take_le ..
  have hpos : 0 < (seg.data.take rcvBufSize).length :=
    List.length_pos_iff.mpr fun h0 => by
      rcases List.take_eq_nil_iff.mp h0 with h0 | h0
      · cases h0
      · exact hdata h0
  have hadd : seg.seq + UInt32.ofNat (seg.data.take rcvBufSize).length = seg.seq := h.trans hseq.symm
  have hzero : UInt32.ofNat (seg.data.take rcvBufSize).length = 0 := by
    simpa using hadd
  have hnat := congrArg UInt32.toNat hzero
  rw [toNat_ofNat_of_lt' (by have : UInt32.size = 2 ^ 32 := rfl; omega)] at hnat
  have h0 : (0 : UInt32).toNat = 0 := rfl
  omega

theorem afterFin_eq {st : TcpState} : st.afterFin = st ↔ st = .closeWait := by
  cases st <;> decide

theorem sameConn_handled_iff :
    SameConn sock (sock.handled seg) ↔ Inert sock seg := by
  have hsame : ∀ {a : Sock}, SameConn a a := ⟨rfl, rfl, rfl, rfl, rfl, rfl, rfl⟩
  unfold Sock.handled Inert
  by_cases hrst : seg.isRst = true
  · rw [if_pos hrst, if_pos hrst]
    constructor
    · exact fun h => h.state.symm
    · intro h
      rw [← h]
      exact hsame
  rw [if_neg hrst, if_neg hrst]
  by_cases hsyn : sock.state = .synSent
  · rw [if_pos hsyn, if_pos hsyn]
    split
    · next hsa =>
      refine iff_of_false (fun h => ?_) (not_not.mpr hsa)
      have hst := h.state
      rw [hsyn] at hst
      cases hst
    · next hsa => exact iff_of_true hsame hsa
  rw [if_neg hsyn, if_neg hsyn]
  -- the acknowledgement changes `snd_una` alone
  have hack : (sock.takeAck seg).sndUna = sock.sndUna ↔ (seg.isAck = true → seg.ack = sock.sndUna) := by
    rw [takeAck_sndUna]
    split <;> simp_all
  have hrest : ∀ {a : Sock}, SameConn sock a → a.sndUna = sock.sndUna := fun h => h.sndUna
  have htake : SameConn sock (sock.takeAck seg) ↔ (sock.takeAck seg).sndUna = sock.sndUna := by
    refine ⟨hrest, fun h => ?_⟩
    unfold Sock.takeAck at h ⊢
    split
    · next ha =>
      rw [if_pos ha] at h
      exact ⟨rfl, rfl, rfl, h, rfl, rfl, rfl⟩
    · exact hsame
  by_cases hfin : seg.isFin = true
  · rw [if_pos hfin, if_pos hfin, ← hack, ← afterFin_eq]
    constructor
    · exact fun h => ⟨h.sndUna, h.rcvNxt, h.state⟩
    · rintro ⟨h1, h2, h3⟩
      have h := htake.mpr h1
      exact ⟨h3, h.sndNxt, h2, h.sndUna, h.isn, h.rcvBuf, h.rcvLen⟩
  rw [if_neg hfin, if_neg hfin]
  split
  · next hdata =>
    refine iff_of_false (fun h => ?_) fun h => h.2 hdata
    have hne := takeData_rcvNxt_ne (sock.takeAck seg) hdata.1
      (by rw [takeAck_rcvNxt]; exact hdata.2)
    rw [takeAck_rcvNxt] at hne
    exact hne h.rcvNxt
  next hdata =>
  rw [htake, hack]
  exact ⟨fun h => ⟨h, hdata⟩, fun h => h.1⟩

/-- A frame from elsewhere leaves a socket as it was exactly when it holds no segment for
    the socket's port, or one that tells it nothing new.  The peer of the socket is never
    looked at. -/
theorem isolated_iff (rounds : Nat) (s : Stack) (i : Fin tcpMaxSocks) (f : Frame) :
    Isolated rounds s i f ↔
      (Foreign (s.sockets i) f → ∀ seg, Reaches s f i seg → Inert (s.sockets i) seg) := by
  refine imp_congr_right fun _ => ⟨fun h seg hreach => ?_, fun h t hout => ?_⟩
  · obtain ⟨⟨⟩, t, hout⟩ := exists_outcome quiet_answers (tcpHandlePacket rounds f) s
    have hsame := h t hout
    rw [outcome_of_reaches rounds hreach hout, set_self] at hsame
    exact sameConn_handled_iff.mp hsame
  · by_cases hr : ∃ j seg, Reaches s f j seg
    · obtain ⟨j, seg, hreach⟩ := hr
      rw [outcome_of_reaches rounds hreach hout]
      by_cases hij : i = j
      · subst hij
        rw [set_self]
        exact sameConn_handled_iff.mpr (h seg hreach)
      rw [Stack.set_of_ne hij]
      exact ⟨rfl, rfl, rfl, rfl, rfl, rfl, rfl⟩
    have heq := outcome_of_not_reaches rounds (fun j seg hj => hr ⟨j, seg, hj⟩) hout
    rw [heq]
    exact ⟨rfl, rfl, rfl, rfl, rfl, rfl, rfl⟩

/-- A frame with the given bytes. -/
def Frame.ofBytes (bytes : List UInt8) : Frame where
  byte n := bytes.getD n 0
  len := UInt16.ofNat bytes.length

/-- A word in network order. -/
def be32Bytes (x : UInt32) : List UInt8 :=
  [(x >>> 24).toUInt8, (x >>> 16).toUInt8, (x >>> 8).toUInt8, x.toUInt8]

/-- A segment from port 80 of `srcIp` for port 40000 of this host, in an IPv4 packet with the
    given protocol and without a checksum. -/
def segmentFrame (proto : UInt8) (srcIp seq ack : UInt32) (flags : UInt8) (data : List UInt8) :
    Frame :=
  .ofBytes ([0, 0, 0, 0, 0, 0, 0, 0, 0, 0, 0, 0, 0x08, 0x00]
    ++ [0x45, 0, 0, UInt8.ofNat (40 + data.length), 0, 0, 0, 0, 64, proto, 0, 0]
    ++ be32Bytes srcIp ++ be32Bytes netHostIp
    ++ [0, 80, 0x9C, 0x40] ++ be32Bytes seq ++ be32Bytes ack ++ [0x50, flags, 0x10, 0, 0, 0, 0, 0]
    ++ data)

/-- The gateway's answer to an ARP request. -/
def gwArpReply : Frame :=
  .ofBytes ([0, 0, 0, 0, 0, 0, 0, 0, 0, 0, 0, 0, 0x08, 0x06]
    ++ [0, 1, 8, 0, 6, 4, 0, 2, 2, 0, 0, 0, 0, 1] ++ be32Bytes netGwIp
    ++ [2, 0, 0, 0, 0, 2] ++ be32Bytes netHostIp)

/-- A machine on which the clock stands still, addresses are resolved, and the polling loops
    receive `f` over and over. -/
def answering (f : Option Frame) : (q : Req) → q.Ans
  | .ticks => (0 : UInt32)
  | .recv .pktBuf => some gwArpReply
  | .recv .stack => f
  | .send _ => TxResult.ok

theorem receiving_pktBuf (P : RxBuf → Stack → Fin tcpMaxSocks → RxSegment → Prop) (s : Stack) :
    Receiving P s (.recv .pktBuf) (some gwArpReply) := by
  intro htcp
  have harp : gwArpReply.isTcp = false := by decide
  exact absurd (harp.symm.trans (htcp rfl)) (by decide)

theorem receiving_answering_none (P : RxBuf → Stack → Fin tcpMaxSocks → RxSegment → Prop)
    (s : Stack) (q : Req) : Receiving P s q (answering none q) := by
  match q with
  | .ticks | .send _ | .recv .stack => exact trivial
  | .recv .pktBuf => exact receiving_pktBuf P s

/-- `check`, where the polling loops ask for a frame. -/
def polling (check : Stack → Bool) : Stack → Req → Bool
  | s, .recv .stack => check s
  | _, _ => true

/-- A call during which the loops receive `f` is part of a run, if in the states in which they
    do the socket of its port may receive its segment. -/
theorem reached_polling {P : RxBuf → Stack → Fin tcpMaxSocks → RxSegment → Prop}
    {okCall : Stack → Call → Prop} {s₀ : Stack} {c : Call} {f : Frame} {check : Stack → Bool}
    (h : Reactive.Reached (calls okCall) (Receiving P) s₀ ⟨s, .ret ()⟩) (hcall : okCall s c)
    (hP : ∀ t, check t = true → ∀ i, findSockByPort t f.tcpFields.dstPort = some i →
      P .stack t i f.tcpFields)
    (hcheck : c.prog.execAll (polling check) (answering (some f)) s = true) :
    Reactive.Reached (calls okCall) (Receiving P) s₀
      ⟨c.prog.exec (answering (some f)) s, .ret ()⟩ := by
  refine h.exec_of_check ⟨c, hcall, rfl⟩ (fun t q ht => ?_) hcheck
  match q with
  | .ticks | .send _ => exact trivial
  | .recv .pktBuf => exact receiving_pktBuf P t
  | .recv .stack =>
    rintro - i seg ⟨hseg, hfind⟩
    unfold Frame.segment at hseg
    split at hseg <;> cases hseg
    exact hP t ht i hfind

/-- Surroundings that may do anything, and the runs in them. -/
abbrev FreeRun : Reactive.Conf Stack Req Req.Ans → Prop :=
  Reactive.Reached (calls fun _ _ => True) (fun _ _ _ => True) Stack.init

theorem FreeRun.exec (h : FreeRun ⟨s, .ret ()⟩) (f : Option Frame) (c : Call) :
    FreeRun ⟨c.prog.exec (answering f) s, .ret ()⟩ :=
  Reactive.Reached.exec (answering f) (fun _ _ => trivial) h ⟨c, trivial, rfl⟩

/-- `tcp_connect` to port 80 of the gateway, which answers with SYN and ACK. -/
def connected : Stack :=
  (Call.connect 1 netGwIp 80 1000).prog.exec
    (answering (some (segmentFrame ipTcp netGwIp 100 1 (tcpFlagSyn ||| tcpFlagAck) []))) Stack.init

theorem freeRun_connected : FreeRun ⟨connected, .ret ()⟩ :=
  FreeRun.exec .refl _ (.connect 1 netGwIp 80 1000)

/-- A reset that seems to come from 1.2.3.4. -/
def forgedReset (proto : UInt8) : Frame := segmentFrame proto 0x01020304 0 0 tcpFlagRst []

theorem forgedReset_reaches (h : proto = ipTcp ∨ proto = 17) :
    Reaches connected (forgedReset proto) 0 (forgedReset proto).tcpFields := by
  rcases h with rfl | rfl
  · exact ⟨by decide +kernel, by decide +kernel⟩
  · exact ⟨by decide +kernel, by decide +kernel⟩

/-- The reset closes the connection, whoever sent it. -/
theorem forgedReset_outcome (h : proto = ipTcp ∨ proto = 17)
    (hout : Outcome quiet (tcpHandlePacket rounds (forgedReset proto)) connected () t) :
    (t.sockets 0).state = .closed := by
  have hrst : (forgedReset proto).tcpFields.isRst = true := by
    rcases h with rfl | rfl <;> decide +kernel
  rw [outcome_of_reaches rounds (forgedReset_reaches h) hout, set_self, Sock.handled,
    if_pos hrst]

/-- A reset from another host and port closes the connection. -/
theorem forgedReset_not_isolated :
    FreeRun ⟨connected, .ret ()⟩ ∧ ¬ Isolated 0 connected 0 (forgedReset ipTcp) := by
  refine ⟨freeRun_connected, fun h => ?_⟩
  obtain ⟨⟨⟩, t, hout⟩ :=
    exists_outcome quiet_answers (tcpHandlePacket 0 (forgedReset ipTcp)) connected
  have hforeign : Foreign (connected.sockets 0) (forgedReset ipTcp) := Or.inl (by decide +kernel)
  have hsame := (h hforeign t hout).state
  rw [forgedReset_outcome (.inl rfl) hout] at hsame
  exact absurd hsame (by decide +kernel)

/-! ## The two receive paths -/

/-- A frame with an unfragmented, valid IPv4 packet that holds a TCP header: neither the
    more-fragments flag nor a fragment offset is set.  `net_parse_packet` looks at the upper
    five bits of the offset only. -/
def Frame.isWholeTcp (f : Frame) : Bool := f.isTcp && be16 f.byte 20 &&& 0x3FFF == 0

/-- The frame has the same effect on the sockets whether it is handed to `tcp_handle_packet`
    or to `net_parse_packet`, and no effect if it is not a whole TCP packet. -/
def PathsAgree (rounds : Nat) (s : Stack) (f : Frame) : Prop :=
  (∀ t u, Outcome quiet (tcpHandlePacket rounds f) s () t →
    Outcome quiet (netParsePacket (tcpHandlePacket rounds) f) s () u → t.sockets = u.sockets) ∧
  (f.isWholeTcp = false → ∀ t, Outcome quiet (tcpHandlePacket rounds f) s () t ∨
    Outcome quiet (netParsePacket (tcpHandlePacket rounds) f) s () t → t.sockets = s.sockets)

/-- A segment that leaves the socket as it is, the window of the peer included. -/
def Ignored (sock : Sock) (seg : RxSegment) : Prop :=
  Inert sock seg ∧ (seg.isRst = false → sock.state ≠ .synSent → seg.isAck = true →
    seg.window = sock.peerWindow)

theorem takeAck_peerWindow (sock : Sock) (seg : RxSegment) :
    (sock.takeAck seg).peerWindow = if seg.isAck then seg.window else sock.peerWindow := by
  unfold Sock.takeAck
  split <;> rfl

theorem handled_conn (sock : Sock) (seg : RxSegment) :
    (sock.handled seg).used = sock.used ∧ (sock.handled seg).dstIp = sock.dstIp ∧
      (sock.handled seg).dstPort = sock.dstPort ∧ (sock.handled seg).srcPort = sock.srcPort := by
  have htake : (sock.takeAck seg).used = sock.used ∧ (sock.takeAck seg).dstIp = sock.dstIp ∧
      (sock.takeAck seg).dstPort = sock.dstPort ∧ (sock.takeAck seg).srcPort = sock.srcPort := by
    unfold Sock.takeAck
    split <;> exact ⟨rfl, rfl, rfl, rfl⟩
  unfold Sock.handled
  split_ifs
  · exact ⟨rfl, rfl, rfl, rfl⟩
  · exact ⟨rfl, rfl, rfl, rfl⟩
  · exact ⟨rfl, rfl, rfl, rfl⟩
  · exact htake
  · exact htake
  · exact htake

theorem handled_peerWindow (hrst : seg.isRst = false)
    (hsyn : sock.state ≠ .synSent) :
    (sock.handled seg).peerWindow = if seg.isAck then seg.window else sock.peerWindow := by
  unfold Sock.handled
  rw [if_neg (by simp [hrst]), if_neg hsyn]
  split
  · exact takeAck_peerWindow ..
  · split <;> exact takeAck_peerWindow ..

theorem handled_eq_iff :
    sock.handled seg = sock ↔ Ignored sock seg := by
  constructor
  · intro h
    refine ⟨sameConn_handled_iff.mp ?_, fun hrst hsyn hack => ?_⟩
    · rw [h]
      exact ⟨rfl, rfl, rfl, rfl, rfl, rfl, rfl⟩
    · have hw := handled_peerWindow hrst hsyn
      rw [h, if_pos hack] at hw
      exact hw.symm
  · rintro ⟨hinert, hwindow⟩
    obtain ⟨hstate, hnxt, hrcv, huna, hisn, hbuf, hlen⟩ := sameConn_handled_iff.mpr hinert
    obtain ⟨hused, hip, hdport, hsport⟩ := handled_conn sock seg
    have hw : (sock.handled seg).peerWindow = sock.peerWindow := by
      by_cases hrst : seg.isRst = true
      · rw [Sock.handled, if_pos hrst]
      have hrst' : seg.isRst = false := by simpa using hrst
      by_cases hsyn : sock.state = .synSent
      · rw [Inert, if_neg hrst, if_pos hsyn] at hinert
        rw [Sock.handled, if_neg hrst, if_pos hsyn, if_neg hinert]
      rw [handled_peerWindow hrst' hsyn]
      split
      · next hack => exact hwindow hrst' hsyn hack
      · rfl
    generalize sock.handled seg = new at *
    cases sock
    cases new
    simp_all

theorem netParsePacket_of_isTcp {tcp : Frame → NetM Unit} (h : f.isTcp = true) :
    netParsePacket tcp f = tcp f := by
  simp only [Frame.isTcp, Bool.and_eq_true, decide_eq_true_eq, beq_iff_eq] at h
  obtain ⟨⟨⟨⟨hlen, hip⟩, hvalid⟩, hproto⟩, hroom⟩ := h
  have hicmp : ¬ (f.byte 23 = ipIcmp ∧ 14 + f.ipHlen + 8 ≤ f.len.toNat) := fun hp => by
    rw [hproto] at hp
    exact absurd hp.1 (by decide)
  unfold netParsePacket
  rw [if_neg (by simpa using hlen), if_neg (by rw [hip]; decide), if_pos hip, if_pos hvalid]
  simp only
  rw [if_neg hicmp, if_pos ⟨hproto, hroom⟩]

theorem outcome_of_not_isTcp (h : f.isTcp = false)
    (hout : Outcome quiet (netParsePacket (tcpHandlePacket rounds) f) s () t) :
    t.sockets = s.sockets := by
  have hwp : wp quiet (fun _ _ => True) (netParsePacket (tcpHandlePacket rounds) f)
      (fun _ t => True ∧ t.sockets = s.sockets) s := by
    refine keepsHandling_quiet.wp_netParsePacket trivial fun htcp => ?_
    rw [h] at htcp
    cases htcp
  exact (wp_iff.mp hwp () t hout).2

/-- The two receive paths agree on a frame exactly when it is a whole TCP packet, or holds
    nothing that any socket takes notice of. -/
theorem pathsAgree_iff (rounds : Nat) (s : Stack) (f : Frame) :
    PathsAgree rounds s f ↔
      (f.isWholeTcp = true ∨ ∀ i seg, Reaches s f i seg → Ignored (s.sockets i) seg) := by
  constructor
  · rintro ⟨-, hother⟩
    by_cases hwhole : f.isWholeTcp = true
    · exact .inl hwhole
    refine .inr fun i seg hreach => handled_eq_iff.mp ?_
    obtain ⟨⟨⟩, t, hout⟩ := exists_outcome quiet_answers (tcpHandlePacket rounds f) s
    have hsame := hother (by simpa using hwhole) t (Or.inl hout)
    rw [outcome_of_reaches rounds hreach hout] at hsame
    have hself := congrFun hsame i
    rwa [set_self] at hself
  · intro h
    -- what `tcp_handle_packet` does if the frame is not whole
    have hraw : f.isWholeTcp = false → ∀ t, Outcome quiet (tcpHandlePacket rounds f) s () t →
        t.sockets = s.sockets := by
      intro hwhole t hout
      rw [hwhole] at h
      by_cases hr : ∃ i seg, Reaches s f i seg
      · obtain ⟨i, seg, hreach⟩ := hr
        have hignored := (h.resolve_left (by decide)) i seg hreach
        rw [outcome_of_reaches rounds hreach hout, handled_eq_iff.mpr hignored]
        exact update_eq_self ..
      · rw [outcome_of_not_reaches rounds (fun i seg hi => hr ⟨i, seg, hi⟩) hout]
    by_cases htcp : f.isTcp = true
    · unfold PathsAgree
      rw [netParsePacket_of_isTcp htcp]
      refine ⟨fun t u => outcome_sockets_unique rounds, fun hwhole t hout => ?_⟩
      exact hraw hwhole t (hout.elim id id)
    have htcp' : f.isTcp = false := by simpa using htcp
    have hwhole : f.isWholeTcp = false := by rw [Frame.isWholeTcp, htcp', Bool.false_and]
    refine ⟨fun t u ht hu => ?_, fun _ t hout => ?_⟩
    · rw [hraw hwhole t ht, outcome_of_not_isTcp htcp' hu]
    · rcases hout with hout | hout
      · exact hraw hwhole t hout
      · exact outcome_of_not_isTcp htcp' hout

/-- A datagram of protocol 17 closes the connection when `tcp_poll_until` receives it, and
    not when `net_parse_packet` does. -/
theorem forgedReset_not_pathsAgree :
    FreeRun ⟨connected, .ret ()⟩ ∧ ¬ PathsAgree 0 connected (forgedReset 17) := by
  refine ⟨freeRun_connected, ?_⟩
  rintro ⟨hagree, -⟩
  obtain ⟨⟨⟩, t, ht⟩ :=
    exists_outcome quiet_answers (tcpHandlePacket 0 (forgedReset 17)) connected
  obtain ⟨⟨⟩, u, hu⟩ := exists_outcome quiet_answers
    (netParsePacket (tcpHandlePacket 0) (forgedReset 17)) connected
  have hclosed := forgedReset_outcome (.inr rfl) ht
  rw [hagree t u ht hu, outcome_of_not_isTcp (by decide +kernel) hu] at hclosed
  exact absurd hclosed (by decide +kernel)

end Noverix.Net
