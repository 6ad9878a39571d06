/-
  What the application reads of the peer's stream.

  A socket has one buffer, and in-order data replaces what is in it.  As long
  as it is empty when data arrives, and a FIN comes alone and last, the bytes
  that `tcp_recv` has returned and those that wait are together a prefix of the
  stream, and `rcv_nxt` stands right behind it.
-/

import Noverix.Lib.Serial
import Noverix.Net.Isolation

namespace Noverix.Net

open Lib

/-! ## Buffers -/

theorem bytesAt_copyTo (m : Mem) (bytes : List UInt8) :
    bytesAt (copyTo m bytes) 0 bytes.length = bytes := by
  apply ext_getElem
  · exact length_bytesAt ..
  · intro k _ hk
    simp [bytesAt, copyTo, hk]

theorem bytesAt_split (m : Mem) {n len : Nat} (h : n ≤ len) :
    bytesAt m 0 len = bytesAt m 0 n ++ bytesAt m n (len - n) := by
  obtain ⟨k, rfl⟩ := Nat.exists_eq_add_of_le h
  rw [Nat.add_sub_cancel_left]
  unfold bytesAt
  rw [range_add, map_append, map_map]
  simp [Function.comp_def]

theorem buffered_takeData (sock : Sock) (seg : RxSegment) :
    (sock.takeData seg).buffered = seg.data.take rcvBufSize := bytesAt_copyTo ..

theorem buffered_takeOut (sock : Sock) {n : Nat} (h : n ≤ sock.rcvLen) :
    bytesAt sock.rcvBuf 0 n ++ (sock.takeOut n).buffered = sock.buffered := by
  have hrest : (sock.takeOut n).buffered = bytesAt sock.rcvBuf n (sock.rcvLen - n) := by
    have hcopy := bytesAt_copyTo sock.rcvBuf (bytesAt sock.rcvBuf n (sock.rcvLen - n))
    rw [length_bytesAt] at hcopy
    exact hcopy
  rw [hrest]
  exact (bytesAt_split sock.rcvBuf h).symm

/-! ## The peer -/

/-- The bytes received on a socket: returned to the application, or waiting for it. -/
def Stack.received (s : Stack) (i : Fin tcpMaxSocks) : List UInt8 :=
  s.got i ++ (s.sockets i).buffered

/-- A segment with the bytes of the stream from position `k` on; `base` is the sequence number
    of the first byte, and a FIN comes behind the last. -/
structure Piece (stream : List UInt8) (base : UInt32) (seg : RxSegment) (k : Nat) : Prop where
  seq : seg.seq = base + UInt32.ofNat k
  inside : k + seg.data.length ≤ stream.length
  data : seg.data = (stream.drop k).take seg.data.length
  fin : seg.isFin = true → k + seg.data.length = stream.length

/-- What the socket needs of a piece: that it is not from half the sequence space away, that
    data which is next in order finds the buffer empty, and that a FIN has no data and nothing
    is missing before it. -/
structure InTurn (s : Stack) (i : Fin tcpMaxSocks) (seg : RxSegment) (k : Nat) : Prop where
  near : k < (s.received i).length + 2 ^ 31 ∧ (s.received i).length < k + 2 ^ 31
  empty : seg.isFin = false → seg.seq = (s.sockets i).rcvNxt → (s.sockets i).rcvLen = 0
  fin : seg.isFin = true → seg.data = [] ∧ k = (s.received i).length

/-- Surroundings in which socket `i` receives pieces of a stream, in turn.  Segments without
    data and FIN, and resets, are not restricted. -/
def FromPeer (stream : List UInt8) (base : UInt32) (i : Fin tcpMaxSocks) :
    Stack → (q : Req) → q.Ans → Prop :=
  Receiving fun _ s j seg => j = i → seg.isRst = false → seg.data ≠ [] ∨ seg.isFin = true →
    ∃ k, Piece stream base seg k ∧ InTurn s i seg k

/-- Any call but `tcp_close` of the socket. -/
def NotClosing (i : Fin tcpMaxSocks) (_ : Stack) : Call → Prop
  | .close _ j => j ≠ i
  | _ => True

/-! ## The invariant -/

/-- The socket is open, and has received a prefix of the stream up to `rcv_nxt`. -/
structure Intact (stream : List UInt8) (base : UInt32) (i : Fin tcpMaxSocks) (s : Stack) :
    Prop where
  used : (s.sockets i).used = true
  state : (s.sockets i).state ≠ .synSent
  bytes : s.received i <+: stream
  nxt : (s.sockets i).rcvNxt = base + UInt32.ofNat (s.received i).length ∨
    (s.received i = stream ∧ (s.sockets i).rcvNxt = base + UInt32.ofNat (stream.length + 1))

section

variable {stream : List UInt8} {base : UInt32} {i j : Fin tcpMaxSocks} {s t : Stack} {buf : RxBuf}
  {seg : RxSegment} {k : Nat}

theorem Intact.congr (h : Intact stream base i s) (hused : (t.sockets i).used = (s.sockets i).used)
    (hstate : (t.sockets i).state ≠ .synSent) (hrcv : t.received i = s.received i)
    (hnxt : (t.sockets i).rcvNxt = (s.sockets i).rcvNxt) : Intact stream base i t := by
  refine ⟨?_, hstate, ?_, ?_⟩
  · rw [hused]
    exact h.used
  · rw [hrcv]
    exact h.bytes
  · rw [hrcv, hnxt]
    exact h.nxt

theorem Intact.of_same (h : Intact stream base i s) (hsock : t.sockets i = s.sockets i)
    (hgot : t.got i = s.got i) : Intact stream base i t := by
  refine h.congr (by rw [hsock]) (by rw [hsock]; exact h.state) ?_ (by rw [hsock])
  unfold Stack.received
  rw [hsock, hgot]

theorem Intact.set {sock : Sock} (h : Intact stream base i s)
    (hused : j = i → sock.used = (s.sockets j).used) (hstate : j = i → sock.state ≠ .synSent)
    (hbuf : sock.rcvBuf = (s.sockets j).rcvBuf) (hlen : sock.rcvLen = (s.sockets j).rcvLen)
    (hnxt : sock.rcvNxt = (s.sockets j).rcvNxt) : Intact stream base i (s.set j sock) := by
  by_cases hij : j = i
  · have hself : (s.set j sock).sockets i = sock := by rw [hij, set_self]
    refine h.congr ?_ ?_ ?_ ?_
    · rw [hself, hused hij, hij]
    · rw [hself]
      exact hstate hij
    · unfold Stack.received Sock.buffered
      rw [hself, hbuf, hlen, hij]
      rfl
    · rw [hself, hnxt, hij]
  · exact h.of_same (Stack.set_of_ne (Ne.symm hij) _) rfl

/-- Numbers that agree modulo 2^32 and are not half the space apart are equal. -/
theorem position_eq {n : Nat} (h : base + UInt32.ofNat k = base + UInt32.ofNat n)
    (h1 : k < n + 2 ^ 31) (h2 : n < k + 2 ^ 31) : k = n := by
  rw [offset_inj] at h
  omega

/-- In-order data that finds the buffer empty is the next of the stream. -/
theorem Intact.takeData {sock : Sock} (h : Intact stream base i s) (hp : Piece stream base seg k)
    (ht : InTurn s i seg k) (hfin : seg.isFin = false)
    (hseq : seg.seq = (s.sockets i).rcvNxt) (hused : sock.used = (s.sockets i).used)
    (hstate : sock.state ≠ .synSent) : Intact stream base i (s.set i (sock.takeData seg)) := by
  have hinside := hp.inside
  -- the position is the number of bytes received
  have hk : k = (s.received i).length := by
    rcases h.nxt with hn | ⟨hall, hn⟩
    · exact position_eq (hp.seq.symm.trans (hseq.trans hn)) ht.near.1 ht.near.2
    have hnear := ht.near
    rw [hall] at hnear
    have heq := hp.seq.symm.trans (hseq.trans hn)
    rw [offset_inj] at heq
    omega
  have hgot : s.received i = s.got i := by
    unfold Stack.received Sock.buffered
    rw [ht.empty hfin hseq]
    exact append_nil _
  have hpre : s.got i = stream.take k := by
    rw [← hgot, hk]
    exact List.prefix_iff_eq_take.mp h.bytes
  have hself : (s.set i (sock.takeData seg)).sockets i = sock.takeData seg := set_self ..
  have hrcv : (s.set i (sock.takeData seg)).received i
      = stream.take (k + (seg.data.take rcvBufSize).length) := by
    unfold Stack.received
    rw [hself, buffered_takeData, List.take_add, Stack.set_got, hpre]
    congr 1
    rw [length_take]
    nth_rewrite 1 [hp.data]
    rw [take_take]
  have hlen : (seg.data.take rcvBufSize).length ≤ seg.data.length := by
    rw [length_take]
    exact Nat.min_le_right ..
  refine ⟨?_, ?_, ?_, .inl ?_⟩
  · rw [hself]
    exact hused.trans h.used
  · rw [hself]
    exact hstate
  · rw [hrcv]
    exact List.take_prefix ..
  · rw [hself, hrcv, List.length_take_of_le (by omega), ← offset_add, ← hp.seq]
    rfl

theorem Intact.takeFin {sock : Sock} (h : Intact stream base i s) (hp : Piece stream base seg k)
    (ht : InTurn s i seg k) (hfin : seg.isFin = true) (hused : sock.used = (s.sockets i).used)
    (hstate : sock.state ≠ .synSent) (hbuf : sock.rcvBuf = (s.sockets i).rcvBuf)
    (hlen : sock.rcvLen = (s.sockets i).rcvLen) :
    Intact stream base i (s.set i { sock with rcvNxt := seg.seq + 1 }) := by
  obtain ⟨hnil, hk⟩ := ht.fin hfin
  have hend := hp.fin hfin
  rw [hnil, length_nil, Nat.add_zero, hk] at hend
  have hall : s.received i = stream := h.bytes.eq_of_length hend
  have hself : (s.set i { sock with rcvNxt := seg.seq + 1 }).sockets i
      = { sock with rcvNxt := seg.seq + 1 } := set_self ..
  have hrcv : (s.set i { sock with rcvNxt := seg.seq + 1 }).received i = s.received i := by
    unfold Stack.received Sock.buffered
    rw [hself, ← hbuf, ← hlen]
    rfl
  refine ⟨?_, ?_, ?_, .inr ⟨hrcv.trans hall, ?_⟩⟩
  · rw [hself]
    exact hused.trans h.used
  · rw [hself]
    exact hstate
  · rw [hrcv]
    exact h.bytes
  · rw [hself, ← offset_add, ← hend, ← hk, ← hp.seq]
    rfl

theorem Intact.taken {n : Nat} (h : Intact stream base i s) (hn : n ≤ (s.sockets j).rcvLen) :
    Intact stream base i (s.taken j n) := by
  by_cases hij : j = i
  · subst hij
    have hself : (s.taken j n).sockets j = (s.sockets j).takeOut n := update_self ..
    have hgot : (s.taken j n).got j = s.got j ++ bytesAt (s.sockets j).rcvBuf 0 n :=
      update_self ..
    refine h.congr ?_ ?_ ?_ ?_
    · rw [hself]
      rfl
    · rw [hself]
      exact h.state
    · unfold Stack.received
      rw [hself, hgot, append_assoc, buffered_takeOut _ hn]
    · rw [hself]
      rfl
  have hne : i ≠ j := Ne.symm hij
  exact h.of_same (update_of_ne hne ..) (update_of_ne hne ..)

theorem takeAck_rcvBuf (sock : Sock) (seg : RxSegment) :
    (sock.takeAck seg).rcvBuf = sock.rcvBuf ∧ (sock.takeAck seg).rcvLen = sock.rcvLen := by
  unfold Sock.takeAck
  split <;> exact ⟨rfl, rfl⟩

theorem good_intact {u : Stack} (h : Intact stream base i u) :
    Good (fun _ t => Intact stream base i t) (Intact stream base i) (fun _ _ => True) buf s u :=
  ⟨h, h, fun _ => trivial⟩

theorem Intact.set_of_ne {sock : Sock} (h : Intact stream base i s) (hij : i ≠ j) :
    Intact stream base i (s.set j sock) := h.of_same (Stack.set_of_ne hij _) rfl

theorem keepsHandling_peer : KeepsHandling (FromPeer stream base i)
    (fun _ t => Intact stream base i t) (Intact stream base i) (fun _ _ => True) where
  refl _ := trivial
  trans _ _ := trivial
  aside h ha := good_intact (h.of_same (by rw [ha.sockets]) (by rw [ha.got]))
  answer _ _ h := good_intact (h.of_same rfl rfl)
  reset h _ _ := good_intact (h.set (fun _ => rfl) (fun _ => TcpState.noConfusion) rfl rfl rfl)
  synAck {buf s j seg} h _ _ hsyn _ _ _ := by
    have hij : i ≠ j := by
      rintro rfl
      exact h.state hsyn
    exact good_intact (h.set_of_ne hij)
  ack {buf s j seg} h hplain _ _ := by
    obtain ⟨hbuf, hlen⟩ := takeAck_rcvBuf (s.sockets j) seg
    refine good_intact (h.set (fun _ => takeAck_used ..) (fun _ => ?_) hbuf hlen (takeAck_rcvNxt ..))
    rw [takeAck_state]
    exact hplain.notSynSent
  data {buf s j seg} h hplain hfin hdata hseq := by
    by_cases hij : i = j
    · subst hij
      obtain ⟨k, hp, ht⟩ := hplain.arrives.allowed rfl hplain.notRst (.inl hdata)
      refine good_intact (h.takeData hp ht hfin hseq (takeAck_used ..) ?_)
      rw [takeAck_state]
      exact hplain.notSynSent
    · exact good_intact (h.set_of_ne hij)
  fin {buf s j seg} h hplain hfin := by
    by_cases hij : i = j
    · subst hij
      obtain ⟨k, hp, ht⟩ := hplain.arrives.allowed rfl hplain.notRst (.inr hfin)
      obtain ⟨hbuf, hlen⟩ := takeAck_rcvBuf (s.sockets i) seg
      refine good_intact (h.takeFin hp ht hfin (takeAck_used ..) ?_ hbuf hlen)
      rw [takeAck_state]
      exact hplain.notSynSent
    · exact good_intact (h.set_of_ne hij)
  finDone {buf s t j seg} _ _ _ _ h := by
    refine good_intact (h.set (fun _ => rfl) (fun _ => ?_) rfl rfl rfl)
    show (t.sockets j).state.afterFin ≠ .synSent
    cases (t.sockets j).state <;> decide

theorem keeps_peer : Keeps (FromPeer stream base i) (NotClosing i)
    (fun _ t => Intact stream base i t) (Intact stream base i) (fun _ _ => True) where
  toKeepsHandling := keepsHandling_peer
  connect {s j _ ip port _ isn} h _ hfree := by
    have hij : i ≠ j := by
      rintro rfl
      exact absurd (hfree.symm.trans h.used) (by decide)
    have hopen : Intact stream base i (s.opening j ip port isn) :=
      h.of_same (update_of_ne hij ..) (update_of_ne hij ..)
    exact ⟨hopen, hopen⟩
  syn _ _ h := ⟨h.of_same rfl rfl, h.of_same rfl rfl⟩
  synSent {s t u j ip port isn} _ _ h hu := by
    have hu' : Intact stream base i u := by
      rw [hu]
      exact h.of_same rfl rfl
    have hset : Intact stream base i
        (u.set j { u.sockets j with sndNxt := (u.sockets j).isn + 1 }) :=
      hu'.set (fun _ => rfl) (fun hij => hij ▸ hu'.state) rfl rfl rfl
    exact ⟨hset, hset⟩
  drop {s j} h hdrop := by
    have hij : i ≠ j := by
      rintro rfl
      rcases hdrop with ⟨s0, rounds, hok⟩ | ⟨s0, h0, hfree⟩
      · exact hok rfl
      · exact absurd (hfree.symm.trans h0.used) (by decide)
    exact ⟨h.set_of_ne hij, h.set_of_ne hij⟩
  rewind {s j _ _ _ _} h _ _ _ := by
    have hset : Intact stream base i (s.rewound j) :=
      h.set (fun _ => rfl) (fun hij => hij ▸ h.state) rfl rfl rfl
    exact ⟨hset, hset⟩
  push _ _ _ _ _ h := ⟨h.of_same rfl rfl, h.of_same rfl rfl⟩
  pushed {s t u j _ data len _} _ _ _ _ _ h hu := by
    have hu' : Intact stream base i u := by
      rw [hu]
      exact h.of_same rfl rfl
    have hset : Intact stream base i (u.set j { u.sockets j with
        sndNxt := (u.sockets j).sndUna + UInt32.ofNat (min len.toNat rcvBufSize) }) :=
      hu'.set (fun _ => rfl) (fun hij => hij ▸ hu'.state) rfl rfl rfl
    exact ⟨hset, hset⟩
  take h _ hn := ⟨h.taken hn, h.taken hn⟩
  finish _ _ _ _ _ h := ⟨h.of_same rfl rfl, h.of_same rfl rfl⟩
  finished {s t u j _} _ _ _ _ _ h hu := by
    have hu' : Intact stream base i u := by
      rcases hu with rfl | rfl
      · exact h
      · exact h.of_same rfl rfl
    have hset : Intact stream base i
        (u.set j { u.sockets j with sndNxt := (u.sockets j).sndNxt + 1, state := .finWait1 }) :=
      hu'.set (fun _ => rfl) (fun _ => TcpState.noConfusion) rfl rfl rfl
    exact ⟨hset, hset⟩

end

/-! ## Runs -/

/-- A socket that has just been connected; `base` is the sequence number of the first byte to
    come. -/
structure Fresh (base : UInt32) (i : Fin tcpMaxSocks) (s : Stack) : Prop where
  used : (s.sockets i).used = true
  state : (s.sockets i).state = .established
  got : s.got i = []
  len : (s.sockets i).rcvLen = 0
  nxt : (s.sockets i).rcvNxt = base

theorem Fresh.intact {stream : List UInt8} {base : UInt32} {i : Fin tcpMaxSocks} {s : Stack}
    (h : Fresh base i s) : Intact stream base i s := by
  have hrcv : s.received i = [] := by
    unfold Stack.received Sock.buffered
    rw [h.got, h.len]
    rfl
  refine ⟨h.used, ?_, ?_, .inl ?_⟩
  · rw [h.state]
    decide
  · rw [hrcv]
    exact List.nil_prefix
  · rw [hrcv, h.nxt]
    exact (UInt32.add_zero _).symm

/-- In every run in which the pieces of the peer's stream arrive in turn, in any segmentation
    and with any calls in between, what the application has read is a prefix of the stream, and
    every byte below `rcv_nxt` has been read or waits to be, once. -/
theorem recv_intact {stream : List UInt8} {base : UInt32} {i : Fin tcpMaxSocks} {s₀ : Stack}
    {c : Reactive.Conf Stack Req Req.Ans} (h₀ : Fresh base i s₀)
    (hc : Reactive.Reached (calls (NotClosing i)) (FromPeer stream base i) s₀ c) :
    c.st.got i <+: stream ∧
    ∃ n, c.st.got i ++ (c.st.sockets i).buffered = stream.take n ∧ n ≤ stream.length ∧
      ((c.st.sockets i).rcvNxt = base + UInt32.ofNat n ∨
        (n = stream.length ∧ (c.st.sockets i).rcvNxt = base + UInt32.ofNat (n + 1))) := by
  have hintact : Intact stream base i c.st :=
    hc.invariant (R := fun _ t => Intact stream base i t) (J := Intact stream base i)
      h₀.intact (fun _ _ _ hr => hr) h₀.intact fun s p h hp => keeps_peer.call h hp
  refine ⟨(List.prefix_append ..).trans hintact.bytes, (c.st.received i).length,
    List.prefix_iff_eq_take.mp hintact.bytes, hintact.bytes.length_le, ?_⟩
  rcases hintact.nxt with hn | ⟨hall, hn⟩
  · exact .inl hn
  rw [hall]
  exact .inr ⟨rfl, hn⟩

theorem fresh_connected : Fresh 101 0 connected :=
  ⟨by decide +kernel, by decide +kernel, by decide +kernel, by decide +kernel, by decide +kernel⟩

/-- The peer's data, one byte to a segment. -/
def firstByte : Frame := segmentFrame ipTcp netGwIp 101 1 (tcpFlagPsh ||| tcpFlagAck) [65]
def secondByte : Frame := segmentFrame ipTcp netGwIp 102 1 (tcpFlagPsh ||| tcpFlagAck) [66]

/-- `tcp_recv` on the connection, while the first byte arrives. -/
def readFirst : Stack := (Call.recv 2 0 10 1000).prog.exec (answering (some firstByte)) connected

theorem piece_firstByte : Piece [65, 66] 101 firstByte.tcpFields 0 :=
  ⟨by decide +kernel, by decide +kernel, by decide +kernel, by decide +kernel⟩

theorem recv_intact_readFirst :
    Reactive.Reached (calls (NotClosing 0)) (FromPeer [65, 66] 101 0) connected
      ⟨readFirst, .ret ()⟩ ∧ readFirst.got 0 = [65] ∧ (readFirst.sockets 0).rcvNxt = 102 ∧
      readFirst.got 0 <+: [65, 66] := by
  have hseq : firstByte.tcpFields.seq = 101 ∧ firstByte.tcpFields.isFin = false := by decide +kernel
  have hinTurn : ∀ t : Stack, decide ((t.received 0).length < 2 ^ 31 ∧
      ((t.sockets 0).rcvNxt = 101 → (t.sockets 0).rcvLen = 0)) = true →
      InTurn t 0 firstByte.tcpFields 0 := by
    intro t ht
    obtain ⟨hshort, hempty⟩ := of_decide_eq_true ht
    refine ⟨⟨by omega, by omega⟩, fun _ hnext => hempty (hnext.symm.trans hseq.1), fun hfin => ?_⟩
    exact absurd (hseq.2.symm.trans hfin) (by decide)
  have hreach : Reactive.Reached (calls (NotClosing 0)) (FromPeer [65, 66] 101 0) connected
      ⟨readFirst, .ret ()⟩ :=
    @reached_polling _ _ _ _ (.recv 2 0 10 1000) _ _ .refl trivial
      (fun t ht i _ _ _ _ => ⟨0, piece_firstByte, hinTurn t ht⟩) (by decide +kernel)
  exact ⟨hreach, by decide +kernel, by decide +kernel, (recv_intact fresh_connected hreach).1⟩

/-- Both segments arrive before the application reads. -/
def overrun : Stack :=
  (Call.recv 1 0 10 1000).prog.exec (answering none)
    ((Call.handle 1).prog.exec (answering (some secondByte))
      ((Call.handle 1).prog.exec (answering (some firstByte)) connected))

/-- The first byte is lost, although it has been acknowledged. -/
theorem overrun_not_intact : FreeRun ⟨overrun, .ret ()⟩ ∧ Fresh 101 0 connected ∧
    Piece [65, 66] 101 firstByte.tcpFields 0 ∧ Piece [65, 66] 101 secondByte.tcpFields 1 ∧
    overrun.got 0 = [66] ∧ (overrun.sockets 0).rcvNxt = 103 ∧ ¬ overrun.got 0 <+: [65, 66] := by
  have hgot : overrun.got 0 = [66] := by decide +kernel
  refine ⟨((freeRun_connected.exec _ _).exec _ _).exec _ _, fresh_connected, ?_, ?_, hgot,
    by decide +kernel, ?_⟩
  · exact piece_firstByte
  · exact ⟨by decide +kernel, by decide +kernel, by decide +kernel, by decide +kernel⟩
  · rw [hgot]
    decide

end Noverix.Net
