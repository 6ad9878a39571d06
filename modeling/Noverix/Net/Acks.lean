/-
  What `snd_una` may become.

  `tcp_handle_packet` takes every acknowledgement number as it is.  If those
  that arrive lie between `snd_una` and what has been sent, then `snd_una` only
  moves forward and never passes what has been sent, over every run.

  The invariant places `snd_una`, the highest number sent and `snd_nxt` at
  offsets from the initial sequence number that stay within one buffer of each
  other; so comparisons modulo 2^32 never go wrong.
-/

import Noverix.Lib.Serial
import Noverix.Net.Isolation

namespace Noverix.Net

open Lib

variable {sock : Sock} {m : Nat}

/-! ## What has been sent -/

/-- The sequence numbers that a segment takes up: its data, SYN and FIN. -/
def Segment.span (seg : Segment) : Nat :=
  seg.data.length + (if seg.flags &&& tcpFlagSyn ≠ 0 then 1 else 0)
    + (if seg.flags &&& tcpFlagFin ≠ 0 then 1 else 0)

/-- The sequence number behind a segment. -/
def Segment.next (seg : Segment) : UInt32 := seg.seq + UInt32.ofNat seg.span

/-- The sequence number behind all that has been sent on a socket. -/
def Stack.highest (s : Stack) (i : Fin tcpMaxSocks) : UInt32 :=
  (s.sent i).foldl (fun h seg => if seg.span = 0 then h else laterOf h seg.next) (s.sockets i).isn

section

variable {s : Stack} {i j : Fin tcpMaxSocks}

theorem highest_congr {t : Stack} (hsent : t.sent i = s.sent i)
    (hisn : (t.sockets i).isn = (s.sockets i).isn) : t.highest i = s.highest i := by
  unfold Stack.highest
  rw [hsent, hisn]

theorem highest_set (hisn : sock.isn = (s.sockets i).isn) (j : Fin tcpMaxSocks) :
    (s.set i sock).highest j = s.highest j := by
  apply highest_congr
  · rfl
  · rw [Stack.set_sockets]
    split
    · next hij => rw [hij, hisn]
    · rfl

theorem highest_emit (seg : Segment) : (s.emit i seg).highest i =
    if seg.span = 0 then s.highest i else laterOf (s.highest i) seg.next := by
  unfold Stack.highest
  rw [emit_sent, if_pos rfl, foldl_append]
  rfl

theorem highest_emit_of_ne (hij : j ≠ i) (seg : Segment) :
    (s.emit i seg).highest j = s.highest j := by
  apply highest_congr
  · rw [emit_sent, if_neg hij]
  · rfl

end

/-! ## Acknowledgements -/

/-- `ack` lies in `(una, high]`. -/
def Acceptable (una high ack : UInt32) : Prop := ack ≠ una ∧ gap una ack ≤ gap una high

/-- An acknowledgement outside the handshake is of something that has been sent, and not less
    than the ones before. -/
def AckOk (s : Stack) (i : Fin tcpMaxSocks) (seg : RxSegment) : Prop :=
  seg.isRst = false → (s.sockets i).state ≠ .synSent → seg.isAck = true →
    gap (s.sockets i).sndUna seg.ack ≤ gap (s.sockets i).sndUna (s.highest i)

/-- Surroundings in which only such acknowledgements arrive. -/
def AcksOfSent : Stack → (q : Req) → q.Ans → Prop := Receiving fun _ s i seg => AckOk s i seg

/-- A frame leaves `snd_una` where it is unless it acknowledges something new, and otherwise
    moves it forward, not past what has been sent. -/
def FrameAckSound (rounds : Nat) (s : Stack) (i : Fin tcpMaxSocks) (f : Frame) : Prop :=
  ∀ t, Outcome quiet (tcpHandlePacket rounds f) s () t → ∀ seg, Reaches s f i seg →
    (¬ Acceptable (s.sockets i).sndUna (s.highest i) seg.ack →
      (t.sockets i).sndUna = (s.sockets i).sndUna) ∧
    gap (s.sockets i).sndUna (t.sockets i).sndUna ≤ gap (s.sockets i).sndUna (s.highest i)

/-! ## Offsets -/

/-- `snd_una`, the highest number sent and `snd_nxt`, as offsets from the initial sequence
    number. -/
structure Offsets (s : Stack) (i : Fin tcpMaxSocks) (u h n : Nat) : Prop where
  una : (s.sockets i).sndUna = (s.sockets i).isn + UInt32.ofNat u
  high : s.highest i = (s.sockets i).isn + UInt32.ofNat h
  nxt : (s.sockets i).sndNxt = (s.sockets i).isn + UInt32.ofNat n
  unaLe : u ≤ h
  highLe : h ≤ u + 1461
  nxtLe : n ≤ u + 1461
  lag : h ≤ n + 1461
  synSent : (s.sockets i).state = .synSent → u = 0 ∧ n ≤ h
  established : (s.sockets i).state = .established → n ≤ u + 1460

/-- Every socket has such offsets. -/
def Placed (s : Stack) : Prop := ∀ i, ∃ u h n, Offsets s i u h n

/-- `snd_una` moves forward, up to what has been sent. -/
def Forward (s t : Stack) : Prop :=
  ∀ i, (s.sockets i).used = true →
    gap (s.sockets i).sndUna (t.sockets i).sndUna ≤ gap (s.sockets i).sndUna (s.highest i)

/-- What handling frames does to the numbers of a socket. -/
structure Acked (s t : Stack) (i : Fin tcpMaxSocks) : Prop where
  isn : (t.sockets i).isn = (s.sockets i).isn
  nxt : (t.sockets i).sndNxt = (s.sockets i).sndNxt
  high : t.highest i = s.highest i
  una : gap (s.sockets i).sndUna (t.sockets i).sndUna ≤ gap (s.sockets i).sndUna (s.highest i)
  state : (t.sockets i).state = .synSent → (s.sockets i).state = .synSent

section

variable {buf : RxBuf} {s t u : Stack} {i j : Fin tcpMaxSocks} {seg : RxSegment} {a h n : Nat}

theorem Acked.refl (s : Stack) (i : Fin tcpMaxSocks) : Acked s s i :=
  ⟨rfl, rfl, rfl, by rw [gap_self]; exact Nat.zero_le _, fun h => h⟩

theorem Acked.trans (h1 : Acked s t i) (h2 : Acked t u i) : Acked s u i := by
  have huna := h2.una
  rw [h1.high] at huna
  exact ⟨h2.isn.trans h1.isn, h2.nxt.trans h1.nxt, h2.high.trans h1.high, gap_trans h1.una huna,
    fun h => h1.state (h2.state h)⟩

section

variable (ho : Offsets s i a h n)
include ho

theorem Offsets.gap_high : gap (s.sockets i).sndUna (s.highest i) = h - a := by
  have hle := ho.highLe
  rw [ho.una, ho.high, gap_offset _ ho.unaLe (by omega)]

theorem Offsets.exists_offset {x : UInt32}
    (hx : gap (s.sockets i).sndUna x ≤ gap (s.sockets i).sndUna (s.highest i)) :
    ∃ d, a + d ≤ h ∧ x = (s.sockets i).isn + UInt32.ofNat (a + d) := by
  have hle := ho.unaLe
  rw [ho.gap_high] at hx
  refine ⟨gap (s.sockets i).sndUna x, by omega, ?_⟩
  rw [← offset_add, ← ho.una, add_gap]

theorem Offsets.acked (ha : Acked s t i)
    (hsyn : (t.sockets i).state = .synSent → (t.sockets i).sndUna = (s.sockets i).sndUna)
    (hest : ∀ d, (t.sockets i).sndUna = (s.sockets i).isn + UInt32.ofNat (a + d) → a + d ≤ h →
      (t.sockets i).state = .established → n ≤ a + d + 1460) :
    ∃ d, a + d ≤ h ∧ Offsets t i (a + d) h n := by
  obtain ⟨d, hd, hx⟩ := ho.exists_offset ha.una
  have hhigh := ho.highLe
  have hnxt := ho.nxtLe
  refine ⟨d, hd, ?_, ?_, ?_, hd, by omega, by omega, ho.lag, fun hst => ?_, hest d hx hd⟩
  · rw [ha.isn, hx]
  · rw [ha.isn, ha.high, ho.high]
  · rw [ha.isn, ha.nxt, ho.nxt]
  · obtain ⟨h0, hn⟩ := ho.synSent (ha.state hst)
    -- the offset is the same modulo 2^32, and both are small
    have heq := hx.symm.trans ((hsyn hst).trans ho.una)
    rw [offset_inj] at heq
    have hpow : (2 : Nat) ^ 32 = 4294967296 := rfl
    rw [hpow] at heq
    omega

theorem Offsets.congr (hsock : t.sockets i = s.sockets i) (hhigh : t.highest i = s.highest i) :
    Offsets t i a h n := by
  obtain ⟨h1, h2, h3, h4, h5, h6, h7, h8, h9⟩ := ho
  refine ⟨?_, ?_, ?_, h4, h5, h6, h7, ?_, ?_⟩
  · rw [hsock, h1]
  · rw [hsock, hhigh, h2]
  · rw [hsock, h3]
  · rw [hsock]
    exact h8
  · rw [hsock]
    exact h9

end

theorem Placed.set (hp : Placed s) (hisn : sock.isn = (s.sockets i).isn)
    (hi : ∃ u h n, Offsets (s.set i sock) i u h n) : Placed (s.set i sock) := by
  intro j
  by_cases hij : j = i
  · subst hij
    exact hi
  obtain ⟨u, h, n, ho⟩ := hp j
  exact ⟨u, h, n, ho.congr (Stack.set_of_ne hij _) (highest_set hisn j)⟩

theorem Placed.of_same (hp : Placed s) (hsock : t.sockets = s.sockets)
    (hsent : t.sent = s.sent) : Placed t := by
  intro i
  obtain ⟨u, h, n, ho⟩ := hp i
  exact ⟨u, h, n, ho.congr (by rw [hsock]) (highest_congr (by rw [hsent]) (by rw [hsock]))⟩

/-- The condition on every store of a run. -/
def AckStep (s t : Stack) : Prop := Forward s t ∧ Placed t

theorem acked_set (hisn : sock.isn = (s.sockets i).isn)
    (hnxt : sock.sndNxt = (s.sockets i).sndNxt)
    (huna : gap (s.sockets i).sndUna sock.sndUna ≤ gap (s.sockets i).sndUna (s.highest i))
    (hstate : sock.state = .synSent → (s.sockets i).state = .synSent) (j : Fin tcpMaxSocks) :
    Acked s (s.set i sock) j := by
  by_cases hij : j = i
  · subst hij
    refine ⟨?_, ?_, highest_set hisn j, ?_, ?_⟩ <;> rw [set_self]
    · exact hisn
    · exact hnxt
    · exact huna
    · exact hstate
  have hsock : (s.set i sock).sockets j = s.sockets j := Stack.set_of_ne hij _
  refine ⟨?_, ?_, highest_set hisn j, ?_, fun h => ?_⟩
  · rw [hsock]
  · rw [hsock]
  · rw [hsock, gap_self]
    exact Nat.zero_le _
  · rwa [hsock] at h

section

variable (hp : Placed s) (hisn : sock.isn = (s.sockets i).isn)
  (hnxt : sock.sndNxt = (s.sockets i).sndNxt)
include hp hisn hnxt

theorem good_acked
    (huna : gap (s.sockets i).sndUna sock.sndUna ≤ gap (s.sockets i).sndUna (s.highest i))
    (hsyn : sock.state = .synSent → (s.sockets i).state = .synSent ∧ sock.sndUna = (s.sockets i).sndUna)
    (hest : sock.state = .established → (s.sockets i).state = .established ∨
      sock.sndUna = sock.sndNxt) :
    Good AckStep Placed (fun s t => ∀ i, Acked s t i) buf s (s.set i sock) := by
  have hacked := acked_set hisn hnxt huna fun h => (hsyn h).1
  have hplaced : Placed (s.set i sock) := by
    obtain ⟨a, h, n, ho⟩ := hp i
    refine hp.set hisn ?_
    have hself : (s.set i sock).sockets i = sock := set_self ..
    suffices hacked' : ∃ d, a + d ≤ h ∧ Offsets (s.set i sock) i (a + d) h n by
      obtain ⟨d, -, ho'⟩ := hacked'
      exact ⟨a + d, h, n, ho'⟩
    refine ho.acked (hacked i) (fun hst => ?_) fun d hx hd hst => ?_
    · rw [hself] at hst ⊢
      exact (hsyn hst).2
    · rw [hself] at hx hst
      rcases hest hst with hst | heq
      · have hn := ho.established hst
        omega
      -- `snd_una` is `snd_nxt`, and both offsets are small
      rw [heq, hnxt, ho.nxt, offset_inj] at hx
      have hnLe := ho.nxtLe
      have hpow : (2 : Nat) ^ 32 = 4294967296 := rfl
      rw [hpow] at hx
      omega
  exact ⟨⟨fun j _ => (hacked j).una, hplaced⟩, hplaced, fun _ => hacked⟩

theorem good_state (huna : sock.sndUna = (s.sockets i).sndUna)
    (hst : sock.state = (s.sockets i).state ∨ (sock.state ≠ .synSent ∧ sock.state ≠ .established)) :
    Good AckStep Placed (fun s t => ∀ i, Acked s t i) buf s (s.set i sock) := by
  refine good_acked hp hisn hnxt ?_ (fun h => ⟨?_, huna⟩) (fun h => .inl ?_)
  · rw [huna, gap_self]
    exact Nat.zero_le _
  · rcases hst with hst | ⟨hst, -⟩
    · rw [← hst, h]
    · exact absurd h hst
  · rcases hst with hst | ⟨-, hst⟩
    · rw [← hst, h]
    · exact absurd h hst

end

theorem afterFin_ne (st : TcpState) : st.afterFin ≠ .synSent ∧ st.afterFin ≠ .established := by
  cases st <;> decide

theorem takeAck_isn (sock : Sock) (seg : RxSegment) : (sock.takeAck seg).isn = sock.isn := by
  unfold Sock.takeAck
  split <;> rfl

theorem takeAck_sndNxt (sock : Sock) (seg : RxSegment) :
    (sock.takeAck seg).sndNxt = sock.sndNxt := by
  unfold Sock.takeAck
  split <;> rfl

theorem good_takeAck (hp : Placed s) (hplain : Plain AcksOfSent buf s i seg)
    (hisn : sock.isn = ((s.sockets i).takeAck seg).isn)
    (hnxt : sock.sndNxt = ((s.sockets i).takeAck seg).sndNxt)
    (huna : sock.sndUna = ((s.sockets i).takeAck seg).sndUna)
    (hstate : sock.state = ((s.sockets i).takeAck seg).state) :
    Good AckStep Placed (fun s t => ∀ i, Acked s t i) buf s (s.set i sock) := by
  rw [takeAck_isn] at hisn
  rw [takeAck_sndNxt] at hnxt
  rw [takeAck_sndUna] at huna
  rw [takeAck_state] at hstate
  refine good_acked hp hisn hnxt ?_ (fun h => ?_) (fun h => .inl ?_)
  · rw [huna]
    split
    · next hack => exact hplain.arrives.allowed hplain.notRst hplain.notSynSent hack
    rw [gap_self]
    exact Nat.zero_le _
  · rw [hstate] at h
    exact absurd h hplain.notSynSent
  · rw [← hstate, h]

theorem Offsets.gap_nxt (ho : Offsets s i a h n) (hsyn : (s.sockets i).state = .synSent) :
    gap (s.sockets i).sndUna (s.sockets i).sndNxt ≤ gap (s.sockets i).sndUna (s.highest i) := by
  obtain ⟨rfl, hn⟩ := ho.synSent hsyn
  have hh := ho.highLe
  rw [ho.gap_high, ho.una, ho.nxt, gap_offset _ (Nat.zero_le n) (by omega)]
  omega

theorem span_segment (sock : Sock) (flags : UInt8) (data : List UInt8) :
    (sock.segment flags data).span = data.length + (if flags &&& tcpFlagSyn ≠ 0 then 1 else 0)
      + (if flags &&& tcpFlagFin ≠ 0 then 1 else 0) := rfl

theorem span_answer (sock : Sock) : (sock.segment tcpFlagAck []).span = 0 := by
  rw [span_segment]
  decide

theorem Placed.emit_answer (hp : Placed t) (sock : Sock) :
    Placed (t.emit i (sock.segment tcpFlagAck [])) ∧
      ∀ j, (t.emit i (sock.segment tcpFlagAck [])).highest j = t.highest j := by
  have hhigh : ∀ j, (t.emit i (sock.segment tcpFlagAck [])).highest j = t.highest j := by
    intro j
    by_cases hij : j = i
    · subst hij
      rw [highest_emit, if_pos (span_answer sock)]
    · exact highest_emit_of_ne hij _
  refine ⟨fun j => ?_, hhigh⟩
  obtain ⟨u, h, n, ho⟩ := hp j
  exact ⟨u, h, n, ho.congr rfl (hhigh j)⟩

theorem acked_of_same (hsock : t.sockets = s.sockets) (hhigh : ∀ j, t.highest j = s.highest j)
    (j : Fin tcpMaxSocks) : Acked s t j := by
  refine ⟨?_, ?_, hhigh j, ?_, fun h => ?_⟩
  · rw [hsock]
  · rw [hsock]
  · rw [hsock, gap_self]
    exact Nat.zero_le _
  · rwa [hsock] at h

theorem keepsHandling_acks :
    KeepsHandling AcksOfSent AckStep Placed (fun s t => ∀ i, Acked s t i) where
  refl s i := Acked.refl s i
  trans h h' i := (h i).trans (h' i)
  aside {s t} hp ha := by
    have hacked : ∀ j, Acked s t j := acked_of_same ha.sockets fun j =>
      highest_congr (by rw [ha.sent]) (by rw [ha.sockets])
    have hplaced := hp.of_same ha.sockets ha.sent
    exact ⟨⟨fun j _ => (hacked j).una, hplaced⟩, hplaced, fun _ => hacked⟩
  answer {s t i} _ _ hp := by
    obtain ⟨hplaced, hhigh⟩ := hp.emit_answer (i := i) (s.sockets i)
    have hacked : ∀ j, Acked t (t.emit i ((s.sockets i).segment tcpFlagAck [])) j :=
      acked_of_same rfl hhigh
    exact ⟨⟨fun j _ => (hacked j).una, hplaced⟩, hplaced, fun _ => hacked⟩
  reset hp _ _ := good_state hp rfl rfl rfl (.inr ⟨TcpState.noConfusion, TcpState.noConfusion⟩)
  synAck {buf s i seg} hp _ _ hsyn _ _ hack := by
    obtain ⟨a, h, n, ho⟩ := hp i
    refine good_acked hp rfl rfl ?_ (fun h => by cases h) (fun _ => .inr hack)
    show gap (s.sockets i).sndUna seg.ack ≤ _
    rw [hack]
    exact ho.gap_nxt hsyn
  ack hp hplain _ _ := good_takeAck hp hplain rfl rfl rfl rfl
  data hp hplain _ _ _ := good_takeAck hp hplain rfl rfl rfl rfl
  fin hp hplain _ := good_takeAck hp hplain rfl rfl rfl rfl
  finDone _ _ _ _ hp := good_state hp rfl rfl rfl (.inr (afterFin_ne _))

end

/-! ## Calls -/

section

variable {s t u : Stack} {i j : Fin tcpMaxSocks} {a h n e : Nat}

theorem Offsets.during (ho : Offsets s i a h n) (ha : Acked s t i) (hn : n ≤ a + 1460)
    (hsyn : (t.sockets i).state = .synSent → h = 0) : ∃ d, a + d ≤ h ∧ Offsets t i (a + d) h n := by
  refine ho.acked ha (fun hst => ?_) fun d _ _ _ => by omega
  have hgap := ha.una
  have hle := ho.unaLe
  have h0 := hsyn hst
  rw [ho.gap_high] at hgap
  have hzero : gap (s.sockets i).sndUna (t.sockets i).sndUna = 0 := by omega
  have hadd := add_gap (s.sockets i).sndUna (t.sockets i).sndUna
  rw [hzero] at hadd
  rw [← hadd]
  exact UInt32.add_zero _

theorem Offsets.emit (ho : Offsets t i a h n) {seg : Segment} (hspan : seg.span ≠ 0)
    (hnext : seg.next = (t.sockets i).isn + UInt32.ofNat e) (hea : e ≤ a + 1461)
    (hen : e ≤ n + 1461) (hhe : h ≤ e + 1461) : Offsets (t.emit i seg) i a (max h e) n := by
  have hle := ho.unaLe
  have hh := ho.highLe
  have hlag := ho.lag
  refine ⟨ho.una, ?_, ho.nxt, by omega, by omega, ho.nxtLe, by omega, fun hst => ?_,
    ho.established⟩
  · rw [highest_emit, if_neg hspan, ho.high, hnext]
    exact laterOf_offset _ (by omega) (by omega)
  · obtain ⟨h0, hn⟩ := ho.synSent hst
    exact ⟨h0, by omega⟩

theorem Placed.emit {seg : Segment} (hp : Placed t) (hi : ∃ u h n, Offsets (t.emit i seg) i u h n) :
    Placed (t.emit i seg) := by
  intro j
  by_cases hij : j = i
  · subst hij
    exact hi
  obtain ⟨u, h, n, ho⟩ := hp j
  exact ⟨u, h, n, ho.congr rfl (highest_emit_of_ne hij seg)⟩

theorem forward_of_una (h : ∀ j, (s.sockets j).used = true →
    (t.sockets j).sndUna = (s.sockets j).sndUna) : Forward s t := by
  intro j hused
  rw [h j hused, gap_self]
  exact Nat.zero_le _

theorem ackStep_emit {seg : Segment} (hp : Placed (t.emit i seg)) : AckStep t (t.emit i seg) :=
  ⟨forward_of_una fun _ _ => rfl, hp⟩

theorem ackStep_set (huna : sock.sndUna = (s.sockets i).sndUna)
    (hp : Placed (s.set i sock)) : AckStep s (s.set i sock) := by
  refine ⟨forward_of_una fun j _ => ?_, hp⟩
  rw [Stack.set_sockets]
  split
  · next hij => rw [huna, hij]
  · rfl

section

variable (ho : Offsets s i a h n) (hisn : sock.isn = (s.sockets i).isn)
  (huna : sock.sndUna = (s.sockets i).sndUna)
  (hnxt : sock.sndNxt = (s.sockets i).isn + UInt32.ofNat m) (hle : m ≤ a + 1461)
  (hlag : h ≤ m + 1461) (hsyn : sock.state = .synSent → a = 0 ∧ m ≤ h)
  (hest : sock.state = .established → m ≤ a + 1460)
include ho hisn huna hnxt hle hlag hsyn hest

theorem Offsets.set_nxt : Offsets (s.set i sock) i a h m := by
  have hself : (s.set i sock).sockets i = sock := set_self ..
  refine ⟨?_, ?_, ?_, ho.unaLe, ho.highLe, hle, hlag, ?_, ?_⟩
  · rw [hself, huna, hisn, ho.una]
  · rw [hself, hisn, highest_set hisn, ho.high]
  · rw [hself, hisn, hnxt]
  · rw [hself]
    exact hsyn
  · rw [hself]
    exact hest

theorem Placed.set_nxt (hp : Placed s) : AckStep s (s.set i sock) ∧ Placed (s.set i sock) := by
  have hset := hp.set hisn ⟨a, h, m, ho.set_nxt hisn huna hnxt hle hlag hsyn hest⟩
  exact ⟨ackStep_set huna hset, hset⟩

end

theorem opening_sockets (s : Stack) (i : Fin tcpMaxSocks) (ip : UInt32) (port : UInt16)
    (isn : UInt32) :
    (s.opening i ip port isn).sockets i = Sock.opened ip port s.nextEphemeral isn := by
  exact update_self ..

theorem opening_sockets_of_ne (hij : j ≠ i) (ip : UInt32) (port : UInt16) (isn : UInt32) :
    (s.opening i ip port isn).sockets j = s.sockets j ∧
      (s.opening i ip port isn).sent j = s.sent j :=
  ⟨update_of_ne hij .., update_of_ne hij ..⟩

theorem offsets_opening (s : Stack) (i : Fin tcpMaxSocks) (ip : UInt32) (port : UInt16)
    (isn : UInt32) : Offsets (s.opening i ip port isn) i 0 0 0 := by
  have hzero : isn = isn + UInt32.ofNat 0 := (UInt32.add_zero _).symm
  have hhigh : (s.opening i ip port isn).highest i = isn := by
    have hsent : (s.opening i ip port isn).sent i = [] := update_self ..
    rw [Stack.highest, hsent, opening_sockets]
    rfl
  refine ⟨?_, ?_, ?_, le_rfl, by omega, by omega, by omega, fun _ => ⟨rfl, le_rfl⟩,
    fun _ => by omega⟩
  · rw [opening_sockets]
    exact hzero
  · rw [hhigh, opening_sockets]
    exact hzero
  · rw [opening_sockets]
    exact hzero

theorem offsets_syn {ip : UInt32} {port : UInt16} {isn : UInt32}
    (ha : Acked (s.opening i ip port isn) t i) :
    Offsets (t.after (s.opening i ip port isn) i tcpFlagSyn []) i 0 1 0 := by
  obtain ⟨d, hd, ho⟩ := (offsets_opening s i ip port isn).during ha (by omega) fun _ => rfl
  obtain rfl : d = 0 := by omega
  have hisn : (t.sockets i).isn = isn := by
    rw [ha.isn, opening_sockets]
    rfl
  refine ho.emit (e := 1) ?_ ?_ (by omega) (by omega) (by omega)
  · rw [span_segment]
    decide
  · rw [hisn, Segment.next, span_segment, opening_sockets]
    rfl

section

variable (ho : Offsets s i a h n) (hest : (s.sockets i).state = .established)
include ho hest

theorem offsets_rewound : Offsets (s.rewound i) i a h a := by
  refine ho.set_nxt rfl rfl ho.una (by omega) ho.highLe (fun hst => ?_) fun _ => by omega
  exact absurd (hst.symm.trans hest) (by decide)

/-- Data has been sent from `snd_una` on. -/
theorem offsets_push {data : List UInt8} (ha : Acked (s.rewound i) t i) (hlen : data.length ≤ 1460) :
    (t.sockets i).state ≠ .synSent ∧ ∃ d h', Offsets
      (t.after (s.rewound i) i (tcpFlagPsh ||| tcpFlagAck) data) i (a + d) h' a := by
  have hself : (s.rewound i).sockets i = { s.sockets i with sndNxt := (s.sockets i).sndUna } :=
    set_self ..
  have hstate : (t.sockets i).state ≠ .synSent := by
    intro hst
    have hs := ha.state hst
    rw [hself] at hs
    exact absurd (hs.symm.trans hest) (by decide)
  have hisn : (t.sockets i).isn = (s.sockets i).isn := by
    rw [ha.isn, hself]
  have hspan : (((s.rewound i).sockets i).segment (tcpFlagPsh ||| tcpFlagAck) data).span
      = data.length := by
    rw [span_segment, if_neg (by decide), if_neg (by decide)]
    rfl
  obtain ⟨d, hd, ho'⟩ := (offsets_rewound ho hest).during ha (by omega) fun hst => absurd hst hstate
  refine ⟨hstate, d, ?_⟩
  by_cases hdata : data.length = 0
  · -- an empty segment takes up nothing
    refine ⟨h, ho'.congr rfl ?_⟩
    rw [Stack.after, highest_emit, if_pos (hspan.trans hdata)]
  refine ⟨max h (a + data.length), ho'.emit ?_ ?_ (by omega) (by omega) ?_⟩
  · rw [hspan]
    exact hdata
  · rw [hisn, Segment.next, hspan, ← offset_add, ← ho.una, hself]
    rfl
  · have hh := ho.highLe
    omega

theorem offsets_finish (ha : Acked s t i)
    (hu : u = t ∨ u = t.after s i (tcpFlagFin ||| tcpFlagAck) []) :
    ∃ d h', n ≤ a + d + 1460 ∧ Offsets u i (a + d) h' n := by
  have hstate : (t.sockets i).state ≠ .synSent := fun hst =>
    absurd ((ha.state hst).symm.trans hest) (by decide)
  have hn := ho.established hest
  obtain ⟨d, hd, ho'⟩ := ho.during ha hn fun hst => absurd hst hstate
  rcases hu with rfl | rfl
  · exact ⟨d, h, by omega, ho'⟩
  have hlag := ho.lag
  refine ⟨d, max h (n + 1), by omega, ho'.emit ?_ ?_ (by omega) (by omega) (by omega)⟩
  · rw [span_segment]
    decide
  · have hspan : ((s.sockets i).segment (tcpFlagFin ||| tcpFlagAck) []).span = 1 := by
      rw [span_segment]
      decide
    rw [ha.isn, Segment.next, hspan, ← offset_add, ← ho.nxt]
    rfl

end

theorem placed_opening (hp : Placed s) (ip : UInt32) (port : UInt16) (isn : UInt32) :
    Placed (s.opening i ip port isn) := by
  intro j
  by_cases hij : j = i
  · subst hij
    exact ⟨0, 0, 0, offsets_opening ..⟩
  obtain ⟨u, h, n, ho⟩ := hp j
  obtain ⟨hsock, hsent⟩ := opening_sockets_of_ne (s := s) hij ip port isn
  exact ⟨u, h, n, ho.congr hsock (highest_congr hsent (by rw [hsock]))⟩

theorem forward_opening (hfree : (s.sockets i).used = false) (ip : UInt32) (port : UInt16)
    (isn : UInt32) : Forward s (s.opening i ip port isn) := by
  refine forward_of_una fun j hused => ?_
  have hij : j ≠ i := by
    rintro rfl
    rw [hfree] at hused
    cases hused
  rw [(opening_sockets_of_ne hij ip port isn).1]

theorem length_pushed (data : Mem) (len : UInt16) :
    (bytesAt data 0 (min len.toNat rcvBufSize)).length ≤ 1460 := by
  rw [length_bytesAt]
  exact Nat.min_le_right ..

theorem keeps_acks :
    Keeps AcksOfSent (fun _ _ => True) AckStep Placed (fun s t => ∀ i, Acked s t i) where
  toKeepsHandling := keepsHandling_acks
  connect hp _ hfree :=
    ⟨⟨forward_opening hfree _ _ _, placed_opening hp _ _ _⟩, placed_opening hp _ _ _⟩
  syn {s t i ip port isn} _ hf hp := by
    have hplaced := hp.emit ⟨0, 1, 0, offsets_syn (hf i)⟩
    exact ⟨ackStep_emit hplaced, hplaced⟩
  synSent {s t u i ip port isn} _ hf hp hu := by
    have ho := offsets_syn (hf i)
    have hplaced := hp.emit ⟨0, 1, 0, ho⟩
    subst hu
    exact hplaced.set_nxt (m := 1) ho rfl rfl rfl (by omega) (by omega)
      (fun _ => ⟨rfl, le_rfl⟩) fun _ => by omega
  drop {s i} hp _ := by
    obtain ⟨u, h, n, ho⟩ := hp i
    exact hp.set_nxt ho rfl rfl ho.nxt ho.nxtLe ho.lag ho.synSent ho.established
  rewind {s i _ _ _ _} hp _ _ hest := by
    obtain ⟨u, h, n, ho⟩ := hp i
    have hset : Placed (s.rewound i) := hp.set rfl ⟨u, h, u, offsets_rewound ho hest⟩
    exact ⟨ackStep_set rfl hset, hset⟩
  push {s t i _ data len _} hp _ _ hest hf hpt := by
    obtain ⟨u, h, n, ho⟩ := hp i
    obtain ⟨-, d, h', ho'⟩ := offsets_push ho hest (hf i) (length_pushed data len)
    have hplaced := hpt.emit ⟨_, _, _, ho'⟩
    exact ⟨ackStep_emit hplaced, hplaced⟩
  pushed {s t u i _ data len _} hp _ _ hest hf hpt hu := by
    obtain ⟨a, h, n, ho⟩ := hp i
    have hmin : min len.toNat rcvBufSize ≤ 1460 := Nat.min_le_right ..
    obtain ⟨hstate, d, h', ho'⟩ := offsets_push ho hest (hf i) (length_pushed data len)
    have hplaced : Placed u := by
      rw [hu]
      exact hpt.emit ⟨_, _, _, ho'⟩
    have hsyn : (u.sockets i).state ≠ .synSent := by
      rw [hu]
      exact hstate
    rw [← hu] at ho'
    have hhigh := ho'.highLe
    refine hplaced.set_nxt (m := a + d + min len.toNat rcvBufSize) ho' rfl rfl ?_ (by omega)
      (by omega) (fun hst => absurd hst hsyn) fun _ => by omega
    rw [← offset_add, ← ho'.una]
  take {s i n} hp _ _ := by
    obtain ⟨u, h, m, ho⟩ := hp i
    obtain ⟨hstep, hset⟩ : AckStep s (s.set i ((s.sockets i).takeOut n)) ∧
        Placed (s.set i ((s.sockets i).takeOut n)) :=
      hp.set_nxt ho rfl rfl ho.nxt ho.nxtLe ho.lag ho.synSent ho.established
    have hplaced : Placed (s.taken i n) := hset.of_same rfl rfl
    exact ⟨⟨hstep.1, hplaced⟩, hplaced⟩
  finish {s t i _} hp _ _ hest hf hpt := by
    obtain ⟨a, h, n, ho⟩ := hp i
    obtain ⟨d, h', -, ho'⟩ := offsets_finish ho hest (hf i) (.inr rfl)
    have hplaced := hpt.emit ⟨_, _, _, ho'⟩
    exact ⟨ackStep_emit hplaced, hplaced⟩
  finished {s t u i _} hp _ _ hest hf hpt hu := by
    obtain ⟨a, h, n, ho⟩ := hp i
    obtain ⟨d, h', hn, ho'⟩ := offsets_finish ho hest (hf i) hu
    have hplaced : Placed u := by
      rcases hu with rfl | rfl
      · exact hpt
      · exact hpt.emit ⟨_, _, _, ho'⟩
    have hlag := ho'.lag
    refine hplaced.set_nxt (m := n + 1) ho' rfl rfl ?_ (by omega) (by omega)
      (fun hst => by cases hst) fun hst => by cases hst
    rw [← offset_add, ← ho'.nxt]
    rfl

end

/-! ## Runs -/

theorem placed_init : Placed Stack.init := fun _ =>
  ⟨0, 0, 0, rfl, rfl, rfl, by omega, by omega, by omega, by omega, (by rintro ⟨⟩), (by rintro ⟨⟩)⟩

theorem handled_sndUna (sock : Sock) (seg : RxSegment) :
    (sock.handled seg).sndUna =
      if seg.isRst then sock.sndUna
      else if sock.state = .synSent then
        if seg.isSyn ∧ seg.isAck ∧ seg.ack = sock.sndNxt then seg.ack else sock.sndUna
      else if seg.isAck then seg.ack else sock.sndUna := by
  unfold Sock.handled
  split
  · rfl
  split
  · split <;> rfl
  split
  · exact takeAck_sndUna ..
  · split <;> exact takeAck_sndUna ..

/-- With the offsets in place, a frame is taken as it should be exactly when what it
    acknowledges has been sent. -/
theorem frameAckSound_iff_ackOk {rounds : Nat} {s : Stack} {i : Fin tcpMaxSocks} {f : Frame}
    (hp : Placed s) :
    FrameAckSound rounds s i f ↔ ∀ seg, Reaches s f i seg → AckOk s i seg := by
  constructor
  · intro hsound seg hreach hrst hsyn hack
    obtain ⟨⟨⟩, t, hout⟩ := exists_outcome quiet_answers (tcpHandlePacket rounds f) s
    have hgap := (hsound t hout seg hreach).2
    rw [outcome_of_reaches rounds hreach hout, set_self, handled_sndUna,
      if_neg (by simp [hrst]), if_neg hsyn, if_pos hack] at hgap
    exact hgap
  · intro hok t hout seg hreach
    rw [outcome_of_reaches rounds hreach hout, set_self, handled_sndUna]
    -- either nothing changes, or the acknowledgement is taken and lies in the window
    have hkeep : (¬ Acceptable (s.sockets i).sndUna (s.highest i) seg.ack →
        (s.sockets i).sndUna = (s.sockets i).sndUna) ∧
        gap (s.sockets i).sndUna (s.sockets i).sndUna ≤
          gap (s.sockets i).sndUna (s.highest i) := by
      refine ⟨fun _ => rfl, ?_⟩
      rw [gap_self]
      exact Nat.zero_le _
    have htake : gap (s.sockets i).sndUna seg.ack ≤ gap (s.sockets i).sndUna (s.highest i) →
        (¬ Acceptable (s.sockets i).sndUna (s.highest i) seg.ack →
          seg.ack = (s.sockets i).sndUna) ∧
        gap (s.sockets i).sndUna seg.ack ≤ gap (s.sockets i).sndUna (s.highest i) := by
      intro hgap
      refine ⟨fun hno => ?_, hgap⟩
      by_contra hne
      exact hno ⟨hne, hgap⟩
    split
    · exact hkeep
    next hrst =>
    split
    · next hsyn =>
      split
      · next hsa =>
        obtain ⟨a, h, n, ho⟩ := hp i
        apply htake
        rw [hsa.2.2]
        exact ho.gap_nxt hsyn
      · exact hkeep
    next hsyn =>
    split
    · next hack => exact htake (hok seg hreach (by simpa using hrst) hsyn hack)
    · exact hkeep

/-- In every run in which only what has been sent is acknowledged, and not less than before:
    `snd_una` is never past what has been sent, every store moves it forward or not at all,
    and the next frame is taken as it should be exactly when it, too, is of that kind. -/
theorem acks_sound {c : Reactive.Conf Stack Req Req.Ans}
    (hc : Reactive.Reached (calls fun _ _ => True) AcksOfSent Stack.init c) :
    (∀ i, gap (c.st.sockets i).sndUna (c.st.highest i) < 2 ^ 31) ∧
    (∀ c', Reactive.Step (calls fun _ _ => True) AcksOfSent c c' → Forward c.st c'.st) ∧
    (∀ rounds i f, FrameAckSound rounds c.st i f ↔
      ∀ seg, Reaches c.st f i seg → AckOk c.st i seg) := by
  have hcall : ∀ s p, Placed s → calls (fun _ _ => True) s p →
      Reactive.wp AcksOfSent AckStep p (fun _ => Placed) s := fun s p h hp => keeps_acks.call h hp
  have hplaced : Placed c.st :=
    hc.invariant placed_init (fun _ _ _ hr => hr.2) placed_init hcall
  refine ⟨fun i => ?_, fun c' hstep => ?_, fun rounds i f => frameAckSound_iff_ackOk hplaced⟩
  · obtain ⟨a, h, n, ho⟩ := hplaced i
    have hle := ho.highLe
    rw [ho.gap_high]
    omega
  · rcases hc.kept placed_init hcall hstep with heq | hr
    · rw [heq]
      exact forward_of_una fun _ _ => rfl
    · exact hr.1

instance (s : Stack) (i : Fin tcpMaxSocks) (seg : RxSegment) : Decidable (AckOk s i seg) := by
  unfold AckOk
  infer_instance

/-- The peer acknowledges the byte that has been sent after the handshake. -/
def ackOfByte : Frame := segmentFrame ipTcp netGwIp 101 2 tcpFlagAck []

/-- `tcp_connect`, a `tcp_send` that times out, and then the acknowledgement. -/
def ackedLate : Stack :=
  (Call.handle 1).prog.exec (answering (some ackOfByte))
    ((Call.send 1 0 (fun _ => 65) 1 1000).prog.exec (answering none) connected)

theorem acks_sound_ackedLate :
    Reactive.Reached (calls fun _ _ => True) AcksOfSent Stack.init ⟨ackedLate, .ret ()⟩ ∧
      (ackedLate.sockets 0).sndUna = 2 ∧ ackedLate.highest 0 = 2 ∧
      gap (ackedLate.sockets 0).sndUna (ackedLate.highest 0) < 2 ^ 31 := by
  have hok : ∀ (f : Frame) t,
      decide (∀ i, findSockByPort t f.tcpFields.dstPort = some i → AckOk t i f.tcpFields) = true →
        ∀ i, findSockByPort t f.tcpFields.dstPort = some i → AckOk t i f.tcpFields :=
    fun f t => of_decide_eq_true
  have hconnected : Reactive.Reached (calls fun _ _ => True) AcksOfSent Stack.init
      ⟨connected, .ret ()⟩ := @reached_polling _ _ _ _ (.connect 1 netGwIp 80 1000) _ _ .refl
    trivial (hok _) (by decide +kernel)
  have hsent := hconnected.exec (answering none) (receiving_answering_none _)
    ⟨.send 1 0 (fun _ => 65) 1 1000, trivial, rfl⟩
  have hreach : Reactive.Reached (calls fun _ _ => True) AcksOfSent Stack.init
      ⟨ackedLate, .ret ()⟩ :=
    @reached_polling _ _ _ _ (.handle 1) _ _ hsent trivial (hok _) (by decide +kernel)
  exact ⟨hreach, by decide +kernel, by decide +kernel, (acks_sound hreach).1 0⟩

/-- A forged acknowledgement of 5000, when only the SYN has been sent. -/
def forgedAck : Stack :=
  (Call.handle 0).prog.exec (answering (some (segmentFrame ipTcp netGwIp 101 5000 tcpFlagAck [])))
    connected

/-- Then `snd_una` is past what has been sent. -/
theorem forgedAck_not_sound : FreeRun ⟨forgedAck, .ret ()⟩ ∧ (forgedAck.sockets 0).used = true ∧
    (forgedAck.sockets 0).sndUna = 5000 ∧ forgedAck.highest 0 = 1 ∧
    ¬ gap (forgedAck.sockets 0).sndUna (forgedAck.highest 0) < 2 ^ 31 :=
  ⟨freeRun_connected.exec _ (.handle 0), by decide +kernel, by decide +kernel, by decide +kernel,
    by decide +kernel⟩

end Noverix.Net
