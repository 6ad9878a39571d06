/-
  Which bytes go out under which sequence numbers.

  Handling frames sends acknowledgements without data, so the bytes on the wire
  are those of `tcp_send`, each call at the `snd_una` of its start.  They stay
  consistent if and only if, of each segment sent before, the bytes below
  `snd_una` are the acknowledged ones and the call repeats the others.
-/

import Noverix.Lib.Serial
import Noverix.Net.Isolation

namespace Noverix.Net

open Lib

variable {p : Segment} {l l' : List Segment} {ok : Stack → (q : Req) → q.Ans → Prop}
  {I : Stack → Prop} {s : Stack} {i : Fin tcpMaxSocks}

/-! ## Bytes and sequence numbers -/

/-- The segment has byte `b` at sequence number `x`. -/
def Segment.Carries (seg : Segment) (x : UInt32) (b : UInt8) : Prop :=
  ∃ k, seg.data[k]? = some b ∧ x = seg.seq + UInt32.ofNat k

/-- Where two segments cover the same sequence number, they carry the same byte. -/
def Agree (p q : Segment) : Prop := ∀ x b c, p.Carries x b → q.Carries x c → b = c

/-- All segments agree. -/
def Consistent (sent : List Segment) : Prop := ∀ p ∈ sent, ∀ q ∈ sent, Agree p q

theorem Agree.symm {q : Segment} (h : Agree p q) : Agree q p :=
  fun x b c hb hc => (h x c b hc hb).symm

theorem Segment.Carries.data_ne {seg : Segment} {x : UInt32} {b : UInt8} (h : seg.Carries x b) :
    seg.data ≠ [] := by
  obtain ⟨k, hk, -⟩ := h
  intro hnil
  rw [hnil] at hk
  cases hk

theorem agree_self (h : p.data.length ≤ 1460) : Agree p p := by
  rintro x b c ⟨k, hk, hx⟩ ⟨l, hl, hx'⟩
  have hk' := (getElem?_eq_some_iff.mp hk).1
  have hl' := (getElem?_eq_some_iff.mp hl).1
  rw [hx, offset_inj] at hx'
  have hkl : k = l := by omega
  rw [hkl, hl] at hk
  exact (some.inj hk).symm

/-- One list is the beginning of the other. -/
def Matches (a b : List UInt8) : Prop := a <+: b ∨ b <+: a

theorem matches_iff {a b : List UInt8} :
    Matches a b ↔ ∀ (k : Nat) x y, a[k]? = some x → b[k]? = some y → x = y := by
  constructor
  · rintro (h | h) k x y hx hy
    · obtain ⟨hk, rfl⟩ := getElem?_eq_some_iff.mp hx
      exact some.inj ((List.prefix_iff_getElem?.mp h k hk).symm.trans hy)
    · obtain ⟨hk, rfl⟩ := getElem?_eq_some_iff.mp hy
      exact some.inj (hx.symm.trans (List.prefix_iff_getElem?.mp h k hk))
  · intro h
    rcases Nat.le_total a.length b.length with hle | hle
    · refine .inl (List.prefix_iff_getElem?.mpr fun k hk => ?_)
      rw [getElem?_eq_getElem (hk.trans_le hle),
        h k _ _ (getElem?_eq_getElem hk) (getElem?_eq_getElem (hk.trans_le hle))]
    · refine .inr (List.prefix_iff_getElem?.mpr fun k hk => ?_)
      rw [getElem?_eq_getElem (hk.trans_le hle),
        h k _ _ (getElem?_eq_getElem (hk.trans_le hle)) (getElem?_eq_getElem hk)]

/-- What bytes that go out at `una` need of an earlier segment: it ends at `una` or before, as
    it does once it is acknowledged, or they repeat it from `una` on; and they end before it
    begins, or repeat it from there. -/
def Segment.AckedOrRepeated (old : Segment) (una : UInt32) (bytes : List UInt8) : Prop :=
  (old.data.length ≤ gap old.seq una ∨ Matches (old.data.drop (gap old.seq una)) bytes) ∧
    (bytes.length ≤ gap una old.seq ∨ Matches old.data (bytes.drop (gap una old.seq)))

/-- Two segments of the size that is sent agree exactly if the one is acknowledged or repeated
    by the other. -/
theorem agree_iff {q : Segment} (hp : p.data.length ≤ 1460) (hq : q.data.length ≤ 1460) :
    Agree p q ↔ p.AckedOrRepeated q.seq q.data := by
  constructor
  · intro h
    refine ⟨.inr (matches_iff.mpr fun k x y hx hy => ?_), .inr (matches_iff.mpr fun k x y hx hy => ?_)⟩
    · rw [List.getElem?_drop] at hx
      refine h (q.seq + UInt32.ofNat k) x y ⟨_, hx, ?_⟩ ⟨k, hy, rfl⟩
      rw [← offset_add, add_gap]
    · rw [List.getElem?_drop] at hy
      refine h (p.seq + UInt32.ofNat k) x y ⟨k, hx, rfl⟩ ⟨_, hy, ?_⟩
      rw [← offset_add, add_gap]
  · rintro ⟨hbehind, hahead⟩ x b c ⟨k, hb, hxk⟩ ⟨l, hc, hxl⟩
    have hk := (getElem?_eq_some_iff.mp hb).1
    have hl := (getElem?_eq_some_iff.mp hc).1
    have hsame := hxk.symm.trans hxl
    rcases Nat.le_total l k with hlk | hkl
    · -- the later segment begins `k - l` bytes into the earlier one
      rw [gap_of_offset_eq hsame hlk (by omega)] at hbehind
      rcases hbehind with hend | hmatch
      · omega
      refine matches_iff.mp hmatch l b c ?_ hc
      rw [List.getElem?_drop, Nat.sub_add_cancel hlk]
      exact hb
    · rw [gap_of_offset_eq hsame.symm hkl (by omega)] at hahead
      rcases hahead with hend | hmatch
      · omega
      refine matches_iff.mp hmatch k b c hb ?_
      rw [List.getElem?_drop, Nat.sub_add_cancel hkl]
      exact hc

theorem consistent_add {new : Segment} (hlen : new.data.length ≤ 1460)
    (hmem : ∀ seg, seg.data ≠ [] → (seg ∈ l' ↔ seg ∈ l ∨ seg = new)) :
    Consistent l' ↔ Consistent l ∧ ∀ old ∈ l, Agree old new := by
  constructor
  · intro h
    refine ⟨fun p hp q hq x b c hb hc => ?_, fun p hp x b c hb hc => ?_⟩
    · exact h p ((hmem p hb.data_ne).mpr (.inl hp)) q ((hmem q hc.data_ne).mpr (.inl hq)) x b c hb hc
    · exact h p ((hmem p hb.data_ne).mpr (.inl hp)) new ((hmem new hc.data_ne).mpr (.inr rfl))
        x b c hb hc
  · rintro ⟨h, hnew⟩ p hp q hq x b c hb hc
    rcases (hmem p hb.data_ne).mp hp with hp | rfl <;> rcases (hmem q hc.data_ne).mp hq with hq | rfl
    · exact h p hp q hq x b c hb hc
    · exact hnew p hp x b c hb hc
    · exact (hnew q hq).symm x b c hb hc
    · exact agree_self hlen x b c hb hc

/-- The same segments, up to those without data. -/
def SameData (l l' : List Segment) : Prop := ∀ seg, seg.data ≠ [] → (seg ∈ l' ↔ seg ∈ l)

theorem SameData.consistent (h : SameData l l') (hc : Consistent l) :
    Consistent l' := fun p hp q hq x b c hb hc' =>
  hc p ((h p hb.data_ne).mp hp) q ((h q hc'.data_ne).mp hq) x b c hb hc'

theorem mem_emit (t : Stack) (i j : Fin tcpMaxSocks) (new seg : Segment) :
    seg ∈ (t.emit i new).sent j ↔ seg ∈ t.sent j ∨ (j = i ∧ seg = new) := by
  rw [emit_sent]
  split
  · next hij => simp [hij]
  · next hij => simp [hij]

theorem sameData_emit (t : Stack) (i j : Fin tcpMaxSocks) (sock : Sock) (flags : UInt8) :
    SameData (t.sent j) ((t.emit i (sock.segment flags [])).sent j) := by
  intro seg hne
  rw [mem_emit]
  constructor
  · rintro (h | ⟨-, rfl⟩)
    · exact h
    · exact absurd rfl hne
  · exact .inl

/-! ## Handling frames -/

section

variable {buf : RxBuf} {s t : Stack} {i : Fin tcpMaxSocks}

/-- While frames are handled, no data is sent. -/
def NoData (s t : Stack) : Prop := ∀ j, SameData (s.sent j) (t.sent j)

theorem noData_of_sent (h : t.sent = s.sent) : NoData s t := fun j seg _ => by rw [h]

/-- A property of the data sent is kept while frames are handled, whatever they are. -/
theorem keepsHandling_sent (hI : ∀ {s t}, I s → NoData s t → I t) :
    KeepsHandling ok (fun _ t => I t) I NoData where
  refl s := noData_of_sent rfl
  trans h h' j seg hne := (h' j seg hne).trans (h j seg hne)
  aside h ha := ⟨hI h (noData_of_sent ha.sent), hI h (noData_of_sent ha.sent),
    fun _ => noData_of_sent ha.sent⟩
  answer {s t i} _ _ h := by
    have hno : NoData t (t.emit i ((s.sockets i).segment tcpFlagAck [])) :=
      fun j => sameData_emit t i j _ _
    exact ⟨hI h hno, hI h hno, fun _ => hno⟩
  reset h _ _ := ⟨hI h (noData_of_sent rfl), hI h (noData_of_sent rfl), fun _ => noData_of_sent rfl⟩
  synAck h _ _ _ _ _ _ :=
    ⟨hI h (noData_of_sent rfl), hI h (noData_of_sent rfl), fun _ => noData_of_sent rfl⟩
  ack h _ _ _ := ⟨hI h (noData_of_sent rfl), hI h (noData_of_sent rfl), fun _ => noData_of_sent rfl⟩
  data h _ _ _ _ :=
    ⟨hI h (noData_of_sent rfl), hI h (noData_of_sent rfl), fun _ => noData_of_sent rfl⟩
  fin h _ _ := ⟨hI h (noData_of_sent rfl), hI h (noData_of_sent rfl), fun _ => noData_of_sent rfl⟩
  finDone _ _ _ _ h :=
    ⟨hI h (noData_of_sent rfl), hI h (noData_of_sent rfl), fun _ => noData_of_sent rfl⟩

/-- The segment of a `tcp_send` called in state `s`. -/
def Stack.pushing (s : Stack) (i : Fin tcpMaxSocks) (data : Mem) (len : UInt16) : Segment :=
  ((s.rewound i).sockets i).segment (tcpFlagPsh ||| tcpFlagAck)
    (bytesAt data 0 (min len.toNat rcvBufSize))

theorem length_pushing (s : Stack) (i : Fin tcpMaxSocks) (data : Mem) (len : UInt16) :
    (s.pushing i data len).data.length ≤ 1460 := by
  show (bytesAt data 0 (min len.toNat rcvBufSize)).length ≤ 1460
  rw [length_bytesAt]
  exact Nat.min_le_right ..

/-- Such a property is kept by the calls if it holds after an opening, and after the segment
    of `tcp_send` has been added. -/
theorem keeps_sent {okCall : Stack → Call → Prop}
    (hI : ∀ {s t}, I s → NoData s t → I t)
    (hopen : ∀ {s i rounds ip port timeoutMs isn}, I s →
      okCall s (.connect rounds ip port timeoutMs) → I (s.opening i ip port isn))
    (hpush : ∀ {s t i rounds data len timeoutMs}, I s →
      okCall s (.send rounds i data len timeoutMs) → (s.sockets i).used = true →
      (s.sockets i).state = .established → NoData s t → I t →
      I (t.emit i (s.pushing i data len))) :
    Keeps ok okCall (fun _ t => I t) I NoData where
  toKeepsHandling := keepsHandling_sent hI
  connect h hok _ := ⟨hopen h hok, hopen h hok⟩
  syn {s t i ip port isn} _ _ h := by
    have hno : NoData t (t.after (s.opening i ip port isn) i tcpFlagSyn []) :=
      fun j => sameData_emit t i j _ _
    exact ⟨hI h hno, hI h hno⟩
  synSent {s t u i ip port isn} _ _ h hu := by
    have hno : NoData t (u.set i { u.sockets i with sndNxt := (u.sockets i).isn + 1 }) := by
      rw [hu]
      exact fun j => sameData_emit t i j _ _
    exact ⟨hI h hno, hI h hno⟩
  drop h _ := ⟨hI h (noData_of_sent rfl), hI h (noData_of_sent rfl)⟩
  rewind h _ _ _ := ⟨hI h (noData_of_sent rfl), hI h (noData_of_sent rfl)⟩
  push h hok hused hest hf ht := ⟨hpush h hok hused hest hf ht, hpush h hok hused hest hf ht⟩
  pushed {s t u i _ data len _} h hok hused hest hf ht hu := by
    have hpushed : I u := by
      rw [hu]
      exact hpush h hok hused hest hf ht
    exact ⟨hI hpushed (noData_of_sent rfl), hI hpushed (noData_of_sent rfl)⟩
  take h _ _ := ⟨hI h (noData_of_sent rfl), hI h (noData_of_sent rfl)⟩
  finish {s t i _} _ _ _ _ _ h := by
    have hno : NoData t (t.after s i (tcpFlagFin ||| tcpFlagAck) []) :=
      fun j => sameData_emit t i j _ _
    exact ⟨hI h hno, hI h hno⟩
  finished {s t u i _} _ _ _ _ _ h hu := by
    have hno : NoData t u := by
      rcases hu with rfl | rfl
      · exact noData_of_sent rfl
      · exact fun j => sameData_emit t i j _ _
    have hu' := hI h hno
    exact ⟨hI hu' (noData_of_sent rfl), hI hu' (noData_of_sent rfl)⟩

end

/-! ## Calls -/

/-- The bytes of a call of `tcp_send`. -/
def sendBytes (data : Mem) (len : UInt16) : List UInt8 := bytesAt data 0 (min len.toNat rcvBufSize)

/-- Of each segment sent before on the socket, a call of `tcp_send` that is not turned away finds
    the bytes acknowledged or repeats them. -/
def SendsInTurn (s : Stack) : Call → Prop
  | .send _ i data len _ => (s.sockets i).used = true → (s.sockets i).state = .established →
      ∀ old ∈ s.sent i, old.AckedOrRepeated (s.sockets i).sndUna (sendBytes data len)
  | _ => True

/-- Segments of the size that `tcp_send` sends, which agree. -/
structure Sound (sent : List Segment) : Prop where
  short : ∀ seg ∈ sent, seg.data.length ≤ 1460
  consistent : Consistent sent

theorem pushing_eq (s : Stack) (i : Fin tcpMaxSocks) (data : Mem) (len : UInt16) :
    (s.pushing i data len).seq = (s.sockets i).sndUna ∧
      (s.pushing i data len).data = sendBytes data len := by
  refine ⟨?_, rfl⟩
  show ((s.rewound i).sockets i).sndNxt = _
  unfold Stack.rewound
  rw [set_self]

theorem Sound.nil : Sound [] :=
  ⟨fun _ h => absurd h not_mem_nil, fun _ h => absurd h not_mem_nil⟩

theorem Sound.sameData (h : Sound l) (hsame : SameData l l') : Sound l' := by
  refine ⟨fun seg hseg => ?_, hsame.consistent h.consistent⟩
  by_cases hdata : seg.data = []
  · simp [hdata]
  · exact h.short seg ((hsame seg hdata).mp hseg)

/-- With the segment of a call they agree exactly if those from before are acknowledged or
    repeated. -/
theorem Sound.push {t : Stack} {data : Mem} {len : UInt16} (h : Sound (s.sent i))
    (hmem : ∀ seg, seg.data ≠ [] → (seg ∈ t.sent i ↔ seg ∈ s.sent i ∨ seg = s.pushing i data len)) :
    Consistent (t.sent i) ↔
      ∀ old ∈ s.sent i, old.AckedOrRepeated (s.sockets i).sndUna (sendBytes data len) := by
  have hlen := length_pushing s i data len
  obtain ⟨hseq, hdata⟩ := pushing_eq s i data len
  rw [consistent_add hlen hmem, and_iff_right h.consistent, ← hseq, ← hdata]
  exact forall₂_congr fun old hold => agree_iff (h.short old hold) hlen

/-- One call: it sends no data, or the segments sent are consistent exactly when it meets the
    condition.  No frame that arrives meanwhile makes a difference. -/
theorem tcpSend_consistent_iff {rounds : Nat} {t : Stack}
    {data : Mem} {len : UInt16} {timeoutMs : Int} {r : Bool} (h : Sound (s.sent i))
    (hout : Outcome ok (tcpSend rounds i data len timeoutMs) s r t) :
    SameData (s.sent i) (t.sent i) ∨
      (Consistent (t.sent i) ↔ SendsInTurn s (.send rounds i data len timeoutMs)) := by
  -- the data sent is that of `s`, without or with the segment of the call
  let I : Stack → Prop := fun u => SameData (s.sent i) (u.sent i) ∨
    (((s.sockets i).used = true ∧ (s.sockets i).state = .established) ∧
      ∀ seg, seg.data ≠ [] → (seg ∈ u.sent i ↔ seg ∈ s.sent i ∨ seg = s.pushing i data len))
  have hk : Keeps ok (fun v c => v = s ∧ c = .send rounds i data len timeoutMs)
      (fun _ t => I t) I NoData := by
    refine keeps_sent ?_ ?_ ?_
    · rintro u v (h | ⟨hs, h⟩) hno
      · exact .inl fun seg hne => (hno i seg hne).trans (h seg hne)
      · exact .inr ⟨hs, fun seg hne => (hno i seg hne).trans (h seg hne)⟩
    · rintro _ _ _ _ _ _ _ - ⟨-, hcall⟩
      cases hcall
    · rintro v u i' rounds' data' len' timeoutMs' - ⟨rfl, hcall⟩ hused hest hno -
      cases hcall
      refine .inr ⟨⟨hused, hest⟩, fun seg hne => ?_⟩
      rw [mem_emit, hno i seg hne]
      simp
  have hpost : I t := by
    have hwp := Reactive.wp_mono (fun _ _ _ => trivial) (fun _ _ h => h)
      (hk.wp_tcpSend (.inl fun _ _ => Iff.rfl) ⟨rfl, rfl⟩)
    exact wp_iff.mp hwp r t hout
  rcases hpost with hsame | ⟨⟨hused, hest⟩, hmem⟩
  · exact .inl hsame
  refine .inr ((h.push hmem).trans ?_)
  exact ⟨fun hold _ _ => hold, fun hold => hold hused hest⟩

theorem sound_of_reached {c : Reactive.Conf Stack Req Req.Ans}
    (hc : Reactive.Reached (calls SendsInTurn) (fun _ _ _ => True) Stack.init c)
    (i : Fin tcpMaxSocks) : Sound (c.st.sent i) := by
  have hk : Keeps (fun _ _ _ => True) SendsInTurn (fun _ t => ∀ i, Sound (t.sent i))
      (fun s => ∀ i, Sound (s.sent i)) NoData := by
    refine keeps_sent ?_ ?_ ?_
    · exact fun h hno i => (h i).sameData (hno i)
    · intro s i rounds ip port timeoutMs isn h _ j
      by_cases hij : j = i
      · have hsent : (s.opening i ip port isn).sent j = [] := by
          rw [hij]
          exact update_self ..
        rw [hsent]
        exact .nil
      have hsent : (s.opening i ip port isn).sent j = s.sent j := update_of_ne hij ..
      rw [hsent]
      exact h j
    · intro s t i rounds data len timeoutMs h hok hused hest hno ht j
      by_cases hij : j = i
      · subst hij
        refine ⟨fun seg hseg => ?_, ((h j).push fun seg hne => ?_).mpr (hok hused hest)⟩
        · rcases (mem_emit ..).mp hseg with hold | ⟨-, rfl⟩
          · exact (ht j).short seg hold
          · exact length_pushing ..
        · rw [mem_emit, hno j seg hne]
          simp
      have hsent : (t.emit i (s.pushing i data len)).sent j = t.sent j := by
        rw [emit_sent, if_neg hij]
      rw [hsent]
      exact ht j
  exact hc.invariant (R := fun _ t => ∀ i, Sound (t.sent i)) (J := fun s => ∀ i, Sound (s.sent i))
    (fun _ => .nil) (fun _ _ _ hr => hr) (fun _ => .nil) (fun s p h hp => hk.call h hp) i

/-- In every run whose calls of `tcp_send` find what was sent before acknowledged, or repeat it,
    with any frames, the segments of every socket are consistent; and the next call keeps them so
    exactly if it does the same, or sends nothing. -/
theorem sends_consistent {c : Reactive.Conf Stack Req Req.Ans}
    (hc : Reactive.Reached (calls SendsInTurn) (fun _ _ _ => True) Stack.init c)
    (i : Fin tcpMaxSocks) :
    Consistent (c.st.sent i) ∧
    ∀ ok rounds data len timeoutMs r t, Outcome ok (tcpSend rounds i data len timeoutMs) c.st r t →
      SameData (c.st.sent i) (t.sent i) ∨
        (Consistent (t.sent i) ↔ SendsInTurn c.st (.send rounds i data len timeoutMs)) := by
  have hsound := sound_of_reached hc i
  exact ⟨hsound.consistent, fun ok rounds data len timeoutMs r t hout =>
    tcpSend_consistent_iff hsound hout⟩

/-- Two calls of one byte each, neither of them acknowledged. -/
def resent (first second : UInt8) : Stack :=
  (Call.send 1 0 (fun _ => second) 1 1000).prog.exec (answering none)
    ((Call.send 1 0 (fun _ => first) 1 1000).prog.exec (answering none) connected)

instance (old : Segment) (una : UInt32) (bytes : List UInt8) :
    Decidable (old.AckedOrRepeated una bytes) := by
  unfold Segment.AckedOrRepeated Matches
  infer_instance

instance (s : Stack) (c : Call) : Decidable (SendsInTurn s c) := by
  cases c <;> unfold SendsInTurn <;> infer_instance

/-- A byte that is sent again, then acknowledged, and then the next one. -/
def sentInTurn : Stack :=
  (Call.send 1 0 (fun _ => 66) 1 1000).prog.exec (answering none)
    ((Call.handle 1).prog.exec (answering (some (segmentFrame ipTcp netGwIp 101 2 tcpFlagAck [])))
      (resent 65 65))

theorem sends_consistent_sentInTurn :
    Reactive.Reached (calls SendsInTurn) (fun _ _ _ => True) Stack.init ⟨sentInTurn, .ret ()⟩ ∧
      (sentInTurn.sent 0).map (fun seg => (seg.seq, seg.data)) =
        [(0, []), (1, []), (1, [65]), (1, [65]), (2, [66])] ∧
      Consistent (sentInTurn.sent 0) := by
  have hexec : ∀ {s : Stack} (f : Option Frame) (c : Call),
      Reactive.Reached (calls SendsInTurn) (fun _ _ _ => True) Stack.init ⟨s, .ret ()⟩ →
      SendsInTurn s c → Reactive.Reached (calls SendsInTurn) (fun _ _ _ => True) Stack.init
        ⟨c.prog.exec (answering f) s, .ret ()⟩ :=
    fun f c h hc => h.exec (answering f) (fun _ _ => trivial) ⟨c, hc, rfl⟩
  have hconnected : Reactive.Reached (calls SendsInTurn) (fun _ _ _ => True) Stack.init
      ⟨connected, .ret ()⟩ := hexec _ (.connect 1 netGwIp 80 1000) .refl trivial
  have hfirst := hexec none (.send 1 0 (fun _ => 65) 1 1000) hconnected (by decide +kernel)
  have hagain := hexec none (.send 1 0 (fun _ => 65) 1 1000) hfirst (by decide +kernel)
  have hacked := hexec (some (segmentFrame ipTcp netGwIp 101 2 tcpFlagAck [])) (.handle 1) hagain
    trivial
  have hreach := hexec none (.send 1 0 (fun _ => 66) 1 1000) hacked (by decide +kernel)
  exact ⟨hreach, by decide +kernel, (sends_consistent hreach 0).1⟩

/-- The second byte goes out under the sequence number of the first. -/
theorem resent_not_consistent :
    FreeRun ⟨resent 65 66, .ret ()⟩ ∧ ¬ Consistent ((resent 65 66).sent 0) := by
  refine ⟨(freeRun_connected.exec none _).exec none _, fun h => ?_⟩
  have hsent : ((resent 65 66).sent 0).map (fun seg => (seg.seq, seg.data)) =
      [(0, []), (1, []), (1, [65]), (1, [66])] := by decide +kernel
  have hcarries : ∀ b ∈ [(65 : UInt8), 66], ∃ seg ∈ (resent 65 66).sent 0, seg.Carries 1 b := by
    intro b hb
    have hmem : ((1 : UInt32), [b]) ∈ ((resent 65 66).sent 0).map fun seg => (seg.seq, seg.data) := by
      rw [hsent]
      rcases mem_cons.mp hb with rfl | hb'
      · exact mem_cons_of_mem _ (mem_cons_of_mem _ mem_cons_self)
      rw [mem_singleton.mp hb']
      exact mem_cons_of_mem _ (mem_cons_of_mem _ (mem_cons_of_mem _ mem_cons_self))
    obtain ⟨seg, hseg, heq⟩ := mem_map.mp hmem
    obtain ⟨hseq, hdata⟩ := Prod.mk.inj heq
    refine ⟨seg, hseg, 0, ?_, ?_⟩
    · rw [hdata]
      rfl
    · rw [hseq]
      rfl
  obtain ⟨p, hp, hp65⟩ := hcarries 65 (by decide)
  obtain ⟨q, hq, hq66⟩ := hcarries 66 (by decide)
  exact absurd (h p hp q hq 1 65 66 hp65 hq66) (by decide)

end Noverix.Net
