/-
  What the network stack can do to its variables, said once.

  `Keeps ok R I F` lists every store the stack makes, each in the situation in
  which it is made: that it is allowed by `R`, that it keeps the invariant `I`,
  and, for what happens while frames are handled, that it stays within the
  relation `F` to the state before.  `Keeps.call` then says that every call
  keeps `I` and only makes stores that `R` allows, however its waiting loops
  are unrolled and however deep the handling of frames nests.

  A property of the stack over whole runs is a choice of `I` and `R` together
  with a proof of `Keeps`, store by store.
-/

import Noverix.Net.Stack

namespace Noverix.Net

open Lib
open Lib.Reactive (wp wp_bind wp_getState wp_setState)

variable {ok : Stack → (q : Req) → q.Ans → Prop} {R : Stack → Stack → Prop} {I : Stack → Prop}
  {F : Stack → Stack → Prop} {s t : Stack} {i j : Fin tcpMaxSocks}

/-! ## Stores -/

namespace Stack

@[simp] theorem set_self (s : Stack) (i : Fin tcpMaxSocks) (sock : Sock) :
    (s.set i sock).sockets i = sock := update_self ..

theorem set_sockets (s : Stack) (i j : Fin tcpMaxSocks) (sock : Sock) :
    (s.set i sock).sockets j = if j = i then sock else s.sockets j := by
  simp [set, update_apply]

theorem set_of_ne (h : j ≠ i) (sock : Sock) : (s.set i sock).sockets j = s.sockets j :=
  update_of_ne h ..

@[simp] theorem set_got (s : Stack) (i : Fin tcpMaxSocks) (sock : Sock) :
    (s.set i sock).got = s.got := rfl
@[simp] theorem emit_sockets (s : Stack) (i : Fin tcpMaxSocks) (seg : Segment) :
    (s.emit i seg).sockets = s.sockets := rfl
theorem emit_sent (s : Stack) (i j : Fin tcpMaxSocks) (seg : Segment) :
    (s.emit i seg).sent j = if j = i then s.sent i ++ [seg] else s.sent j := by
  simp [emit, update_apply]

end Stack

section

@[simp] theorem wp_getSock {P : Sock → Stack → Prop} :
    wp ok R (getSock i) P s ↔ P (s.sockets i) s := .rfl

variable {P : Unit → Stack → Prop}

@[simp] theorem wp_setSock {sock : Sock} :
    wp ok R (setSock i sock) P s ↔ R s (s.set i sock) ∧ P () (s.set i sock) := .rfl

@[simp] theorem wp_getTicks {P : UInt32 → Stack → Prop} :
    wp ok R getTicks P s ↔ ∀ a : UInt32, ok s .ticks a → P a s := .rfl

variable {buf : RxBuf}

@[simp] theorem wp_recvFrame {P : Option Frame → Stack → Prop} :
    wp ok R (recvFrame buf) P s ↔ ∀ a : Option Frame, ok s (.recv buf) a → P a s := .rfl

@[simp] theorem wp_sendFrame {out : Out} {P : TxResult → Stack → Prop} :
    wp ok R (sendFrame out) P s ↔ ∀ a : TxResult, ok s (.send out) a → P a s := .rfl

@[simp] theorem wp_dropSock :
    wp ok R (dropSock i) P s ↔ R s (s.set i { s.sockets i with used := false }) ∧
      P () (s.set i { s.sockets i with used := false }) := .rfl

theorem wp_arpLookup {ip : UInt32} {P : Option Mac → Stack → Prop} (h : ∀ r, P r s) :
    wp ok R (arpLookup ip) P s := by
  unfold arpLookup
  simp only [wp_bind, wp_getState]
  split <;> exact h _

/-- A waiting loop keeps what one round keeps; the induction is on the rounds. -/
theorem wp_pollLoop {α : Type} {handle : Frame → NetM Unit}
    {before after : NetM (Option α)} {late : α} {start timeout : UInt32} {J : Stack → Prop}
    {Post : α → Stack → Prop}
    (hhandle : ∀ s f, J s → ok s (.recv buf) (some f) → wp ok R (handle f) (fun _ => J) s)
    (hbefore : ∀ s, J s → wp ok R before (fun r t => (r = none → J t) ∧
      ∀ a, r = some a → Post a t) s)
    (hafter : ∀ s, J s → wp ok R after (fun r t => (r = none → J t) ∧
      ∀ a, r = some a → Post a t) s)
    (hlate : ∀ s, J s → Post late s) (rounds : Nat) (h : J s) :
    wp ok R (pollLoop buf handle before after late start timeout rounds) Post s := by
  induction rounds generalizing s with
  | zero => exact hlate s h
  | succ rounds ih =>
    unfold pollLoop
    simp only [wp_bind, wp_getTicks]
    intro now _
    split
    · rw [wp_bind]
      refine wp_imp (hbefore s h) ?_
      rintro (_ | a) t ⟨hnone, hsome⟩
      · -- a frame is received and handled, or there is none
        have hinv := hnone rfl
        have hrest : ∀ u, J u → ∀ next : Option α → NetM α, (∀ a, next (some a) = pure a) →
            next none = pollLoop buf handle before after late start timeout rounds →
            wp ok R after (fun r => wp ok R (next r) Post) u := by
          intro u hu next hdone hagain
          refine wp_imp (hafter u hu) ?_
          rintro (_ | a) v ⟨hnone, hsome⟩
          · rw [hagain]
            exact ih (hnone rfl)
          · rw [hdone]
            exact hsome a rfl
        simp only [wp_bind, wp_recvFrame]
        rintro (_ | f) hf
        · rw [wp_bind]
          exact hrest t hinv _ (fun _ => rfl) rfl
        · simp only [wp_bind]
          refine wp_imp (hhandle t f hinv hf) fun _ u hu => ?_
          exact hrest u hu _ (fun _ => rfl) rfl
      · exact hsome a rfl
    · exact hlate s h

/-- `tcp_handle_packet` acts on the segment in a frame, if there is one and it has a
    socket. -/
theorem wp_tcpHandleVia {send : Fin tcpMaxSocks → UInt8 → List UInt8 → NetM Bool} {f : Frame} :
    wp ok R (tcpHandleVia send f) P s ↔
      match f.segment with
      | none => P () s
      | some seg =>
        match findSockByPort s seg.dstPort with
        | none => P () s
        | some i => wp ok R (handleSegment send i seg) P s := by
  have hport : f.tcpFields.dstPort = be16 f.byte (f.tcpOff + 2) := rfl
  unfold tcpHandleVia Frame.segment
  by_cases h1 : f.ipHlen < 20
  · rw [if_pos h1, if_neg (by omega)]
    exact .rfl
  by_cases h2 : f.len.toNat < f.tcpOff + 20
  · rw [if_neg h1, if_pos h2, if_neg (by omega)]
    exact .rfl
  by_cases h3 : f.len.toNat < 14 + f.ipTotal
  · rw [if_neg h1, if_neg h2, if_pos h3, if_neg (by omega)]
    exact .rfl
  rw [if_neg h1, if_neg h2, if_neg h3, wp_bind, wp_getState]
  by_cases h4 : f.tcpHlen < 20 ∨ 14 + f.ipTotal < f.tcpOff + f.tcpHlen
  · rw [if_neg (by omega)]
    cases findSockByPort s (be16 f.byte (f.tcpOff + 2)) with
    | none => exact .rfl
    | some i =>
      simp only
      rw [if_pos h4]
      exact .rfl
  rw [if_pos (by omega)]
  simp only
  rw [hport]
  cases findSockByPort s (be16 f.byte (f.tcpOff + 2)) with
  | none => exact .rfl
  | some i =>
    simp only
    rw [if_neg h4]

end

/-! ## What is to be shown of a property -/

/-- A segment for socket `i` is in a frame that has just been received in `buf`. -/
def Arrives (ok : Stack → (q : Req) → q.Ans → Prop) (buf : RxBuf) (s : Stack)
    (i : Fin tcpMaxSocks) (seg : RxSegment) : Prop :=
  ∃ f, ok s (.recv buf) (some f) ∧ (buf = .pktBuf → f.isTcp = true) ∧
    f.segment = some seg ∧ findSockByPort s seg.dstPort = some i

/-- Stores that concern neither sockets nor their histories. -/
structure Aside (s t : Stack) : Prop where
  sockets : t.sockets = s.sockets
  sent : t.sent = s.sent
  got : t.got = s.got

/-- A store is allowed and keeps the invariant.  Frames in the static buffer are handled while
    another function is still busy, sending a segment: these stay within `F`. -/
structure Good (R : Stack → Stack → Prop) (I : Stack → Prop) (F : Stack → Stack → Prop)
    (buf : RxBuf) (s t : Stack) : Prop where
  allowed : R s t
  inv : I t
  within : buf = .pktBuf → F s t

/-- The socket after a FIN, before the answer to it. -/
def Sock.takeFin (sock : Sock) (seg : RxSegment) : Sock :=
  { sock.takeAck seg with rcvNxt := seg.seq + 1 }

/-- The state after a FIN has been answered. -/
def TcpState.afterFin (st : TcpState) : TcpState := if st = .finWait2 then .timeWait else .closeWait

/-- The socket after the handshake. -/
def Sock.takeSynAck (sock : Sock) (seg : RxSegment) : Sock :=
  { sock with
    rcvNxt := seg.seq + 1
    sndUna := seg.ack
    peerWindow := seg.window
    state := .established }

/-- A segment that is neither a reset nor part of a handshake. -/
structure Plain (ok : Stack → (q : Req) → q.Ans → Prop) (buf : RxBuf) (s : Stack)
    (i : Fin tcpMaxSocks) (seg : RxSegment) : Prop where
  arrives : Arrives ok buf s i seg
  notRst : seg.isRst = false
  notSynSent : (s.sockets i).state ≠ .synSent

/-- The stores made while frames are handled. -/
structure KeepsHandling (ok : Stack → (q : Req) → q.Ans → Prop) (R : Stack → Stack → Prop)
    (I : Stack → Prop) (F : Stack → Stack → Prop) : Prop where
  refl : ∀ s, F s s
  trans : ∀ {s t u}, F s t → F t u → F s u
  aside : ∀ {s t}, I s → Aside s t → Good R I F .pktBuf s t
  reset : ∀ {buf s i seg}, I s → Arrives ok buf s i seg → seg.isRst = true →
    Good R I F buf s (s.set i { s.sockets i with state := .closed })
  synAck : ∀ {buf s i seg}, I s → Arrives ok buf s i seg → seg.isRst = false →
    (s.sockets i).state = .synSent → seg.isSyn = true → seg.isAck = true →
    seg.ack = (s.sockets i).sndNxt → Good R I F buf s (s.set i ((s.sockets i).takeSynAck seg))
  ack : ∀ {buf s i seg}, I s → Plain ok buf s i seg → seg.isFin = false →
    ¬ (seg.data ≠ [] ∧ seg.seq = (s.sockets i).rcvNxt) →
    Good R I F buf s (s.set i ((s.sockets i).takeAck seg))
  data : ∀ {buf s i seg}, I s → Plain ok buf s i seg → seg.isFin = false → seg.data ≠ [] →
    seg.seq = (s.sockets i).rcvNxt →
    Good R I F buf s (s.set i (((s.sockets i).takeAck seg).takeData seg))
  fin : ∀ {buf s i seg}, I s → Plain ok buf s i seg → seg.isFin = true →
    Good R I F buf s (s.set i ((s.sockets i).takeFin seg))
  /-- After a FIN of state `s` has been answered. -/
  finDone : ∀ {buf s t i seg}, I s → Plain ok buf s i seg → seg.isFin = true →
    F (s.set i ((s.sockets i).takeFin seg)) t → I t →
    Good R I F buf t (t.set i { t.sockets i with state := (t.sockets i).state.afterFin })
  /-- An acknowledgement built in state `s` is sent. -/
  answer : ∀ {s t i}, I s → F s t → I t →
    Good R I F .pktBuf t (t.emit i ((s.sockets i).segment tcpFlagAck []))

/-- A way to send keeps the invariant while it resolves the address; then the segment, as it
    was built at the start, goes out or does not. -/
def Sends (ok : Stack → (q : Req) → q.Ans → Prop) (R : Stack → Stack → Prop) (I : Stack → Prop)
    (F : Stack → Stack → Prop) (send : Fin tcpMaxSocks → UInt8 → List UInt8 → NetM Bool) : Prop :=
  ∀ s i flags data, I s →
    (∀ t, F s t → I t → R t (t.emit i ((s.sockets i).segment flags data))) →
    wp ok R (send i flags data) (fun r t' => ∃ t, I t ∧ F s t ∧
      (r = false ∧ t' = t ∨ t' = t.emit i ((s.sockets i).segment flags data))) s

theorem sends_sendVia {resolve : UInt32 → NetM (Option Mac)}
    (hresolve : ∀ s ip, I s → wp ok R (resolve ip) (fun _ t => I t ∧ F s t) s) :
    Sends ok R I F (sendVia resolve) := by
  intro s i flags data h hemit
  unfold sendVia
  rw [wp_bind, wp_getSock, wp_bind]
  refine wp_imp (hresolve s _ h) ?_
  rintro (_ | mac) t ⟨ht, hf⟩
  · exact ⟨t, ht, hf, .inl ⟨rfl, rfl⟩⟩
  · simp only [wp_bind, wp_sendFrame]
    intro r _
    split
    · exact ⟨t, ht, hf, .inl ⟨rfl, rfl⟩⟩
    simp only [wp_bind, wp_getState, wp_setState]
    exact ⟨hemit t hf ht, t, ht, hf, .inr rfl⟩

namespace KeepsHandling

variable (hk : KeepsHandling ok R I F)

include hk

theorem wp_answer {send : Fin tcpMaxSocks → UInt8 → List UInt8 → NetM Bool}
    (hsend : Sends ok R I F send) (h : I s) :
    wp ok R (send i tcpFlagAck []) (fun _ t => I t ∧ F s t) s := by
  refine wp_imp
    (hsend s i tcpFlagAck [] h fun t hf ht => (hk.answer h hf ht).allowed) ?_
  rintro r t' ⟨t, ht, hf, ⟨-, rfl⟩ | rfl⟩
  · exact ⟨ht, hf⟩
  · have hgood := hk.answer (i := i) h hf ht
    exact ⟨hgood.inv, hk.trans hf (hgood.within rfl)⟩

theorem wp_handleSegment {send : Fin tcpMaxSocks → UInt8 → List UInt8 → NetM Bool}
    (hsend : Sends ok R I F send) (h : I s) {buf : RxBuf} {seg : RxSegment}
    (harr : Arrives ok buf s i seg) :
    wp ok R (handleSegment send i seg) (fun _ t => I t ∧ (buf = .pktBuf → F s t)) s := by
  have hsame : I s ∧ (buf = .pktBuf → F s s) := ⟨h, fun _ => hk.refl s⟩
  -- a store, followed by an acknowledgement
  have hanswer : ∀ {u}, Good R I F buf s u →
      wp ok R (send i tcpFlagAck []) (fun _ t => I t ∧ (buf = .pktBuf → F s t)) u := fun hg =>
    wp_imp (hk.wp_answer hsend hg.inv) fun _ t ⟨hi, hf⟩ =>
      ⟨hi, fun hbuf => hk.trans (hg.within hbuf) hf⟩
  unfold handleSegment
  rw [wp_bind, wp_getSock]
  by_cases hrst : seg.isRst = true
  · rw [if_pos hrst, wp_setSock]
    have hg := hk.reset h harr hrst
    exact ⟨hg.allowed, hg.inv, hg.within⟩
  have hrst' : seg.isRst = false := by simpa using hrst
  rw [if_neg hrst]
  by_cases hsyn : (s.sockets i).state = .synSent
  · rw [if_pos hsyn]
    by_cases hsa : seg.isSyn = true ∧ seg.isAck = true
    · rw [if_pos hsa]
      by_cases hack : seg.ack = (s.sockets i).sndNxt
      · rw [if_neg (not_not.mpr hack)]
        have hg := hk.synAck h harr hrst' hsyn hsa.1 hsa.2 hack
        simp only [wp_bind, wp_setSock]
        exact ⟨hg.allowed, hanswer hg⟩
      rw [if_pos hack]
      exact hsame
    rw [if_neg hsa]
    exact hsame
  have hplain : Plain ok buf s i seg := ⟨harr, hrst', hsyn⟩
  have hnxt : ((s.sockets i).takeAck seg).rcvNxt = (s.sockets i).rcvNxt := by
    unfold Sock.takeAck
    split <;> rfl
  rw [if_neg hsyn]
  by_cases hfin : seg.isFin = true
  · rw [if_pos hfin]
    have hg := hk.fin h hplain hfin
    simp only [wp_bind, wp_setSock, wp_getSock]
    refine ⟨hg.allowed, wp_imp (hk.wp_answer hsend hg.inv) ?_⟩
    -- the state has been read again, after whatever the answer let in
    rintro - t ⟨ht, hf⟩
    have hdone := hk.finDone h hplain hfin hf ht
    have hft : buf = .pktBuf → F s t := fun hbuf => hk.trans (hg.within hbuf) hf
    unfold TcpState.afterFin at hdone
    by_cases hfw : (t.sockets i).state = .finWait2
    · rw [if_pos hfw] at hdone ⊢
      simp only [wp_bind, wp_setSock]
      refine ⟨hdone.allowed, wp_imp (hk.wp_answer hsend hdone.inv) ?_⟩
      rintro - u ⟨hu, hfu⟩
      exact ⟨hu, fun hbuf => hk.trans (hft hbuf) (hk.trans (hdone.within hbuf) hfu)⟩
    rw [if_neg hfw] at hdone ⊢
    exact ⟨hdone.allowed, hdone.inv, fun hbuf => hk.trans (hft hbuf) (hdone.within hbuf)⟩
  have hfin' : seg.isFin = false := by simpa using hfin
  rw [if_neg hfin]
  simp only [hnxt]
  by_cases hdata : seg.data ≠ [] ∧ seg.seq = (s.sockets i).rcvNxt
  · rw [if_pos hdata]
    have hg := hk.data h hplain hfin' hdata.1 hdata.2
    simp only [wp_bind, wp_setSock]
    exact ⟨hg.allowed, hanswer hg⟩
  rw [if_neg hdata, wp_setSock]
  have hg := hk.ack h hplain hfin' hdata
  exact ⟨hg.allowed, hg.inv, hg.within⟩

theorem wp_tcpHandleVia {send : Fin tcpMaxSocks → UInt8 → List UInt8 → NetM Bool}
    (hsend : Sends ok R I F send) (h : I s) {buf : RxBuf} {f : Frame}
    (hf : ok s (.recv buf) (some f)) (htcp : buf = .pktBuf → f.isTcp = true) :
    wp ok R (tcpHandleVia send f) (fun _ t => I t ∧ (buf = .pktBuf → F s t)) s := by
  rw [Net.wp_tcpHandleVia]
  cases hseg : f.segment with
  | none => exact ⟨h, fun _ => hk.refl s⟩
  | some seg =>
    simp only
    cases hfind : findSockByPort s seg.dstPort with
    | none => exact ⟨h, fun _ => hk.refl s⟩
    | some i => exact hk.wp_handleSegment hsend h ⟨f, hf, htcp, hseg, hfind⟩

theorem wp_setAside {t : Stack} (h : I s) (ha : Aside s t) :
    wp ok R (Reactive.setState t : NetM Unit) (fun _ t => I t ∧ F s t) s := by
  have hg := hk.aside h ha
  exact ⟨hg.allowed, hg.inv, hg.within rfl⟩

variable {f : Frame}

theorem wp_handleArp (h : I s) :
    wp ok R (handleArp f) (fun _ t => I t ∧ F s t) s := by
  have hreply : ∀ t, I t ∧ F s t → wp ok R (if be16 f.byte 20 = 1 ∧ be32 f.byte 38 = netHostIp
      then do let _ ← sendFrame (.arpReply (macAt f.byte 22) (be32 f.byte 28))
      else pure ()) (fun _ t => I t ∧ F s t) t := by
    intro t ht
    split
    · exact fun _ _ => ht
    · exact ht
  unfold handleArp
  simp only
  split
  · rw [wp_bind, wp_getState, wp_bind]
    exact wp_imp (hk.wp_setAside h ⟨rfl, rfl, rfl⟩) fun _ => hreply
  · exact hreply s ⟨h, hk.refl s⟩

theorem wp_handleIcmp (h : I s) :
    wp ok R (handleIcmp f) (fun _ t => I t ∧ F s t) s := by
  have hsame : I s ∧ F s s := ⟨h, hk.refl s⟩
  unfold handleIcmp
  simp only
  split
  · exact hsame
  split
  · exact hsame
  split
  · split
    · rw [wp_bind, wp_getState]
      exact hk.wp_setAside h ⟨rfl, rfl, rfl⟩
    · exact hsame
  · exact hsame

theorem wp_netParsePacket {tcp : Frame → NetM Unit} (h : I s)
    (htcp : f.isTcp = true → wp ok R (tcp f) (fun _ t => I t ∧ F s t) s) :
    wp ok R (netParsePacket tcp f) (fun _ t => I t ∧ F s t) s := by
  have hsame : I s ∧ F s s := ⟨h, hk.refl s⟩
  unfold netParsePacket
  simp only
  by_cases hlen : f.len < 14
  · rw [if_pos hlen]
    exact hsame
  rw [if_neg hlen]
  by_cases harp : be16 f.byte 12 = ethArp
  · rw [if_pos harp]
    split
    · exact hk.wp_handleArp h
    · exact hsame
  rw [if_neg harp]
  by_cases hip : be16 f.byte 12 = ethIp
  · rw [if_pos hip]
    by_cases hvalid : f.ipValid = true
    · rw [if_pos hvalid]
      by_cases hicmp : f.byte 23 = ipIcmp
      · -- not TCP as well
        have hno : ¬ (f.byte 23 = ipTcp ∧ 14 + f.ipHlen + 20 ≤ f.len.toNat) := fun hp => by
          rw [hicmp] at hp
          exact absurd hp.1 (by decide)
        rw [if_neg hno]
        split
        · rw [wp_bind]
          exact wp_imp (hk.wp_handleIcmp h) fun _ _ ht => ht
        · exact hsame
      rw [if_neg fun hp => hicmp hp.1]
      split
      · next hp =>
        refine htcp ?_
        unfold Frame.isTcp
        simp only [Bool.and_eq_true, decide_eq_true_eq, beq_iff_eq]
        exact ⟨⟨⟨⟨UInt16.not_lt.mp hlen, hip⟩, hvalid⟩, hp.1⟩, hp.2⟩
      · exact hsame
    rw [if_neg hvalid]
    exact hsame
  rw [if_neg hip]
  exact hsame

theorem wp_netArpResolve {parse : Frame → NetM Unit} {ip : UInt32} (rounds : Nat)
    (hparse : ∀ t f, I t → ok t (.recv .pktBuf) (some f) →
      wp ok R (parse f) (fun _ u => I u ∧ F t u) t) (h : I s) :
    wp ok R (netArpResolve parse rounds ip) (fun _ t => I t ∧ F s t) s := by
  have hsame : I s ∧ F s s := ⟨h, hk.refl s⟩
  unfold netArpResolve
  rw [wp_bind]
  refine wp_arpLookup ?_
  rintro (_ | mac)
  · simp only [wp_bind, wp_sendFrame, wp_getTicks]
    intro _ _ start _
    refine wp_pollLoop (J := fun t => I t ∧ F s t) ?_ ?_ ?_ (fun _ ht => ht) rounds hsame
    · rintro t f ⟨ht, hft⟩ hok
      exact wp_imp (hparse t f ht hok) fun _ u hu => ⟨hu.1, hk.trans hft hu.2⟩
    · exact fun t ht => ⟨fun _ => ht, fun _ ha => by cases ha⟩
    · intro t ht
      rw [wp_bind]
      refine wp_arpLookup ?_
      rintro (_ | mac)
      · exact ⟨fun _ => ht, fun _ ha => by cases ha⟩
      · exact ⟨fun ha => (by cases ha), fun _ _ => ht⟩
  · exact hsame

theorem sends_sendTcpSegment (rounds : Nat) : Sends ok R I F (sendTcpSegment rounds) := by
  induction rounds with
  | zero =>
    refine sends_sendVia fun s ip h => ?_
    exact hk.wp_netArpResolve 0 (fun t _ ht _ => ⟨ht, hk.refl t⟩) h
  | succ rounds ih =>
    refine sends_sendVia fun s ip h => hk.wp_netArpResolve (rounds + 1) ?_ h
    intro t f ht hok
    refine hk.wp_netParsePacket ht fun htcp => ?_
    exact wp_imp (hk.wp_tcpHandleVia ih ht hok fun _ => htcp) fun _ u ⟨hu, hfu⟩ =>
      ⟨hu, hfu rfl⟩

theorem wp_tcpHandlePacket (rounds : Nat) (h : I s)
    (hf : ok s (.recv .stack) (some f)) :
    wp ok R (tcpHandlePacket rounds f) (fun _ => I) s :=
  wp_imp (hk.wp_tcpHandleVia (hk.sends_sendTcpSegment rounds) h hf (by rintro ⟨⟩))
    fun _ _ ht => ht.1

theorem wp_pollLoop {α : Type} {before after : NetM (Option α)} {late : α} {start timeout : UInt32}
    {Post : α → Stack → Prop} (nesting rounds : Nat)
    (hbefore : ∀ t, I t → wp ok R before
      (fun r u => (r = none → I u) ∧ ∀ a, r = some a → Post a u) t)
    (hafter : ∀ t, I t → wp ok R after
      (fun r u => (r = none → I u) ∧ ∀ a, r = some a → Post a u) t)
    (hlate : ∀ t, I t → Post late t) (h : I s) :
    wp ok R (pollLoop .stack (tcpHandlePacket nesting) before after late start timeout rounds)
      Post s :=
  Net.wp_pollLoop (fun _ _ ht hok => hk.wp_tcpHandlePacket nesting ht hok) hbefore hafter hlate
    rounds h

end KeepsHandling

/-! ## Calls -/

/-- The calls of the stack's interface.  `handle` is `tcp_handle_packet` on a frame that is
    received. -/
inductive Call where
  | connect (rounds : Nat) (ip : UInt32) (port : UInt16) (timeoutMs : Int)
  | send (rounds : Nat) (i : Fin tcpMaxSocks) (data : Mem) (len : UInt16) (timeoutMs : Int)
  | recv (rounds : Nat) (i : Fin tcpMaxSocks) (maxLen : UInt16) (timeoutMs : Int)
  | close (rounds : Nat) (i : Fin tcpMaxSocks)
  | ping (rounds : Nat) (dstIp : UInt32) (timeoutMs : Int)
  | handle (rounds : Nat)

/-- The program of a call. -/
def Call.prog : Call → NetM Unit
  | .connect rounds ip port timeoutMs => do
    let _ ← tcpConnect rounds ip port timeoutMs
  | .send rounds i data len timeoutMs => do
    let _ ← tcpSend rounds i data len timeoutMs
  | .recv rounds i maxLen timeoutMs => do
    let _ ← tcpRecv rounds i maxLen timeoutMs
  | .close rounds i => tcpClose rounds i
  | .ping rounds dstIp timeoutMs => do
    let _ ← netPing rounds dstIp timeoutMs
  | .handle rounds => do
    match ← recvFrame .stack with
    | some f => tcpHandlePacket rounds f
    | none => pure ()

/-- The programs that the calls allowed by `okCall` run. -/
def calls (okCall : Stack → Call → Prop) (s : Stack) (p : NetM Unit) : Prop :=
  ∃ c, okCall s c ∧ p = c.prog

/-- The variables after `tcp_connect` has filled in socket `i`. -/
def Stack.opening (s : Stack) (i : Fin tcpMaxSocks) (ip : UInt32) (port : UInt16) (isn : UInt32) :
    Stack :=
  { s with nextEphemeral := s.nextEphemeral + 1 }.reopen i
    (Sock.opened ip port s.nextEphemeral isn)

/-- The variables after `tcp_send` has gone back to the first byte not acknowledged. -/
def Stack.rewound (s : Stack) (i : Fin tcpMaxSocks) : Stack :=
  s.set i { s.sockets i with sndNxt := (s.sockets i).sndUna }

/-- The variables after `n` bytes have been copied to the caller of `tcp_recv`. -/
def Stack.taken (s : Stack) (i : Fin tcpMaxSocks) (n : Nat) : Stack :=
  (s.set i ((s.sockets i).takeOut n)).copyOut i (bytesAt (s.sockets i).rcvBuf 0 n)

/-- A segment built in state `s` has been sent, when the variables were those of `t`. -/
def Stack.after (t s : Stack) (i : Fin tcpMaxSocks) (flags : UInt8) (data : List UInt8) : Stack :=
  t.emit i ((s.sockets i).segment flags data)

/-- The stores of the calls themselves. -/
structure Keeps (ok : Stack → (q : Req) → q.Ans → Prop) (okCall : Stack → Call → Prop)
    (R : Stack → Stack → Prop) (I : Stack → Prop) (F : Stack → Stack → Prop) : Prop
    extends KeepsHandling ok R I F where
  connect : ∀ {s i rounds ip port timeoutMs isn}, I s → okCall s (.connect rounds ip port timeoutMs) →
    (s.sockets i).used = false → R s (s.opening i ip port isn) ∧ I (s.opening i ip port isn)
  /-- The SYN, built when the socket had just been opened. -/
  syn : ∀ {s t i ip port isn}, I s → F (s.opening i ip port isn) t → I t →
    R t (t.after (s.opening i ip port isn) i tcpFlagSyn []) ∧
      I (t.after (s.opening i ip port isn) i tcpFlagSyn [])
  synSent : ∀ {s t u i ip port isn}, I s → F (s.opening i ip port isn) t → I t →
    u = t.after (s.opening i ip port isn) i tcpFlagSyn [] →
    R u (u.set i { u.sockets i with sndNxt := (u.sockets i).isn + 1 }) ∧
      I (u.set i { u.sockets i with sndNxt := (u.sockets i).isn + 1 })
  /-- A socket is given up by `tcp_close`, or by `tcp_connect` that found it free. -/
  drop : ∀ {s i}, I s →
    (∃ s₀ rounds, okCall s₀ (.close rounds i)) ∨ (∃ s₀, I s₀ ∧ (s₀.sockets i).used = false) →
    R s (s.set i { s.sockets i with used := false }) ∧ I (s.set i { s.sockets i with used := false })
  rewind : ∀ {s i rounds data len timeoutMs}, I s → okCall s (.send rounds i data len timeoutMs) →
    (s.sockets i).used = true → (s.sockets i).state = .established →
    R s (s.rewound i) ∧ I (s.rewound i)
  /-- The data, built after the call `tcp_send` in state `s` went back. -/
  push : ∀ {s t i rounds data len timeoutMs}, I s → okCall s (.send rounds i data len timeoutMs) →
    (s.sockets i).used = true → (s.sockets i).state = .established → F (s.rewound i) t → I t →
    R t (t.after (s.rewound i) i (tcpFlagPsh ||| tcpFlagAck)
      (bytesAt data 0 (min len.toNat rcvBufSize))) ∧
    I (t.after (s.rewound i) i (tcpFlagPsh ||| tcpFlagAck)
      (bytesAt data 0 (min len.toNat rcvBufSize)))
  pushed : ∀ {s t u i rounds data len timeoutMs}, I s → okCall s (.send rounds i data len timeoutMs) →
    (s.sockets i).used = true → (s.sockets i).state = .established → F (s.rewound i) t → I t →
    u = t.after (s.rewound i) i (tcpFlagPsh ||| tcpFlagAck)
      (bytesAt data 0 (min len.toNat rcvBufSize)) →
    R u (u.set i { u.sockets i with
      sndNxt := (u.sockets i).sndUna + UInt32.ofNat (min len.toNat rcvBufSize) }) ∧
    I (u.set i { u.sockets i with
      sndNxt := (u.sockets i).sndUna + UInt32.ofNat (min len.toNat rcvBufSize) })
  take : ∀ {s i n}, I s → 0 < (s.sockets i).rcvLen → n ≤ (s.sockets i).rcvLen →
    R s (s.taken i n) ∧ I (s.taken i n)
  /-- The FIN of the call `tcp_close` in state `s`. -/
  finish : ∀ {s t i rounds}, I s → okCall s (.close rounds i) → (s.sockets i).used = true →
    (s.sockets i).state = .established → F s t → I t →
    R t (t.after s i (tcpFlagFin ||| tcpFlagAck) []) ∧ I (t.after s i (tcpFlagFin ||| tcpFlagAck) [])
  finished : ∀ {s t u i rounds}, I s → okCall s (.close rounds i) → (s.sockets i).used = true →
    (s.sockets i).state = .established → F s t → I t →
    u = t ∨ u = t.after s i (tcpFlagFin ||| tcpFlagAck) [] →
    R u (u.set i { u.sockets i with
      sndNxt := (u.sockets i).sndNxt + 1, state := .finWait1 }) ∧
    I (u.set i { u.sockets i with
      sndNxt := (u.sockets i).sndNxt + 1, state := .finWait1 })

namespace Keeps

variable {okCall : Stack → Call → Prop} (hk : Keeps ok okCall R I F)

include hk

theorem wp_dropSock (h : I s)
    (hdrop : (∃ s0 rounds, okCall s0 (.close rounds i)) ∨ (∃ s0, I s0 ∧ (s0.sockets i).used = false)) :
    wp ok R (dropSock i) (fun _ => I) s := by
  rw [Net.wp_dropSock]
  exact hk.drop h hdrop

theorem wp_pollAfter {α : Type} {after : NetM (Option α)} {late : α} {start timeout : UInt32}
    (nesting rounds : Nat)
    (hafter : ∀ (P : Option α → Stack → Prop) t, (∀ r, P r t) → wp ok R after P t) (h : I s) :
    wp ok R (pollAfter .stack (tcpHandlePacket nesting) after late start timeout rounds)
      (fun _ => I) s := by
  refine hk.wp_pollLoop nesting rounds ?_ ?_ (fun t ht => ht) h
  · exact fun t ht => ⟨fun _ => ht, fun _ ha => by cases ha⟩
  · exact fun t ht => hafter _ t fun r => ⟨fun _ => ht, fun _ _ => ht⟩

variable {rounds : Nat} {timeoutMs : Int}

theorem wp_tcpPollUntil {target : TcpState} (h : I s) :
    wp ok R (tcpPollUntil rounds i target timeoutMs) (fun _ => I) s := by
  unfold tcpPollUntil
  rw [wp_bind, wp_getSock]
  split
  · simp only [wp_bind, wp_getTicks]
    intro start _
    refine hk.wp_pollAfter rounds rounds (fun P t hP => ?_) h
    rw [wp_bind, wp_getSock]
    split
    · exact hP _
    · split <;> exact hP _
  · exact h

theorem wp_tcpConnect {ip : UInt32} {port : UInt16} (h : I s)
    (hok : okCall s (.connect rounds ip port timeoutMs)) :
    wp ok R (tcpConnect rounds ip port timeoutMs) (fun _ => I) s := by
  unfold tcpConnect
  rw [wp_bind, wp_getState]
  cases hfind : (List.finRange tcpMaxSocks).find? fun i => !(s.sockets i).used with
  | none => exact h
  | some i =>
    have hfree : (s.sockets i).used = false := by simpa using find?_some hfind
    simp only [wp_bind, wp_getTicks, wp_setState]
    intro ticks _
    obtain ⟨hR, hI⟩ : R s (s.opening i ip port (ticks <<< 4)) ∧
        I (s.opening i ip port (ticks <<< 4)) := hk.connect h hok hfree
    refine ⟨hR, wp_imp (hk.sends_sendTcpSegment rounds _ _ _ _ hI
      fun t hf ht => (hk.syn h hf ht).1) ?_⟩
    rintro r u ⟨t, ht, hf, hu⟩
    have hIu : I u := by
      rcases hu with ⟨-, rfl⟩ | rfl
      · exact ht
      · exact (hk.syn h hf ht).2
    split
    · next hr =>
      rcases hu with ⟨hr', -⟩ | hu
      · rw [hr'] at hr
        cases hr
      simp only [wp_bind, wp_getSock, wp_setSock]
      obtain ⟨hR', hI'⟩ := hk.synSent h hf ht hu
      refine ⟨hR', wp_imp (hk.wp_tcpPollUntil hI') fun b v hv => ?_⟩
      split
      · exact hv
      rw [wp_bind]
      exact hk.wp_dropSock hv (.inr ⟨s, h, hfree⟩)
    rw [wp_bind]
    exact hk.wp_dropSock hIu (.inr ⟨s, h, hfree⟩)

theorem wp_tcpSend {data : Mem} {len : UInt16} (h : I s)
    (hok : okCall s (.send rounds i data len timeoutMs)) :
    wp ok R (tcpSend rounds i data len timeoutMs) (fun _ => I) s := by
  unfold tcpSend
  rw [wp_bind, wp_getSock]
  split
  · next hcond =>
    obtain ⟨hused, hest⟩ := hcond
    obtain ⟨hR, hI⟩ := hk.rewind h hok hused hest
    simp only [wp_bind, wp_setSock]
    refine ⟨hR, wp_imp (hk.sends_sendTcpSegment rounds _ _ _ _ hI
      fun t hf ht => (hk.push h hok hused hest hf ht).1) ?_⟩
    rintro r u ⟨t, ht, hf, hu⟩
    split
    · next hr =>
      rcases hu with ⟨hr', -⟩ | hu
      · rw [hr'] at hr
        cases hr
      simp only [wp_bind, wp_getSock, wp_setSock, wp_getTicks]
      obtain ⟨hR', hI'⟩ := hk.pushed h hok hused hest hf ht hu
      refine ⟨hR', fun start _ => hk.wp_pollAfter rounds rounds (fun P v hP => ?_) hI'⟩
      rw [wp_bind, wp_getSock]
      split <;> exact hP _
    rcases hu with ⟨-, rfl⟩ | rfl
    · exact ht
    · exact (hk.push h hok hused hest hf ht).2
  · exact h

theorem wp_tcpRecv {maxLen : UInt16} (h : I s) :
    wp ok R (tcpRecv rounds i maxLen timeoutMs) (fun _ => I) s := by
  unfold tcpRecv
  rw [wp_bind, wp_getSock]
  split
  · simp only [wp_bind, wp_getTicks]
    intro start _
    refine hk.wp_pollLoop rounds rounds ?_ ?_ (fun t ht => ht) h
    · intro t ht
      rw [wp_bind, wp_getSock]
      split
      · next hlen =>
        obtain ⟨hR, hI⟩ := hk.take (n := min (t.sockets i).rcvLen maxLen.toNat) ht hlen
          (Nat.min_le_left ..)
        simp only [wp_bind, wp_getState, wp_setState]
        exact ⟨hR, fun ha => (by cases ha), fun _ _ => hI⟩
      · exact ⟨fun _ => ht, fun _ ha => by cases ha⟩
    · intro t ht
      rw [wp_bind, wp_getSock]
      split
      · exact ⟨fun ha => (by cases ha), fun _ _ => ht⟩
      · exact ⟨fun _ => ht, fun _ ha => by cases ha⟩
  · exact h

theorem wp_tcpClose (h : I s) (hok : okCall s (.close rounds i)) :
    wp ok R (tcpClose rounds i) (fun _ => I) s := by
  unfold tcpClose
  rw [wp_bind, wp_getSock]
  simp only
  split
  · next hused =>
    split
    · next hest =>
      simp only [wp_bind, wp_getSock, wp_setSock, wp_getTicks]
      refine wp_imp (hk.sends_sendTcpSegment rounds _ _ _ _ h
        fun t hf ht => (hk.finish h hok hused hest hf ht).1) ?_
      rintro r u ⟨t, ht, hf, hu⟩
      have hu' : u = t ∨ u = t.after s i (tcpFlagFin ||| tcpFlagAck) [] := by
        rcases hu with ⟨-, hu⟩ | hu
        · exact .inl hu
        · exact .inr hu
      obtain ⟨hR, hI⟩ := hk.finished h hok hused hest hf ht hu'
      refine ⟨hR, fun start _ => wp_imp (hk.wp_pollAfter rounds rounds
        (fun P v hP => ?_) hI) fun _ v hv => hk.wp_dropSock hv (.inl ⟨s, rounds, hok⟩)⟩
      rw [wp_bind, wp_getSock]
      split <;> exact hP _
    · exact hk.wp_dropSock h (.inl ⟨s, rounds, hok⟩)
  · exact h

theorem wp_netParse (t : Stack) (f : Frame) (h : I t)
    (hf : ok t (.recv .pktBuf) (some f)) :
    wp ok R (netParsePacket (tcpHandlePacket rounds) f) (fun _ u => I u ∧ F t u) t :=
  hk.wp_netParsePacket h fun htcp =>
    wp_imp (hk.wp_tcpHandleVia (hk.sends_sendTcpSegment rounds) h hf fun _ => htcp)
      fun _ _ ⟨hu, hfu⟩ => ⟨hu, hfu rfl⟩

theorem wp_pingVia {arpTarget dstIp : UInt32} {mac : Mac}
    (h : I s) : wp ok R (pingVia rounds arpTarget dstIp timeoutMs mac) (fun _ => I) s := by
  unfold pingVia
  rw [wp_bind, wp_getState, wp_bind]
  refine wp_imp (hk.wp_setAside h ⟨rfl, rfl, rfl⟩) ?_
  rintro - t ⟨ht, -⟩
  simp only [wp_bind, wp_getTicks, wp_sendFrame]
  intro start _ _ _
  refine Net.wp_pollLoop (J := I) ?_ ?_ ?_ (fun _ hv => hv) rounds ht
  · exact fun v f hv hf => wp_imp (hk.wp_netParse v f hv hf) fun _ _ hw => hw.1
  · exact fun v hv => ⟨fun _ => hv, fun _ ha => by cases ha⟩
  · intro v hv
    simp only [wp_bind, wp_getState]
    split
    · exact ⟨fun ha => (by cases ha), fun _ _ => hv⟩
    · exact ⟨fun _ => hv, fun _ ha => by cases ha⟩

theorem wp_netPing {dstIp : UInt32} (h : I s) :
    wp ok R (netPing rounds dstIp timeoutMs) (fun _ => I) s := by
  have hresolve : ∀ {t ip}, I t → wp ok R (netArpResolve
      (netParsePacket (tcpHandlePacket rounds)) rounds ip) (fun _ => I) t := fun ht =>
    wp_imp (hk.wp_netArpResolve rounds hk.wp_netParse ht) fun _ _ hu => hu.1
  unfold netPing
  rw [wp_bind]
  refine wp_imp (hresolve h) ?_
  rintro (_ | mac) t ht
  · rw [wp_bind]
    refine wp_imp (hresolve ht) ?_
    rintro (_ | mac) u hu
    · exact hu
    · exact hk.wp_pingVia hu
  · exact hk.wp_pingVia ht

theorem call {p : NetM Unit} (h : I s) (hc : calls okCall s p) : wp ok R p (fun _ => I) s := by
  obtain ⟨c, hok, rfl⟩ := hc
  cases c with
  | connect rounds ip port timeoutMs =>
    rw [Call.prog, wp_bind]
    exact hk.wp_tcpConnect h hok
  | send rounds i data len timeoutMs =>
    rw [Call.prog, wp_bind]
    exact hk.wp_tcpSend h hok
  | recv rounds i maxLen timeoutMs =>
    rw [Call.prog, wp_bind]
    exact hk.wp_tcpRecv h
  | close rounds i => exact hk.wp_tcpClose h hok
  | ping rounds dstIp timeoutMs =>
    rw [Call.prog, wp_bind]
    exact hk.wp_netPing h
  | handle rounds =>
    simp only [Call.prog, wp_bind, wp_recvFrame]
    rintro (_ | f) hf
    · exact h
    · exact hk.wp_tcpHandlePacket rounds h hf

end Keeps

export Stack (emit_sent set_self)

end Noverix.Net
