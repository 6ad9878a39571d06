/-
  The network stack: kernel/net/net.c and kernel/net/tcp.c.

  Functions are programs over the stack's static variables (`Lib.Reactive`) that
  ask the machine for the tick counter, for received frames, and to transmit.
  A C function that returns a negative number on failure returns `none` or
  `false`.  A waiting loop ends by its own clock; since the clock is the
  machine's, a call is unrolled for a number of rounds given as a parameter,
  and statements are about every such number.

  The functions call each other in a circle: sending a segment resolves the
  peer's address, which waits for frames, which may be segments to answer.  The
  same parameter bounds that nesting.  `net_arp_resolve` receives into a static
  buffer that the inner calls overwrite; no caller reads a frame after it has
  sent, so a frame is a value here.
-/

import Noverix.Lib.Reactive
import Noverix.Net.Packet

namespace Noverix.Net

open Lib
open Lib.Reactive (getState setState ask)

/-! ## State -/

inductive TcpState where
  | closed
  | synSent
  | established
  | finWait1
  | finWait2
  | timeWait
  | closeWait
  | lastAck
deriving DecidableEq, Repr

/-- The value of a state's macro in tcp.h; the code compares them with `>=`. -/
def TcpState.code : TcpState → Nat
  | .closed => 0
  | .synSent => 1
  | .established => 2
  | .finWait1 => 3
  | .finWait2 => 4
  | .timeWait => 5
  | .closeWait => 6
  | .lastAck => 7

abbrev tcpMaxSocks : Nat := 4

/-- For numerals that name a socket, with the zero that `Fin` asks for. -/
instance : @NeZero Nat Zero.ofOfNat0 tcpMaxSocks := ⟨by decide⟩

/-- The size of `rcv_buf`. -/
abbrev rcvBufSize : Nat := 1460

/-- `tcp_sock_t`. -/
structure Sock where
  used : Bool
  state : TcpState
  dstIp : UInt32
  dstPort : UInt16
  srcPort : UInt16
  sndNxt : UInt32
  rcvNxt : UInt32
  sndUna : UInt32
  peerWindow : UInt16
  rcvBuf : Mem
  rcvLen : Nat
  isn : UInt32

/-- A socket after `lib_memset(sock, 0, sizeof(*sock))`. -/
def Sock.zero : Sock := ⟨false, .closed, 0, 0, 0, 0, 0, 0, 0, fun _ => 0, 0, 0⟩

/-- The received bytes that wait in the socket. -/
def Sock.buffered (sock : Sock) : List UInt8 := bytesAt sock.rcvBuf 0 sock.rcvLen

/-- A hardware address. -/
abbrev Mac := Fin 6 → UInt8

/-- A segment that `send_tcp_segment` builds. -/
structure Segment where
  dstIp : UInt32
  srcPort : UInt16
  dstPort : UInt16
  seq : UInt32
  ack : UInt32
  flags : UInt8
  data : List UInt8
deriving DecidableEq, Repr

/-- What is handed to the network card. -/
inductive Out where
  | arpRequest (ip : UInt32)
  | arpReply (tha : Mac) (tpa : UInt32)
  | icmpEcho (mac : Mac) (dstIp : UInt32) (id seq : UInt16)
  | tcp (mac : Mac) (seg : Segment)

/-- The static variables of net.c and tcp.c, and two histories that no function reads. -/
structure Stack where
  sockets : Fin tcpMaxSocks → Sock
  nextEphemeral : UInt16
  arpCacheIp : UInt32
  arpCacheMac : Mac
  arpCacheValid : Bool
  pingReplyReceived : Bool
  pingReplyId : UInt16
  pingReplySeq : UInt16
  /-- The segments handed to the card since the socket was last opened, oldest first. -/
  sent : Fin tcpMaxSocks → List Segment
  /-- The bytes `tcp_recv` has copied out since the socket was last opened. -/
  got : Fin tcpMaxSocks → List UInt8

/-- The variables after `net_init` and `tcp_init`. -/
def Stack.init : Stack where
  sockets := fun _ => Sock.zero
  nextEphemeral := 40000
  arpCacheIp := 0
  arpCacheMac := fun _ => 0
  arpCacheValid := false
  pingReplyReceived := false
  pingReplyId := 0
  pingReplySeq := 0
  sent := fun _ => []
  got := fun _ => []

namespace Stack

/-- Store a socket. -/
def set (s : Stack) (i : Fin tcpMaxSocks) (sock : Sock) : Stack :=
  { s with sockets := Function.update s.sockets i sock }

/-- A segment of socket `i` goes to the card. -/
def emit (s : Stack) (i : Fin tcpMaxSocks) (seg : Segment) : Stack :=
  { s with sent := Function.update s.sent i (s.sent i ++ [seg]) }

/-- Socket `i` is opened anew. -/
def reopen (s : Stack) (i : Fin tcpMaxSocks) (sock : Sock) : Stack :=
  { s with
    sockets := Function.update s.sockets i sock
    sent := Function.update s.sent i []
    got := Function.update s.got i [] }

/-- Bytes of socket `i` are copied to the caller. -/
def copyOut (s : Stack) (i : Fin tcpMaxSocks) (bytes : List UInt8) : Stack :=
  { s with got := Function.update s.got i (s.got i ++ bytes) }

/-- Remember an address. -/
def cacheArp (s : Stack) (ip : UInt32) (mac : Mac) : Stack :=
  { s with arpCacheIp := ip, arpCacheMac := mac, arpCacheValid := true }

end Stack

/-! ## Programs -/

/-- The buffer a frame is received into: the static one of net.c, or a local one. -/
inductive RxBuf where
  | pktBuf
  | stack
deriving DecidableEq

/-- The results of `rtl8139_send`: 0; -1, before anything reached the card; -2, the card did
    not confirm in time. -/
inductive TxResult where
  | ok
  | refused
  | unconfirmed
deriving DecidableEq

/-- What the stack asks of the machine. -/
inductive Req where
  /-- `get_ticks()` -/
  | ticks
  /-- `rtl8139_recv(buf, &len)` -/
  | recv (buf : RxBuf)
  /-- `rtl8139_send` -/
  | send (out : Out)

/-- The answers. -/
def Req.Ans : Req → Type
  | .ticks => UInt32
  | .recv _ => Option Frame
  | .send _ => TxResult

/-- A function of the stack. -/
abbrev NetM (α : Type) := Reactive Stack Req Req.Ans α

def getTicks : NetM UInt32 := ask Req.ticks

def recvFrame (buf : RxBuf) : NetM (Option Frame) := ask (Req.recv buf)

def sendFrame (out : Out) : NetM TxResult := ask (Req.send out)

def getSock (i : Fin tcpMaxSocks) : NetM Sock := do
  let s ← getState
  return s.sockets i

def setSock (i : Fin tcpMaxSocks) (sock : Sock) : NetM Unit := do
  let s ← getState
  setState (s.set i sock)

/-- `timeout_ticks` for a timeout given in milliseconds. -/
def timeoutTicks (timeoutMs : Int) : UInt32 := UInt32.ofInt ((timeoutMs + 9).tdiv 10)

/-- The waiting loops, `while ((get_ticks() - start) < timeout) { ... }`: look at the state,
    receive a frame if there is one and handle it, look again.  `before` and `after` end the
    loop with a result, and `late` is the result when the time is up. -/
def pollLoop {α : Type} (buf : RxBuf) (handle : Frame → NetM Unit) (before after : NetM (Option α))
    (late : α) (start timeout : UInt32) : Nat → NetM α
  | 0 => return late
  | rounds + 1 => do
    let now ← getTicks
    if now - start < timeout then
      match ← before with
      | some r => return r
      | none =>
        match ← recvFrame buf with
        | some f => handle f
        | none => pure ()
        match ← after with
        | some r => return r
        | none => pollLoop buf handle before after late start timeout rounds
    else
      return late

/-- A loop that only looks after it has received. -/
def pollAfter {α : Type} (buf : RxBuf) (handle : Frame → NetM Unit) (after : NetM (Option α))
    (late : α) (start timeout : UInt32) (rounds : Nat) : NetM α :=
  pollLoop buf handle (pure none) after late start timeout rounds

/-! ## ARP and ICMP -/

/-- The six bytes at `off`. -/
def macAt (m : Mem) (off : Nat) : Mac := fun k => m (off + k.val)

def handleArp (f : Frame) : NetM Unit := do
  let oper := be16 f.byte 20
  let sha := macAt f.byte 22
  let spa := be32 f.byte 28
  let tpa := be32 f.byte 38
  if oper = 2 ∧ tpa = netHostIp then
    let s ← getState
    setState (s.cacheArp spa sha)
  if oper = 1 ∧ tpa = netHostIp then
    let _ ← sendFrame (.arpReply sha spa)

/-- The ICMP part of a frame with its checksum field cleared. -/
def icmpCleared (f : Frame) : Mem := fun k =>
  if k = f.tcpOff + 2 ∨ k = f.tcpOff + 3 then 0 else f.byte k

def checkIcmpChecksum (f : Frame) (icmpLen : Nat) : Bool :=
  le16 f.byte (f.tcpOff + 2) == netChecksum (icmpCleared f) f.tcpOff icmpLen

def handleIcmp (f : Frame) : NetM Unit := do
  if f.ipHlen < 20 then
    return ()
  else
    -- `unsigned`: a frame shorter than its headers wraps around
    let icmpLen := u32 (f.len.toNat + 2 ^ 32 - 14 - f.ipHlen)
    if icmpLen < 8 then
      return ()
    else if checkIcmpChecksum f icmpLen then
      if f.byte f.tcpOff = icmpEchoRep then
        let s ← getState
        setState { s with
          pingReplyId := be16 f.byte (f.tcpOff + 4)
          pingReplySeq := be16 f.byte (f.tcpOff + 6)
          pingReplyReceived := true }

/-- `net_parse_packet`; `tcp` is `tcp_handle_packet`. -/
def netParsePacket (tcp : Frame → NetM Unit) (f : Frame) : NetM Unit := do
  if f.len < 14 then
    return ()
  else if be16 f.byte 12 = ethArp then
    if 42 ≤ f.len.toNat then handleArp f
  else if be16 f.byte 12 = ethIp then
    if f.ipValid then
      if f.byte 23 = ipIcmp ∧ 14 + f.ipHlen + 8 ≤ f.len.toNat then
        handleIcmp f
      if f.byte 23 = ipTcp ∧ 14 + f.ipHlen + 20 ≤ f.len.toNat then
        tcp f

/-- The address of `ip`, if it is in the cache. -/
def arpLookup (ip : UInt32) : NetM (Option Mac) := do
  let s ← getState
  if s.arpCacheValid ∧ s.arpCacheIp = ip then return some s.arpCacheMac else return none

/-- `net_arp_resolve`; `parse` is `net_parse_packet`. -/
def netArpResolve (parse : Frame → NetM Unit) (rounds : Nat) (ip : UInt32) : NetM (Option Mac) := do
  match ← arpLookup ip with
  | some mac => return some mac
  | none =>
    let _ ← sendFrame (.arpRequest ip)
    let start ← getTicks
    pollAfter .pktBuf parse
      (do
        match ← arpLookup ip with
        | some mac => return some (some mac)
        | none => return none)
      none start 50 rounds

/-! ## Sending a segment -/

/-- The segment that `send_tcp_segment` builds for a socket. -/
def Sock.segment (sock : Sock) (flags : UInt8) (data : List UInt8) : Segment where
  dstIp := sock.dstIp
  srcPort := sock.srcPort
  dstPort := sock.dstPort
  seq := sock.sndNxt
  ack := sock.rcvNxt
  flags := flags
  data := data

/-- `send_tcp_segment`, given how to resolve an address.  The headers are filled in before
    the address is known. -/
def sendVia (resolve : UInt32 → NetM (Option Mac)) (i : Fin tcpMaxSocks) (flags : UInt8)
    (data : List UInt8) : NetM Bool := do
  let sock ← getSock i
  match ← resolve sock.dstIp with
  | none => return false
  | some mac =>
    let r ← sendFrame (.tcp mac (sock.segment flags data))
    if r = .refused then
      return false
    else
      let s ← getState
      setState (s.emit i (sock.segment flags data))
      return r = .ok

/-! ## Receiving a segment -/

def findSockByPort (s : Stack) (port : UInt16) : Option (Fin tcpMaxSocks) :=
  (List.finRange tcpMaxSocks).find? fun i => (s.sockets i).used && (s.sockets i).srcPort == port

/-- The branch of `tcp_handle_packet` for segments with ACK set. -/
def Sock.takeAck (sock : Sock) (seg : RxSegment) : Sock :=
  if seg.isAck then { sock with sndUna := seg.ack, peerWindow := seg.window } else sock

/-- `lib_memcpy(dst, src, n)`, for `src` read before the first store. -/
def copyTo (dst : Mem) (bytes : List UInt8) : Mem := fun k =>
  if h : k < bytes.length then bytes.get ⟨k, h⟩ else dst k

/-- The in-order data branch: what fits replaces the buffer. -/
def Sock.takeData (sock : Sock) (seg : RxSegment) : Sock :=
  let data := seg.data.take rcvBufSize
  { sock with
    rcvBuf := copyTo sock.rcvBuf data
    rcvLen := data.length
    rcvNxt := seg.seq + UInt32.ofNat data.length }

/-- `tcp_handle_packet` once the segment and its socket are known. -/
def handleSegment (send : Fin tcpMaxSocks → UInt8 → List UInt8 → NetM Bool)
    (i : Fin tcpMaxSocks) (seg : RxSegment) : NetM Unit := do
  let sock ← getSock i
  if seg.isRst then
    setSock i { sock with state := .closed }
  else if sock.state = .synSent then
    if seg.isSyn ∧ seg.isAck then
      if seg.ack ≠ sock.sndNxt then
        return ()
      else
        setSock i { sock with
          rcvNxt := seg.seq + 1
          sndUna := seg.ack
          peerWindow := seg.window
          state := .established }
        let _ ← send i tcpFlagAck []
  else
    let sock := sock.takeAck seg
    if seg.isFin then
      setSock i { sock with rcvNxt := seg.seq + 1 }
      let _ ← send i tcpFlagAck []
      let sock ← getSock i
      if sock.state = .finWait2 then
        setSock i { sock with state := .timeWait }
        let _ ← send i tcpFlagAck []
      else
        setSock i { sock with state := .closeWait }
    else if seg.data ≠ [] ∧ seg.seq = sock.rcvNxt then
      setSock i (sock.takeData seg)
      let _ ← send i tcpFlagAck []
    else
      setSock i sock

/-- `tcp_handle_packet`, given how to send. -/
def tcpHandleVia (send : Fin tcpMaxSocks → UInt8 → List UInt8 → NetM Bool) (f : Frame) :
    NetM Unit := do
  if f.ipHlen < 20 then
    return ()
  else if f.len.toNat < f.tcpOff + 20 then
    return ()
  else if f.len.toNat < 14 + f.ipTotal then
    return ()
  else
    let s ← getState
    match findSockByPort s (be16 f.byte (f.tcpOff + 2)) with
    | none => return ()
    | some i =>
      if f.tcpHlen < 20 ∨ 14 + f.ipTotal < f.tcpOff + f.tcpHlen then
        return ()
      else
        handleSegment send i f.tcpFields

/-! ## The circle closed -/

/-- `send_tcp_segment`, with at most `rounds` frames looked at for an address and as many
    levels of nesting. -/
def sendTcpSegment : Nat → Fin tcpMaxSocks → UInt8 → List UInt8 → NetM Bool
  | 0 => sendVia (netArpResolve (fun _ => pure ()) 0)
  | rounds + 1 =>
    sendVia (netArpResolve (netParsePacket (tcpHandleVia (sendTcpSegment rounds))) (rounds + 1))

def tcpHandlePacket (rounds : Nat) : Frame → NetM Unit := tcpHandleVia (sendTcpSegment rounds)

/-! ## Calls -/

/-- `tcp_poll_until` on a used socket: whether the state was reached. -/
def tcpPollUntil (rounds : Nat) (i : Fin tcpMaxSocks) (targetState : TcpState) (timeoutMs : Int) :
    NetM Bool := do
  let sock ← getSock i
  if sock.used then
    let start ← getTicks
    pollAfter .stack (tcpHandlePacket rounds)
      (do
        let sock ← getSock i
        if sock.state = targetState then return some true
        else if TcpState.closeWait.code ≤ sock.state.code ∧ targetState ≠ .closed then
          return some false
        else return none)
      false start (timeoutTicks timeoutMs) rounds
  else
    return false

/-- `sock->used = 0`. -/
def dropSock (i : Fin tcpMaxSocks) : NetM Unit := do
  let sock ← getSock i
  setSock i { sock with used := false }

/-- The fields `tcp_connect` fills in. -/
def Sock.opened (ip : UInt32) (port srcPort : UInt16) (isn : UInt32) : Sock :=
  { Sock.zero with
    used := true
    dstIp := ip
    dstPort := port
    srcPort := srcPort
    isn := isn
    sndNxt := isn
    sndUna := isn
    state := .synSent }

/-- `tcp_connect`: the socket, if the connection was established. -/
def tcpConnect (rounds : Nat) (ip : UInt32) (port : UInt16) (timeoutMs : Int) :
    NetM (Option (Fin tcpMaxSocks)) := do
  let s ← getState
  match (List.finRange tcpMaxSocks).find? fun i => !(s.sockets i).used with
  | none => return none
  | some i =>
    let ticks ← getTicks
    setState ({ s with nextEphemeral := s.nextEphemeral + 1 }.reopen i
      (Sock.opened ip port s.nextEphemeral (ticks <<< 4)))
    if ← sendTcpSegment rounds i tcpFlagSyn [] then
      let sock ← getSock i
      setSock i { sock with sndNxt := sock.isn + 1 }
      if ← tcpPollUntil rounds i .established timeoutMs then
        return some i
      else
        dropSock i
        return none
    else
      dropSock i
      return none

/-- `tcp_send`: whether the data was acknowledged in time. -/
def tcpSend (rounds : Nat) (i : Fin tcpMaxSocks) (data : Mem) (len : UInt16) (timeoutMs : Int) :
    NetM Bool := do
  let sock ← getSock i
  if sock.used ∧ sock.state = .established then
    let n := min len.toNat rcvBufSize
    setSock i { sock with sndNxt := sock.sndUna }
    if ← sendTcpSegment rounds i (tcpFlagPsh ||| tcpFlagAck) (bytesAt data 0 n) then
      let sock ← getSock i
      setSock i { sock with sndNxt := sock.sndUna + UInt32.ofNat n }
      let start ← getTicks
      pollAfter .stack (tcpHandlePacket rounds)
        (do
          let sock ← getSock i
          if sock.sndNxt ≤ sock.sndUna then return some true else return none)
        false start (timeoutTicks timeoutMs) rounds
    else
      return false
  else
    return false

/-- The copy of `tcp_recv`: the first bytes of the buffer go to the caller, the rest moves
    to the front. -/
def Sock.takeOut (sock : Sock) (n : Nat) : Sock :=
  { sock with
    rcvBuf := copyTo sock.rcvBuf (bytesAt sock.rcvBuf n (sock.rcvLen - n))
    rcvLen := sock.rcvLen - n }

/-- `tcp_recv`: the bytes copied, `none` when the socket is not in use. -/
def tcpRecv (rounds : Nat) (i : Fin tcpMaxSocks) (maxLen : UInt16) (timeoutMs : Int) :
    NetM (Option (List UInt8)) := do
  let sock ← getSock i
  if sock.used then
    let start ← getTicks
    pollLoop .stack (tcpHandlePacket rounds)
      (do
        let sock ← getSock i
        if 0 < sock.rcvLen then
          let copy := min sock.rcvLen maxLen.toNat
          let s ← getState
          setState ((s.set i (sock.takeOut copy)).copyOut i (bytesAt sock.rcvBuf 0 copy))
          return some (some (bytesAt sock.rcvBuf 0 copy))
        else return none)
      (do
        let sock ← getSock i
        if TcpState.closeWait.code ≤ sock.state.code then return some (some []) else return none)
      (some []) start (timeoutTicks timeoutMs) rounds
  else
    return none

def tcpClose (rounds : Nat) (i : Fin tcpMaxSocks) : NetM Unit := do
  let sock ← getSock i
  if sock.used then
    if sock.state = .established then
      let _ ← sendTcpSegment rounds i (tcpFlagFin ||| tcpFlagAck) []
      let sock ← getSock i
      setSock i { sock with sndNxt := sock.sndNxt + 1, state := .finWait1 }
      let start ← getTicks
      pollAfter .stack (tcpHandlePacket rounds)
        (do
          let sock ← getSock i
          if TcpState.timeWait.code ≤ sock.state.code ∨ sock.state = .closeWait then
            return some ()
          else return none)
        () start 50 rounds
    dropSock i

/-- `net_ping` once the address of the next hop is known. -/
def pingVia (rounds : Nat) (arpTarget dstIp : UInt32) (timeoutMs : Int) (mac : Mac) :
    NetM Bool := do
  let s ← getState
  setState { s.cacheArp arpTarget mac with pingReplyReceived := false }
  let start ← getTicks
  let _ ← sendFrame (.icmpEcho mac dstIp 0x1234 1)
  pollAfter .pktBuf (netParsePacket (tcpHandlePacket rounds))
    (do
      let s ← getState
      if s.pingReplyReceived then return some true else return none)
    false start (timeoutTicks timeoutMs) rounds

/-- `net_ping`: whether a reply came in time.  The address is resolved with one retry. -/
def netPing (rounds : Nat) (dstIp : UInt32) (timeoutMs : Int) : NetM Bool := do
  let arpTarget := if dstIp &&& netNetmask ≠ netHostIp &&& netNetmask then netGwIp else dstIp
  let parse := netParsePacket (tcpHandlePacket rounds)
  match ← netArpResolve parse rounds arpTarget with
  | some mac => pingVia rounds arpTarget dstIp timeoutMs mac
  | none =>
    match ← netArpResolve parse rounds arpTarget with
    | some mac => pingVia rounds arpTarget dstIp timeoutMs mac
    | none => return false

end Noverix.Net
