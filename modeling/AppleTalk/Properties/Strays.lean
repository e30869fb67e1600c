import AppleTalk.Properties.Senders
import AppleTalk.Router.Reach

/-!
# Stray routing packets

Anybody can send to the tunnel's port. A routing packet for a connection that is not open, or
under another connection's ID, changes nothing but what the peer is taken to call itself.
-/

namespace AppleTalk

namespace Cmd

/-- The commands a data receiver sends; they are about the connection it opened to us. -/
def ofReceiver : Cmd → Bool
  | riReq _ | riAck _ | tickle | ziReq _ | gznReq _ | gdzlReq _ => true
  | _ => false

/-- The commands a data sender sends; they are about the connection we opened to it. -/
def ofSender : Cmd → Bool
  | openRsp .. | riRsp .. | riUpd _ | rd _ | ziRsp .. | gznRsp .. | gdzlRsp .. | tickleAck => true
  | _ => false

theorem ofSender_eq_false {cmd : Cmd} (h : cmd.ofReceiver = true) : cmd.ofSender = false := by
  cases cmd with
  | riReq | riAck | tickle | ziReq | gznReq | gdzlReq => rfl
  | _ => cases h

end Cmd

namespace Peer

/-- The command is about a connection that is not open, or comes under another ID. -/
def Stray (p : Peer) (conn : UInt16) (cmd : Cmd) : Prop :=
  cmd.ofReceiver = true ∧ (p.sender = .unconnected ∨ conn ≠ p.connRemote) ∨
    cmd.ofSender = true ∧ (p.receiver = .unconnected ∨ conn ≠ p.connLocal)

/-- An ack on a connection that is not open finds nothing outstanding. -/
theorem riAck_closed {p : Peer} (h : p.sending.Coherent) (hs : p.sender = .unconnected)
    (seq : UInt16) (szi : Bool) (tables : Tables) (now : Instant) :
    p.riAck seq szi tables now = (p, .nil) := by
  have ho : p.outstanding = none := (h.shut hs).1
  unfold riAck
  rw [ho]

/-- A stray command leaves everything as it is. -/
theorem routing_stray {p : Peer} (h : p.sending.Coherent) {conn : UInt16} {cmd : Cmd}
    (hstray : p.Stray conn cmd) (seq : UInt16) (tables : Tables) (now : Instant) :
    p.routing conn seq cmd tables now = { peer := p, tables := tables, out := .nil } := by
  have hsender : cmd.ofReceiver = true → p.onSender conn = false ∧ p.takesRiReq conn = false := by
    intro hcmd
    rcases hstray with ⟨-, hs | hc⟩ | ⟨hcmd', -⟩
    · simp [onSender, takesRiReq, hs]
    · simp [onSender, takesRiReq, hc]
    · rw [Cmd.ofSender_eq_false hcmd] at hcmd'
      cases hcmd'
  have hreceiver : cmd.ofSender = true → p.onReceiver conn = false ∧
      (conn = p.connLocal → p.receiver = .unconnected) := by
    intro hcmd
    rcases hstray with ⟨hcmd', -⟩ | ⟨-, hs | hc⟩
    · rw [Cmd.ofSender_eq_false hcmd'] at hcmd
      cases hcmd
    · simp [onReceiver, receiverOpen, hs]
    · exact ⟨by simp [onReceiver, hc], fun h => absurd h hc⟩
  unfold routing
  dsimp only
  cases cmd with
  | openReq => rcases hstray with ⟨hcmd, -⟩ | ⟨hcmd, -⟩ <;> cases hcmd
  | riReq => exact if_neg (Bool.eq_false_iff.1 (hsender rfl).2)
  | riAck szi =>
    dsimp only
    split_ifs with hconn
    · rcases hstray with ⟨-, hs | hc⟩ | ⟨hcmd, -⟩
      · rw [riAck_closed h hs]
        rfl
      · exact absurd hconn hc
      · cases hcmd
    · rfl
  | tickle | ziReq | gznReq | gdzlReq => exact if_neg (Bool.eq_false_iff.1 (hsender rfl).1)
  | openRsp =>
    dsimp only
    rw [if_neg]
    rintro ⟨hconn, hr⟩
    rw [(hreceiver rfl).2 hconn] at hr
    cases hr
  | riRsp | riUpd | rd | ziRsp => exact if_neg (Bool.eq_false_iff.1 (hreceiver rfl).1)
  | tickleAck =>
    dsimp only
    rw [if_neg]
    rintro ⟨hconn, hr⟩
    rw [(hreceiver rfl).2 hconn] at hr
    cases hr
  | gznRsp | gdzlRsp => rfl

end Peer

namespace Peers

/-- **Stray routing packets are inert.** -/
theorem stray_inert {s : Peers} (hs : s.Reached) {ip : Ipv4Addr} {p : Peer}
    (hp : s.entry ip = some p) {bytes : Bytes} {dh : DomainHeader} {conn seq : UInt16} {cmd : Cmd}
    (hpkt : Aurp.parse bytes = some (.routing dh conn seq cmd)) (hstray : p.Stray conn cmd)
    (tables : Tables) (now : Instant) :
    s.packet ip bytes tables now =
      { peers := { s with peers := s.peers.insert ip { p with di := namedBy dh.src ip } }
        tables := tables, acts := [], chs := [], ddp := none } := by
  have hp' : s.peers.get? ip = some p := hp
  have hrouting := Peer.routing_stray (p := { p with di := namedBy dh.src ip })
    (hs.coherent ip p hp) hstray seq tables now
  unfold packet
  rw [hpkt]
  dsimp only
  rw [hp']
  dsimp only [deliver]
  rw [hrouting]
  simp [Peer.report, Out.nil]

/-- One configured peer, just resolved: no connection is open. -/
def resolvedPeer : Peers :=
  (new (.ip ⟨192, 0, 2, 9⟩) false [['p']] 0 0).after [(.resolved ['p'] ⟨192, 0, 2, 1⟩, 0)]

theorem stray_inert_zero :
    (resolvedPeer.packet ⟨192, 0, 2, 1⟩ (peerPacket 0 0 (.ziReq [10])) .new 0).acts = [] :=
  have hpkt : Aurp.parse (peerPacket 0 0 (.ziReq [10])) =
      some (.routing ⟨.null, .null⟩ 0 0 (.ziReq [10])) := by decide +kernel
  congrArg Received.acts (stray_inert
    (p := .new ⟨192, 0, 2, 1⟩ (some ['p']) 1 (.ip ⟨192, 0, 2, 9⟩) 0)
    ⟨_, _, _, _, _, _, rfl⟩ rfl hpkt (Or.inl ⟨rfl, Or.inl rfl⟩) .new 0)

end Peers

end AppleTalk
