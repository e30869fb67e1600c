import AppleTalk.Router.Arrivals
import AppleTalk.Router.CoreMoves

/-!
# What goes into the tunnels

The peers are sent routing packets by their entries and datagrams by the forwarding rules, so what
the core of a router sends holds no datagram.
-/

namespace AppleTalk

/-- A routing packet to a tunnel peer, or a log line. -/
def Action.Routing : Action → Prop
  | .toPeer _ bytes => ∃ dh conn seq cmd, bytes = (Aurp.routing dh conn seq cmd).toBytes
  | .log _ => True
  | _ => False

@[simp] theorem Action.routing_log (m : String) : (Action.log m).Routing := trivial

namespace Peer

@[simp] theorem bytes_routing (p : Peer) (ip : Ipv4Addr) (conn seq : UInt16) (cmd : Cmd) :
    (Action.toPeer ip (p.bytes conn seq cmd)).Routing := ⟨_, _, _, _, rfl⟩

@[simp] theorem send_routing (p : Peer) (conn seq : UInt16) (cmd : Cmd) :
    (p.send conn seq cmd).Routing := p.bytes_routing _ conn seq cmd

theorem sends_routing (p : Peer) (conn seq : UInt16) (cmds : List Cmd) :
    ∀ a ∈ cmds.map (p.send conn seq), a.Routing := by
  intro a ha
  obtain ⟨cmd, -, rfl⟩ := List.mem_map.1 ha
  exact p.send_routing conn seq cmd

theorem openReq_routing (p : Peer) (conn version : UInt16) (options : List (UInt8 × Bytes))
    (now : Instant) : ∀ a ∈ (p.openReq conn version options now).2.acts, a.Routing := by
  unfold openReq
  dsimp only
  split_ifs <;> simp [openRsp, «open», sendSequenced]

theorem sendPage_routing (p : Peer) (now : Instant) :
    ∀ a ∈ (p.sendPage now).2.acts, a.Routing := by
  unfold sendPage
  split <;> simp [sendSequenced]

theorem zonesFor_routing (p : Peer) (szi : Bool) (nets : List UInt16) (tables : Tables) :
    ∀ a ∈ (p.zonesFor szi nets tables).acts, a.Routing := by
  unfold zonesFor
  dsimp only
  split_ifs
  · exact p.sends_routing _ _ _
  · simp

theorem riAck_routing (p : Peer) (seq : UInt16) (szi : Bool) (tables : Tables) (now : Instant) :
    ∀ a ∈ (p.riAck seq szi tables now).2.acts, a.Routing := by
  have h := p.riAck_acked seq szi tables now
  generalize p.riAck seq szi tables now = r at h ⊢
  cases h with
  | ignored => simp
  | paged =>
    rw [Out.append_acts, List.forall_mem_append]
    exact ⟨p.zonesFor_routing szi _ tables, sendPage_routing _ now⟩
  | _ => exact p.zonesFor_routing szi _ tables

theorem sequenced_routing (p : Peer) (conn seq : UInt16) (last : Bool) (tables : Tables)
    (now : Instant) (apply : Tables × List RouteChange) (szi : Bool) :
    ∀ a ∈ (p.sequenced conn seq last tables now apply szi).out.acts, a.Routing := by
  unfold sequenced
  dsimp only
  split <;> simp

theorem routing_routing (p : Peer) (conn seq : UInt16) (cmd : Cmd) (tables : Tables)
    (now : Instant) : ∀ a ∈ (p.routing conn seq cmd tables now).out.acts, a.Routing := by
  unfold routing
  dsimp only
  cases cmd with
  | openReq => exact openReq_routing p _ _ _ now
  | riReq =>
    dsimp only
    split_ifs
    · exact sendPage_routing _ now
    · simp
  | riAck =>
    dsimp only
    split_ifs
    · exact riAck_routing p seq _ tables now
    · simp
  | riRsp =>
    dsimp only
    split_ifs
    · exact p.sequenced_routing _ _ _ _ _ _ _
    · simp
  | riUpd =>
    dsimp only
    split_ifs
    · exact p.sequenced_routing _ _ _ _ _ _ _
    · simp
  | gznRsp => simp
  | gdzlRsp => simp
  | openRsp | rd | ziRsp | tickleAck =>
    dsimp only
    split_ifs <;> simp
  | _ =>
    dsimp only
    split_ifs
    · exact p.sends_routing conn 0 _
    · simp

theorem senderTimers_routing {p : Peer} (hok : p.sending.Ok) (now : Instant) :
    ∀ a ∈ (p.senderTimers now).2.acts, a.Routing := by
  have h := p.senderTimers_timed now
  generalize p.senderTimers now = r at h ⊢
  cases h with
  | @again o ho =>
    -- What is sent once more is the packet the entry last sent.
    obtain ⟨cmd, -, -, -, dh, hb⟩ := hok o ho
    exact List.forall_mem_singleton.2 ⟨dh, _, _, cmd, hb⟩
  | updated _ _ _ _ hr => simp [hr, sendSequenced]
  | _ => simp

theorem report_routing {p : Peer} {was : Receiver × Sender} {out : Out}
    (h : ∀ a ∈ out.acts, a.Routing) : ∀ a ∈ (p.report was out).acts, a.Routing := by
  unfold report
  dsimp only
  refine List.forall_mem_append.2 ⟨List.forall_mem_append.2 ⟨h, ?_⟩, ?_⟩
  · split_ifs <;> simp
  · split_ifs <;> simp

theorem receiverTimers_routing (p : Peer) (tables : Tables) (now : Instant) :
    ∀ a ∈ (p.receiverTimers tables now).out.acts, a.Routing := by
  have h := p.receiverTimers_timed tables now
  generalize p.receiverTimers tables now = r at h ⊢
  cases h <;> simp [quiet, retry, sendSequenced]

theorem scan_routing (p : Peer) (scan : Bool) (now : Instant) :
    ∀ a ∈ (if scan then p.reconnect now else (p, .nil)).2.acts, a.Routing := by
  rcases p.scan_cases scan now with hscan | ⟨-, -, hscan⟩
  · simp [hscan]
  · simp [hscan, «open»]

theorem ziRerequest_routing (p : Peer) (tables : Tables) :
    ∀ a ∈ (p.ziRerequest tables).acts, a.Routing := by
  unfold ziRerequest
  dsimp only
  split_ifs
  · simp
  · intro a ha
    obtain ⟨chunk, -, rfl⟩ := List.mem_map.1 ha
    exact p.send_routing _ _ _

theorem receiverTimers_ok {p : Peer} (hok : p.sending.Ok) (tables : Tables) (now : Instant) :
    (p.receiverTimers tables now).peer.sending.Ok := by
  rcases p.receiverTimers_sending tables now with ⟨h, -⟩ | ⟨o, -, -, hc, h, -⟩
  · rwa [h]
  · rw [h]
    exact .posted rfl hc _

theorem timers_routing {p : Peer} (hok : p.sending.Ok) (scan zi : Bool) (tables : Tables)
    (now : Instant) : ∀ a ∈ (p.timers scan zi tables now).out.acts, a.Routing := by
  have hsend := (p.scan_sending scan now).1
  have hzi : ∀ (q : Peer) t, ∀ a ∈ (if zi then q.ziRerequest t else .nil).acts, a.Routing := by
    intro q t
    split_ifs
    · exact q.ziRerequest_routing t
    · simp
  refine report_routing ?_
  simp only [Out.append_acts, List.forall_mem_append]
  exact ⟨⟨⟨p.scan_routing scan now, receiverTimers_routing _ _ _⟩,
    senderTimers_routing (receiverTimers_ok (hsend ▸ hok) _ _) _⟩, hzi _ _⟩

/-- The reconnect scan gives the receiver's timers nothing new to do. -/
theorem scanned_out (p : Peer) (scan : Bool) (tables : Tables) (now : Instant) :
    ((if scan then p.reconnect now else (p, .nil)).1.receiverTimers tables now).out =
      (p.receiverTimers tables now).out := by
  rcases p.scan_cases scan now with hscan | ⟨-, hu, hscan⟩
  · rw [hscan]
  · rw [hscan]
    simp [receiverTimers, «open», hu, since, RETRY, fromSecs]

/-- Of the packets that the other timers do not send, a tick sends those of the receiver's. -/
theorem timers_sentOf {k : UInt16 → Bool} (hopen : k 8 = false) (hzi : k 6 = false)
    (hdata : ∀ code, isData code → k code = false) {p : Peer} (hok : p.sending.Ok)
    (scan zi : Bool) (tables : Tables) (now : Instant) :
    sentOf k p.addr (p.timers scan zi tables now).out.acts =
      sentOf k p.addr (p.receiverTimers tables now).out.acts := by
  have hreconnect : sentOf k p.addr (if scan then p.reconnect now else (p, .nil)).2.acts = [] := by
    rcases p.scan_cases scan now with hscan | ⟨-, -, hscan⟩
    · rw [hscan]
      rfl
    · rw [hscan]
      exact p.sentOf_send_nil p.connLocal 0 hopen
  have hsender : ∀ q : Peer, q.addr = p.addr → q.sending.Ok →
      sentOf k p.addr (q.senderTimers now).2.acts = [] := by
    intro q hq hqok
    rw [← hq]
    have h := q.senderTimers_timed now
    generalize q.senderTimers now = r at h ⊢
    cases h with
    | waiting | idle | spent => rfl
    | @again o ho =>
      obtain ⟨cmd, hd, hc⟩ := hqok o ho
      rw [Out.act_acts, sentOf_carries hc, onWire_other (hdata _ hd)]
    | updated _ _ _ _ hr =>
      rw [hr]
      exact (sentOf_sendSequenced k { q with pending := [], lastUpdate := now } (.riUpd q.pending)
        ((q.pending.filter fun e => e.code = NA).map fun e => e.tuple.range.1) now).trans
        (onWire_other (hdata _ rfl))
  have hscan := p.scanned_out scan tables now
  have hscanned := And.intro (p.scan_addr scan now) (p.scan_sending scan now).1
  unfold timers
  generalize (if scan then p.reconnect now else (p, .nil)) = a at hreconnect hscan hscanned ⊢
  have hb := (receiverTimers_addr a.1 tables now).trans hscanned.1
  have hc := (senderTimers_addr (a.1.receiverTimers tables now).peer now).trans hb
  have hrerequest : ∀ t, sentOf k p.addr
      (if zi then ((a.1.receiverTimers tables now).peer.senderTimers now).1.ziRerequest t
        else .nil).acts = [] := by
    intro t
    split_ifs
    · rw [← hc]
      exact ziRerequest_acts k hzi _ t
    · rfl
  simp only [sentOf_report, Out.append_acts, sentOf_append, hreconnect, hscan, hrerequest,
    hsender _ hb (receiverTimers_ok (hscanned.2 ▸ hok) tables now), List.nil_append,
    List.append_nil]

end Peer

/-! ### The core -/

namespace Peers

theorem turnAway_routing (s : Peers) («from» : Ipv4Addr) (line : String) (tables : Tables)
    (now : Instant) : ∀ a ∈ (s.turnAway «from» line tables now).acts, a.Routing := by
  unfold turnAway
  dsimp only
  split_ifs <;> simp

theorem deliver_routing (s : Peers) (p : Peer) («from» : Ipv4Addr) (pkt : Aurp) (tables : Tables)
    (now : Instant) : ∀ a ∈ (s.deliver p «from» pkt tables now).acts, a.Routing := by
  cases pkt with
  | data dh ddp => simp [deliver]
  | routing dh conn seq cmd => exact Peer.report_routing (Peer.routing_routing _ conn seq cmd _ now)

theorem packet_routing (s : Peers) («from» : Ipv4Addr) (bytes : Bytes) (tables : Tables)
    (now : Instant) : ∀ a ∈ (s.packet «from» bytes tables now).acts, a.Routing := by
  unfold packet
  split
  · simp
  · split
    · exact deliver_routing s _ «from» _ tables now
    · split_ifs
      · exact turnAway_routing s «from» _ tables now
      · exact turnAway_routing s «from» _ tables now
      · exact deliver_routing _ _ «from» _ tables now

theorem tick_routing {s : Peers} (hok : ∀ ip p, s.peers.get? ip = some p → p.sending.Ok)
    (tables : Tables) (now : Instant) : ∀ a ∈ (s.tick tables now).acts, a.Routing := by
  refine SortedMap.mapAccum_keeps (I := fun a : Tables × List Action × List RouteChange =>
    ∀ x ∈ a.2.1, x.Routing) s.peers (by simp) fun a k p hp h => ?_
  exact List.forall_mem_append.2 ⟨h, Peer.timers_routing (hok k p hp) _ _ _ _⟩

theorem ping_routing (s : Peers) (now : Instant) : ∀ a ∈ (s.ping now).2, a.Routing := by
  refine SortedMap.mapAccum_keeps (I := fun acts : List Action => ∀ x ∈ acts, x.Routing) s.peers
    (by simp) fun acts k p _ h => ?_
  have hsend : ∀ x ∈ acts ++ [p.send p.connLocal 0 .tickle], x.Routing :=
    List.forall_mem_append.2 ⟨h, List.forall_mem_singleton.2 (p.send_routing _ _ _)⟩
  cases p.receiver <;> first | exact h | exact hsend

theorem shutdown_routing (s : Peers) (now : Instant) : ∀ a ∈ (s.shutdown now).2, a.Routing := by
  refine SortedMap.mapAccum_keeps (I := fun acts : List Action => ∀ x ∈ acts, x.Routing) s.peers
    (by simp) fun acts k p _ h => ?_
  dsimp only
  split_ifs
  · exact h
  · exact List.forall_mem_append.2 ⟨h, List.forall_mem_singleton.2 (Peer.bytes_routing _ _ _ _ _)⟩

end Peers

namespace Core

/-- The core sends the peers routing packets and nothing else. -/
theorem step_routing {c : Core} (hok : c.Ok) (i : CoreIn × Instant) :
    ∀ a ∈ (c.step i).2, a.Routing := by
  obtain ⟨i, now⟩ := i
  cases i with
  | packet «from» bytes => exact c.peers.packet_routing «from» bytes c.tables now
  | tick => exact Peers.tick_routing hok c.tables now
  | ping => exact c.peers.ping_routing now
  | shutdown => exact c.peers.shutdown_routing now
  | _ => simp [step]

theorem acts_routing {c : Core} (hf : c.Filed) (hok : c.Ok) (is : List (CoreIn × Instant)) :
    ∀ a ∈ acts c is, a.Routing := by
  induction is generalizing c with
  | nil => simp [acts]
  | cons i is ih =>
    exact List.forall_mem_append.2 ⟨step_routing hok i, ih (hf.next i) (hok.next hf i)⟩

end Core

end AppleTalk
