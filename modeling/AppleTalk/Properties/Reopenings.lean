import AppleTalk.Properties.Senders
import AppleTalk.Router.Reach

/-!
# An Open-Req on the connection itself

A repeated Open-Req is taken for a lost Open-Rsp: the connection starts over, and what was
outstanding on it is dropped without a word. Two things hang on the outstanding packet being
answered or given up: the probe of a conflicting Open-Req, and the RD of a shutdown. Both hold in
every run that repeats no Open-Req at the wrong moment.
-/

namespace AppleTalk

namespace Peers

/-! ### Entries and their addresses -/

theorem addr_of_change {ip : Ipv4Addr} {c : Call × Instant} {p q : Peer}
    (h : Peer.Change ip c p q) : q.addr = p.addr := by
  cases h with
  | kept | named | taken => rfl
  | received bytes tables pkt _ _ => exact p.received_addr ip pkt tables c.2
  | timed scan => exact p.timed_addr scan c.2
  | heard evs => exact p.hear_addr evs
  | pinged => exact p.pinged_addr c.2
  | shut _ => exact p.shut_addr c.2

/-- Every entry is filed under its own address. -/
theorem Reached.addr {s : Peers} (h : s.Reached) :
    ∀ ip p, s.entry ip = some p → p.addr = ip := by
  refine h.invariant (I := fun s => ∀ ip p, s.entry ip = some p → p.addr = ip)
    (fun _ _ _ _ _ ip p hp => by cases hp) fun s c hs ip q hq => ?_
  obtain ⟨p, hp, hc⟩ := entry_next hq
  rw [addr_of_change hc]
  rcases hp with hp | ⟨-, configured, rfl⟩
  · exact hs ip p hp
  · rfl

/-- The call brings an Open-Req, on the very connection the peer has open, that is accepted. -/
def Reopens (s : Peers) (ip : Ipv4Addr) (c : Call × Instant) (p : Peer) : Prop :=
  s.entry ip = some p ∧ ∃ bytes tables dh seq sui, c.1 = .packet ip bytes tables ∧
    Aurp.parse bytes = some (.routing dh p.connRemote seq (.openReq sui 1 []))

end Peers

namespace Peer

/-! ### The probe -/

/-- A conflicting Open-Req on an idle connection sends the probe. -/
theorem openReq_conflict (p : Peer) (conn : UInt16) (hs : p.sender ≠ .unconnected)
    (hc : conn ≠ p.connRemote) (hp : p.probing = false) (ho : p.outstanding = none)
    (now : Instant) :
    p.openReq conn 1 [] now =
      ({ (({ p with probing := true } : Peer).sendSequenced nullUpd [] now).1 with
          sender := .waitRiUpdAck },
        (({ p with probing := true } : Peer).sendSequenced nullUpd [] now).2) := by
  simp [openReq, hs, hc, hp, ho]

/-- A probe is marked only while a sequenced packet waits for its ack. -/
def ProbeWaits (p : Peer) : Prop := p.probing = true → p.sender.Waits

theorem ProbeWaits.same {p q : Peer} (h : p.ProbeWaits) (hs : p.SameSender q) : q.ProbeWaits := by
  intro hq
  rw [show q.sender = p.sender from congrArg Sending.sender hs.1]
  exact h (hs.2.symm.trans hq)

theorem probeWaits_riAck {p : Peer} (h : p.ProbeWaits) (seq : UInt16) (szi : Bool)
    (tables : Tables) (now : Instant) : (p.riAck seq szi tables now).1.ProbeWaits := by
  have hack := p.riAck_acked seq szi tables now
  generalize p.riAck seq szi tables now = r at hack ⊢
  cases hack with
  | ignored => exact h
  | paged ho hseq hs hp =>
    obtain ⟨tuples, rest, hp⟩ := List.exists_cons_of_ne_nil hp
    unfold sendPage
    rw [hp]
    exact fun _ => Or.inl rfl
  | idle => exact fun hprobe => by cases hprobe
  | closed => exact fun hprobe => by cases hprobe
  | unawaited => exact h

theorem probeWaits_routing {p : Peer} (h : p.ProbeWaits) {conn seq : UInt16} {cmd : Cmd}
    (hquiet : ∀ sui, cmd = .openReq sui 1 [] → conn = p.connRemote → p.probing = false)
    (tables : Tables) (now : Instant) :
    (p.routing conn seq cmd tables now).peer.ProbeWaits := by
  generalize hq : (p.routing conn seq cmd tables now).peer = q
  have hr := p.routing_routed conn seq cmd tables now
  rw [hq] at hr
  cases hr with
  | same hsame => exact h.same hsame
  | opened sui version options hcmd =>
    rcases p.openReq_cases conn version options now with hs | ⟨hs, -⟩ | ⟨rfl, rfl, hc, hs, hprobe⟩
    · exact h.same hs
    · exact fun _ => Or.inr (Or.inl hs)
    · intro hp
      rw [hprobe] at hp
      have hw := h hp
      rcases hc with hu | hconn
      · simp [hu, Sender.Waits] at hw
      · rw [hquiet sui hcmd hconn] at hp
        cases hp
  | asked _ =>
    obtain ⟨tuples, rest, hx⟩ := exists_splitTuples tables.export
    unfold sendPage
    rw [hx]
    exact fun _ => Or.inl rfl
  | acked szi _ _ => exact probeWaits_riAck h seq szi tables now
  | down _ => exact fun hprobe => by cases hprobe

theorem probeWaits_timed {p : Peer} (h : p.ProbeWaits) (scan : Bool) (now : Instant) :
    (p.timed scan now).ProbeWaits := by
  have h1 := h.same (p.scan_sameSender scan now)
  unfold timed
  generalize (if scan then p.reconnect now else (p, .nil)).1 = q at h1
  have h2 : (q.receiverTimers .new now).peer.ProbeWaits := by
    rcases q.receiverTimers_sender .new now with hs | ⟨-, p', -, he⟩
    · exact h1.same hs
    · rw [he]
      exact fun _ => Or.inr (Or.inl rfl)
  generalize (q.receiverTimers .new now).peer = q' at h2
  have htimed := q'.senderTimers_timed now
  generalize q'.senderTimers now = r at htimed ⊢
  cases htimed with
  | waiting | idle | again => exact h2
  | spent => exact fun hprobe => by cases hprobe
  | updated => exact fun _ => Or.inr (Or.inl rfl)

end Peer

namespace Peers

/-- No Open-Req is repeated on the connection while the peer is being probed. -/
def ProbeUndisturbed (ip : Ipv4Addr) (s : Peers) (c : Call × Instant) : Prop :=
  ∀ p, s.Reopens ip c p → p.probing = false

theorem probeWaits_next {s : Peers} {ip : Ipv4Addr} {c : Call × Instant}
    (h : ∀ p, s.entry ip = some p → p.ProbeWaits) (hc : ProbeUndisturbed ip s c) :
    ∀ q, (s.next c).entry ip = some q → q.ProbeWaits := by
  intro q hq
  obtain ⟨p, hp, hchange⟩ := entry_next hq
  have hpw : p.ProbeWaits := by
    rcases hp with hp | ⟨-, configured, rfl⟩
    · exact h p hp
    · exact fun hprobe => by cases hprobe
  cases hchange with
  | kept | named | taken => exact hpw
  | received bytes tables pkt hcall hpkt =>
    cases pkt with
    | data dh ddp => exact hpw
    | routing dh conn seq cmd =>
      refine Peer.probeWaits_routing (p := p.named dh ip) hpw (fun sui hcmd hconn => ?_) tables c.2
      rcases hp with hp | ⟨-, configured, rfl⟩
      · subst hcmd hconn
        exact hc p ⟨hp, bytes, tables, dh, seq, sui, hcall, hpkt⟩
      · rfl
  | timed scan => exact Peer.probeWaits_timed hpw scan c.2
  | heard evs =>
    unfold Peer.hear
    split_ifs <;> exact hpw
  | pinged => exact hpw.same (p.pinged_sameSender c.2)
  | shut _ =>
    unfold Peer.shut
    split_ifs
    · exact hpw
    · exact fun _ => Or.inr (Or.inr rfl)

/-- A conflicting Open-Req from a peer that is connected to us as its sender is answered by a
null RI-Upd on the old connection. -/
def ProbesConflicts (s : Peers) (ip : Ipv4Addr) : Prop :=
  ∀ p bytes dh conn seq sui tables now, s.entry ip = some p → p.sender = .connected →
    Aurp.parse bytes = some (.routing dh conn seq (.openReq sui 1 [])) → conn ≠ p.connRemote →
    (∃ dh', .toPeer ip (Aurp.routing dh' p.connRemote (succ p.seqSend) nullUpd).toBytes ∈
      (s.packet ip bytes tables now).acts) ∧
    ∃ q, (s.packet ip bytes tables now).peers.entry ip = some q ∧ q.sender = .waitRiUpdAck ∧
      q.connRemote = p.connRemote

/-- **A conflicting Open-Req is always probed**, in every run that repeats no Open-Req during a
probe. -/
theorem conflicts_probed («local» : Di) (openPeering : Bool) (configured : List Str)
    (nanos : UInt16) (now : Instant) (ip : Ipv4Addr) (cs : List (Call × Instant))
    (hcs : Machine.Guarded next (ProbeUndisturbed ip) (new «local» openPeering configured nanos now)
      cs) :
    ((new «local» openPeering configured nanos now).after cs).ProbesConflicts ip := by
  have hreached : ((new «local» openPeering configured nanos now).after cs).Reached :=
    ⟨_, _, _, _, _, cs, rfl⟩
  have hprobe := hcs.invariant (I := fun s => ∀ p, s.entry ip = some p → p.ProbeWaits)
    (fun s c h hc => probeWaits_next h hc) (fun p hp => by cases hp)
  intro p bytes dh conn seq sui tables now' hp hs hpkt hconn
  have hpw : p.probing = false := by
    by_contra hne
    have hw := hprobe p hp (by simpa using hne)
    simp [hs, Sender.Waits] at hw
  have ho : p.outstanding = none := ((hreached.coherent ip p hp).idle hs).1
  have haddr := hreached.addr ip p hp
  generalize (new «local» openPeering configured nanos now).after cs = s at hp ⊢
  have hget : s.peers.get? ip = some p := hp
  have hopen := Peer.openReq_conflict (p.named dh ip) conn
    (by simp [Peer.named, hs]) hconn hpw ho now'
  unfold packet
  rw [hpkt]
  dsimp only
  rw [hget]
  dsimp only [deliver]
  rw [show ({ p with di := namedBy dh.src ip } : Peer) = p.named dh ip from rfl]
  unfold Peer.routing
  dsimp only
  rw [hopen, ← haddr]
  constructor
  · exact ⟨_, List.mem_append_left _ (List.mem_append_left _ (List.mem_singleton.2 rfl))⟩
  · exact ⟨_, SortedMap.get?_insert_self _ _ _, rfl, rfl⟩

/-- A stranger's Open-Req, taken at time zero. -/
def opens (conn : UInt16) : Call × Instant :=
  (.packet ⟨192, 0, 2, 1⟩ (peerPacket conn 0 (.openReq Cmd.ALL_SUI 1 [])) .new, 0)

/-- Its RI-Req, at the same time. -/
def refreshes (conn : UInt16) : Call × Instant :=
  (.packet ⟨192, 0, 2, 1⟩ (peerPacket conn 0 (.riReq Cmd.ALL_SUI)) .new, 0)

/-- A router that takes in anybody. -/
def welcoming : Peers := new (.ip ⟨192, 0, 2, 9⟩) true [] 0 0

/-- The stranger, once its connection 7 is open. -/
def caller : Peer :=
  ((welcoming.after [opens 7]).entry ⟨192, 0, 2, 1⟩).get (by decide +kernel)

theorem entry_caller : (welcoming.after [opens 7]).entry ⟨192, 0, 2, 1⟩ = some caller :=
  (Option.some_get _).symm

theorem conflicts_probed_seven : (welcoming.after [opens 7]).ProbesConflicts ⟨192, 0, 2, 1⟩ := by
  refine conflicts_probed (.ip ⟨192, 0, 2, 9⟩) true [] 0 0 ⟨192, 0, 2, 1⟩ [opens 7]
    ⟨fun p hp => ?_, trivial⟩
  cases hp.1

/-- A peer opens connection 7, tries 8 and is probed, and repeats 7: whatever it tries next is
ignored. -/
theorem conflict_ignored :
    ¬∀ (s : Peers) (ip : Ipv4Addr), s.Reached → s.ProbesConflicts ip := by
  intro h
  have hp : ((welcoming.after [opens 7, opens 8, opens 7]).entry ⟨192, 0, 2, 1⟩).isSome := by
    decide +kernel
  obtain ⟨p, hp⟩ := Option.isSome_iff_exists.1 hp
  have hs : ((welcoming.after [opens 7, opens 8, opens 7]).entry ⟨192, 0, 2, 1⟩).all
      (fun p => p.sender = .connected ∧ p.connRemote = 7) := by decide +kernel
  rw [hp, Option.all_some, decide_eq_true_iff] at hs
  have hpkt : Aurp.parse (peerPacket 8 0 (.openReq Cmd.ALL_SUI 1 [])) =
      some (.routing ⟨.null, .null⟩ 8 0 (.openReq Cmd.ALL_SUI 1 [])) := by decide +kernel
  obtain ⟨⟨dh', hsent⟩, -⟩ := h (welcoming.after [opens 7, opens 8, opens 7]) ⟨192, 0, 2, 1⟩
    ⟨_, _, _, _, _, _, rfl⟩ p _ _ 8 0 Cmd.ALL_SUI .new 0 hp hs.1 hpkt (by rw [hs.2]; decide)
  have hnone : ((welcoming.after [opens 7, opens 8, opens 7]).packet ⟨192, 0, 2, 1⟩
      (peerPacket 8 0 (.openReq Cmd.ALL_SUI 1 [])) .new 0).acts = [] := by decide +kernel
  rw [hnone] at hsent
  cases hsent

end Peers

/-! ### The RD -/

namespace Peer

/-- The RD is out, and nothing else. -/
def Down (p : Peer) (rd : Bytes) : Prop :=
  p.sender = .waitRdAck ∧ ∃ o, p.outstanding = some o ∧ o.bytes = rd

theorem Down.same {p q : Peer} {rd : Bytes} (h : p.Down rd) (hs : p.SameSender q) : q.Down rd := by
  obtain ⟨hsender, o, ho, hrd⟩ := h
  constructor
  · exact (congrArg Sending.sender hs.1).trans hsender
  · exact ⟨o, (congrArg Sending.outstanding hs.1).trans ho, hrd⟩

/-- What lets go of an RD: its ack, the peer's own RD, or the last retry. -/
inductive Released (ip : Ipv4Addr) (c : Peers.Call × Instant) (p : Peer) : Prop
  | acked (bytes : Bytes) (tables : Tables) (dh : DomainHeader) (szi : Bool) (o : Outstanding)
    (hc : c.1 = .packet ip bytes tables) (ho : p.outstanding = some o)
    (hpkt : Aurp.parse bytes = some (.routing dh p.connRemote o.seq (.riAck szi)))
  | down (bytes : Bytes) (tables : Tables) (dh : DomainHeader) (seq : UInt16) (code : Int16)
    (hc : c.1 = .packet ip bytes tables)
    (hpkt : Aurp.parse bytes = some (.routing dh p.connLocal seq (.rd code)))
  | spent (tables : Tables) (o : Outstanding) (hc : c.1 = .tick tables)
    (ho : p.outstanding = some o) (htries : RETRIES ≤ o.tries)

/-- The call brings no Open-Req that is accepted on the connection the peer has open. -/
def Undisturbed (ip : Ipv4Addr) (c : Peers.Call × Instant) (p : Peer) : Prop :=
  ∀ bytes tables dh seq sui, c.1 = .packet ip bytes tables →
    Aurp.parse bytes ≠ some (.routing dh p.connRemote seq (.openReq sui 1 []))

theorem Down.received {p : Peer} {rd : Bytes} (h : p.Down rd) {ip : Ipv4Addr}
    {c : Peers.Call × Instant} {bytes : Bytes} {tables : Tables} {pkt : Aurp}
    (hc : c.1 = .packet ip bytes tables) (hpkt : Aurp.parse bytes = some pkt)
    (hquiet : p.Undisturbed ip c) :
    (p.received ip pkt tables c.2).Down rd ∨
      (p.received ip pkt tables c.2).sender = .unconnected ∧ p.Released ip c := by
  cases pkt with
  | data dh ddp => exact Or.inl h
  | routing dh conn seq cmd =>
    have h' : (p.named dh ip).Down rd := h
    have hs : (p.named dh ip).sender = .waitRdAck := h'.1
    obtain ⟨o, ho, -⟩ := h'.2
    generalize hq : p.received ip (.routing dh conn seq cmd) tables c.2 = q
    have hr := (p.named dh ip).routing_routed conn seq cmd tables c.2
    rw [show ((p.named dh ip).routing conn seq cmd tables c.2).peer = q from hq] at hr
    cases hr with
    | same hsame => exact Or.inl (h'.same hsame)
    | opened sui version options hcmd =>
      rcases (p.named dh ip).openReq_cases conn version options c.2 with
        hsame | ⟨-, -, -, hnone⟩ | ⟨rfl, rfl, hconn, -⟩
      · exact Or.inl (h'.same hsame)
      · rw [hnone] at ho
        cases ho
      · rcases hconn with hu | rfl
        · rw [hs] at hu
          cases hu
        · subst hcmd
          exact absurd hpkt (hquiet bytes tables dh seq sui hc)
    | asked hreq => simp [takesRiReq, hs] at hreq
    | acked szi hcmd hconn =>
      have hack := (p.named dh ip).riAck_acked seq szi tables c.2
      generalize (p.named dh ip).riAck seq szi tables c.2 = r at hack ⊢
      cases hack with
      | ignored => exact Or.inl h'
      | closed ho' hseq =>
        obtain rfl := Option.some.inj (ho'.symm.trans ho)
        subst hseq hcmd hconn
        exact Or.inr ⟨rfl, .acked bytes tables dh szi _ hc ho hpkt⟩
      | paged _ _ hs' => cases hs'.symm.trans hs
      | idle _ _ hs' =>
        rcases hs' with ⟨hs', -⟩ | hs' <;> cases hs'.symm.trans hs
      | unawaited _ _ hs' =>
        rcases hs' with hs' | hs' <;> cases hs'.symm.trans hs
    | down code hcmd hconn =>
      obtain ⟨rfl, -⟩ := of_decide_eq_true hconn
      subst hcmd
      exact Or.inr ⟨rfl, .down bytes tables dh seq code hc hpkt⟩

theorem Down.timed {p : Peer} {rd : Bytes} (h : p.Down rd) {ip : Ipv4Addr}
    {c : Peers.Call × Instant} {tables : Tables} (hc : c.1 = .tick tables) (scan : Bool) :
    (p.timed scan c.2).Down rd ∨ (p.timed scan c.2).sender = .unconnected ∧ p.Released ip c := by
  unfold Peer.timed
  have h1 := p.scan_sameSender scan c.2
  generalize (if scan then p.reconnect c.2 else (p, .nil)).1 = q at h1
  have h2 : p.SameSender (q.receiverTimers .new c.2).peer := by
    rcases q.receiverTimers_sender .new c.2 with hs | ⟨hs, -⟩
    · exact ⟨hs.1.trans h1.1, hs.2.trans h1.2⟩
    · rw [(h.same h1).1] at hs
      cases hs
  generalize (q.receiverTimers .new c.2).peer = q' at h2
  obtain ⟨hs, o, ho, hrd⟩ := h.same h2
  have hp : p.outstanding = some o := (congrArg Sending.outstanding h2.1).symm.trans ho
  have hsame : ∀ o', q'.outstanding = some o' → o' = o := fun o' ho' =>
    Option.some.inj (ho'.symm.trans ho)
  have htimed := q'.senderTimers_timed c.2
  generalize q'.senderTimers c.2 = r at htimed ⊢
  cases htimed with
  | waiting => exact Or.inl ⟨hs, o, ho, hrd⟩
  | spent ho' _ htries =>
    obtain rfl := hsame _ ho'
    exact Or.inr ⟨rfl, .spent tables _ hc hp htries⟩
  | again ho' =>
    obtain rfl := hsame _ ho'
    exact Or.inl ⟨hs, _, rfl, hrd⟩
  | updated ho' | idle ho' => cases ho'.symm.trans ho

/-- What becomes of an RD while the peer does not open its connection again: it stays out, or it
is let go for one of the three reasons. -/
theorem Down.change {ip : Ipv4Addr} {c : Peers.Call × Instant} {p q : Peer} {rd : Bytes}
    (h : p.Down rd) (hc : Change ip c p q) (hquiet : p.Undisturbed ip c) :
    q.Down rd ∨ q.sender = .unconnected ∧ p.Released ip c := by
  cases hc with
  | kept | named | taken => exact Or.inl h
  | received bytes tables pkt hcall hpkt => exact h.received hcall hpkt hquiet
  | timed scan tables hcall => exact h.timed hcall scan
  | heard evs =>
    unfold Peer.hear
    split_ifs <;> exact Or.inl h
  | pinged => exact Or.inl (h.same (p.pinged_sameSender c.2))
  | shut _ =>
    unfold Peer.shut
    rw [if_pos (Or.inr h.1)]
    exact Or.inl h

end Peer

namespace Peers

/-- Packets and ticks, all there is once the router shuts down. -/
def Call.Traffic : Call → Prop
  | .packet .. | .tick _ => True
  | _ => False

/-- Packets and ticks drop an entry only once its sender is closed. -/
theorem entry_traffic {s : Peers} {c : Call × Instant} {ip : Ipv4Addr} {p : Peer}
    (hc : c.1.Traffic) (hp : s.entry ip = some p) :
    ∃ q, Peer.Change ip c p q ∧ ((s.next c).entry ip = some q ∨
      (s.next c).entry ip = none ∧ q.sender = .unconnected) := by
  obtain ⟨c, now⟩ := c
  cases c with
  | packet «from» bytes tables =>
    by_cases hip : «from» = ip
    · subst hip
      cases hpkt : Aurp.parse bytes with
      | none => exact ⟨p, .kept p, Or.inl ((entry_unread hpkt tables now).trans hp)⟩
      | some pkt =>
        exact ⟨_, .received p bytes tables pkt rfl hpkt,
          Or.inl (entry_received hpkt hp tables now)⟩
    · exact ⟨p, .kept p, Or.inl ((entry_elsewhere hip tables now).trans hp)⟩
  | tick tables =>
    refine ⟨_, .timed p (RECONNECT_SCAN ≤ since now s.lastScan) tables rfl, ?_⟩
    rw [entry_ticked, hp, Option.map_some]
    generalize p.timed _ now = q
    by_cases hkeeps : keeps now q
    · exact Or.inl (Option.filter_eq_some_iff.2 ⟨rfl, hkeeps⟩)
    · refine Or.inr ⟨by simp [Option.filter, hkeeps], ?_⟩
      simp only [keeps, decide_eq_true_eq, not_or, not_not] at hkeeps
      exact hkeeps.2.2.1
  | _ => cases hc

/-- The call closes the peer's connection, for a reason that lets go of an RD. -/
def Closes (s : Peers) (c : Call × Instant) (ip : Ipv4Addr) : Prop :=
  ∃ p q, s.entry ip = some p ∧ p.Released ip c ∧ Peer.Change ip c p q ∧
    q.sender = .unconnected ∧ ((s.next c).entry ip = some q ∨ (s.next c).entry ip = none)

/-- No Open-Req is repeated on a connection that waits for the ack of its RD. -/
def RdUndisturbed (ip : Ipv4Addr) (s : Peers) (c : Call × Instant) : Prop :=
  ∀ p, s.Reopens ip c p → p.sender ≠ .waitRdAck

theorem down_next {s : Peers} {ip : Ipv4Addr} {c : Call × Instant} {p : Peer} {rd : Bytes}
    (hp : s.entry ip = some p) (h : p.Down rd) (hc : c.1.Traffic) (hquiet : RdUndisturbed ip s c) :
    (∃ q, (s.next c).entry ip = some q ∧ q.Down rd) ∨ s.Closes c ip := by
  obtain ⟨q, hchange, hq⟩ := entry_traffic hc hp
  rcases h.change hchange (fun bytes tables dh seq sui hcall hpkt =>
    hquiet p ⟨hp, bytes, tables, dh, seq, sui, hcall, hpkt⟩ h.1) with hdown | ⟨hs, hreleased⟩
  · rcases hq with hq | ⟨-, hs⟩
    · exact Or.inl ⟨q, hq, hdown⟩
    · rw [hdown.1] at hs
      cases hs
  · exact Or.inr ⟨p, q, hp, hreleased, hchange, hs, hq.imp_right And.left⟩

theorem down_after {s : Peers} {ip : Ipv4Addr} {p : Peer} {rd : Bytes} {cs : List (Call × Instant)}
    (hp : s.entry ip = some p) (h : p.Down rd) (hcs : ∀ c ∈ cs, c.1.Traffic)
    (hquiet : Machine.Guarded next (RdUndisturbed ip) s cs) :
    (∃ pre c post, cs = pre ++ c :: post ∧ (s.after pre).Closes c ip) ∨
      ∃ q, (s.after cs).entry ip = some q ∧ q.Down rd := by
  induction cs generalizing s p with
  | nil => exact Or.inr ⟨p, hp, h⟩
  | cons c cs ih =>
    rcases down_next hp h (hcs c (by simp)) hquiet.1 with ⟨q, hq, hdown⟩ | hcloses
    · rcases ih hq hdown (fun c hc => hcs c (by simp [hc])) hquiet.2 with
        ⟨pre, c', post, rfl, hcloses⟩ | hend
      · exact Or.inl ⟨c :: pre, c', post, rfl, hcloses⟩
      · exact Or.inr hend
    · exact Or.inl ⟨[], c, cs, rfl, hcloses⟩

/-- **The RD of a shutdown is never abandoned**, in every run of packets and ticks that repeats no
Open-Req on the connection it closes: until the sender is closed, that RD is what is outstanding. -/
theorem rd_never_abandoned {s : Peers} (hs : s.Reached) {ip : Ipv4Addr} {p : Peer}
    (hp : s.entry ip = some p) (hopen : p.sender ≠ .unconnected) (hup : p.sender ≠ .waitRdAck)
    (t : Instant) (cs : List (Call × Instant)) (hcs : ∀ c ∈ cs, c.1.Traffic)
    (hquiet : Machine.Guarded next (RdUndisturbed ip) (s.shutdown t).1 cs) :
    .toPeer ip (p.bytes p.connRemote (succ p.seqSend) (.rd (-1))) ∈ (s.shutdown t).2 ∧
      ((∃ pre c post, cs = pre ++ c :: post ∧ ((s.shutdown t).1.after pre).Closes c ip) ∨
        ∃ q, ((s.shutdown t).1.after cs).entry ip = some q ∧
          q.Down (p.bytes p.connRemote (succ p.seqSend) (.rd (-1)))) := by
  have hshut : ¬(p.sender = .unconnected ∨ p.sender = .waitRdAck) := not_or.2 ⟨hopen, hup⟩
  constructor
  · unfold shutdown
    dsimp only
    refine SortedMap.mapAccum_visit (k := ip) (v := p) _ _ _ hp (fun acts => ?_)
      fun acts k v hacts => ?_
    · rw [if_neg hshut, ← hs.addr ip p hp]
      exact List.mem_append_right _ (List.mem_singleton.2 rfl)
    · split_ifs
      · exact hacts
      · exact List.mem_append_left _ hacts
  · have hentry : (s.shutdown t).1.entry ip = some (p.shut t) :=
      (s.shutdown_get? ip t).trans (congrArg (Option.map (Peer.shut · t)) hp)
    refine down_after hentry ?_ hcs hquiet
    unfold Peer.shut
    rw [if_neg hshut]
    exact ⟨rfl, _, rfl, rfl⟩

theorem rd_never_abandoned_refresh :
    ∃ rd, .toPeer ⟨192, 0, 2, 1⟩ rd ∈ ((welcoming.after [opens 7]).shutdown 0).2 ∧
      ((∃ pre c post, [refreshes 7] = pre ++ c :: post ∧
          (((welcoming.after [opens 7]).shutdown 0).1.after pre).Closes c ⟨192, 0, 2, 1⟩) ∨
        ∃ q, (((welcoming.after [opens 7]).shutdown 0).1.after [refreshes 7]).entry
          ⟨192, 0, 2, 1⟩ = some q ∧ q.Down rd) := by
  refine ⟨_, rd_never_abandoned (s := welcoming.after [opens 7]) ⟨_, _, _, _, _, _, rfl⟩
    entry_caller (by decide +kernel) (by decide +kernel) 0 [refreshes 7] ?_ ⟨?_, trivial⟩⟩
  · simp [refreshes, Call.Traffic]
  · rintro p ⟨-, bytes, tables, dh, seq, sui, hcall, hpkt⟩
    obtain ⟨-, rfl, -⟩ := Call.packet.inj hcall
    have hcmd : Aurp.parse (peerPacket 7 0 (.riReq Cmd.ALL_SUI)) =
      some (.routing ⟨.null, .null⟩ 7 0 (.riReq Cmd.ALL_SUI)) := by decide +kernel
    rw [hcmd] at hpkt
    simp at hpkt

/-- The peer that lost our Open-Rsp repeats its Open-Req while we wait for the ack of the RD. -/
theorem rd_abandoned :
    ¬∀ (s : Peers) (ip : Ipv4Addr) (p : Peer) (t : Instant) (cs : List (Call × Instant)),
      s.Reached → s.entry ip = some p → p.sender ≠ .unconnected → p.sender ≠ .waitRdAck →
      (∀ c ∈ cs, c.1.Traffic) →
      (∃ pre c post, cs = pre ++ c :: post ∧ ((s.shutdown t).1.after pre).Closes c ip) ∨
        ∃ q, ((s.shutdown t).1.after cs).entry ip = some q ∧
          q.Down (p.bytes p.connRemote (succ p.seqSend) (.rd (-1))) := by
  intro h
  have hopen : ((((welcoming.after [opens 7]).shutdown 0).1.after [opens 7]).entry
      ⟨192, 0, 2, 1⟩).any (fun q => q.sender = .connected) := by decide +kernel
  rw [Option.any_eq_true] at hopen
  obtain ⟨q, hq, hs⟩ := hopen
  have hs := of_decide_eq_true hs
  rcases h (welcoming.after [opens 7]) ⟨192, 0, 2, 1⟩ caller 0 [opens 7] ⟨_, _, _, _, _, _, rfl⟩
    entry_caller (by decide +kernel) (by decide +kernel) (by simp [opens, Call.Traffic]) with
    ⟨pre, c, post, hcs, hcloses⟩ | ⟨q', hq', hdown⟩
  · obtain ⟨rfl, rfl, rfl⟩ : pre = [] ∧ c = opens 7 ∧ post = [] := by
      cases pre with
      | nil => simpa [eq_comm] using hcs
      | cons c' pre => simp at hcs
    obtain ⟨-, q', -, -, -, hclosed, hq' | hq'⟩ := hcloses
    · obtain rfl := Option.some.inj (hq.symm.trans hq')
      rw [hs] at hclosed
      cases hclosed
    · cases hq.symm.trans hq'
  · obtain rfl := Option.some.inj (hq.symm.trans hq')
    have hwait := hdown.1
    rw [hs] at hwait
    cases hwait

end Peers

end AppleTalk
