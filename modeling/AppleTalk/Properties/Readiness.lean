import AppleTalk.Properties.KeepAlive
import AppleTalk.Router.Tunnels

/-!
# An RI-Req and the receiver behind it

The sender starts its numbering over with every RI-Req, so the receiver that sends one is to
expect the number 1. It does when it sends the first; the retransmission timer sends the RI-Req
once more whatever number the connection has come to.
-/

namespace AppleTalk

/-- An RI-Req. -/
def isRiReq (code : UInt16) : Bool := code = 1

namespace Peer

/-! ### What sends an RI-Req -/

/-- The packet accepts the connection we asked for. -/
def opensExport (p : Peer) (conn : UInt16) : Cmd → Bool
  | .openRsp _ rateOrErr _ =>
    conn = p.connLocal ∧ p.receiver = .waitOpenRsp ∧ ¬rateOrErr < 0
  | _ => false

/-- The RI-Req is due once more, and there are tries left. -/
def asksAgain (p : Peer) (now : Instant) : Bool :=
  p.receiver = .waitRiRsp ∧ RETRY ≤ since now p.recvAt ∧ p.recvTries < RETRIES

/-- An entry takes the first page of an export on this connection: the packet numbered 1 is new,
and its tuples are applied. -/
structure Awaits (p : Peer) (conn : UInt16) : Prop where
  expected : p.seqRecv = 1
  new : p.checkSeq 1 = .new
  applied : ∀ last tuples tables now,
    (p.routing conn 1 (.riRsp last tuples) tables now).tables = (p.riRsp tuples tables now).1

/-- An open connection that expects the number 1 takes the first page. -/
theorem awaits_of_expected {p : Peer} {conn : UInt16} (hon : p.onReceiver conn)
    (hseq : p.seqRecv = 1) : p.Awaits conn := by
  have hnew : ∀ now, ({ p with lastHeard := now } : Peer).checkSeq 1 = .new := by
    intro now
    unfold checkSeq
    rw [if_neg (by decide), if_pos hseq.symm]
  refine ⟨hseq, hnew p.lastHeard, fun last tuples tables now => ?_⟩
  unfold routing
  dsimp only
  rw [if_pos hon]
  unfold sequenced
  dsimp only
  rw [hnew now]

theorem sentOf_riReq (p : Peer) :
    sentOf isRiReq p.addr [p.send p.connLocal 0 (.riReq Cmd.ALL_SUI)] =
      [(p.connLocal, 0, .riReq Cmd.ALL_SUI)] := by
  rw [sentOf_send, onWire_one rfl Cmd.parse_riReq]

theorem riReqs_sequenced (p : Peer) (cmd : Cmd) (h : isRiReq cmd.code = false)
    (nets : List UInt16) (now : Instant) :
    sentOf isRiReq p.addr (p.sendSequenced cmd nets now).2.acts = [] := by
  rw [sentOf_sendSequenced, onWire_other h]

theorem riReqs_openReq (p : Peer) (conn version : UInt16) (options : List (UInt8 × Bytes))
    (now : Instant) : sentOf isRiReq p.addr (p.openReq conn version options now).2.acts = [] := by
  have hrsp : ∀ rate, sentOf isRiReq p.addr [p.openRsp conn rate] = [] := fun rate =>
    p.sentOf_send_nil conn 0 rfl
  unfold openReq
  dsimp only
  split_ifs
  · exact hrsp _
  · exact hrsp _
  · exact riReqs_sequenced { p with probing := true } nullUpd rfl [] now
  · rfl
  · rw [Out.append_acts, sentOf_append]
    exact congrArg₂ _ (hrsp 1) (p.sentOf_send_nil p.connLocal 0 rfl)
  · exact hrsp 1

theorem riReqs_sendPage (p : Peer) (now : Instant) :
    sentOf isRiReq p.addr (p.sendPage now).2.acts = [] := by
  unfold sendPage
  split
  · rfl
  · rename_i tuples pages _
    exact riReqs_sequenced { p with pages := pages } (.riRsp pages.isEmpty tuples) rfl
      (tuples.map fun t => t.range.1) now

theorem riReqs_riAck (p : Peer) (seq : UInt16) (szi : Bool) (tables : Tables) (now : Instant) :
    sentOf isRiReq p.addr (p.riAck seq szi tables now).2.acts = [] := by
  have hzi := fun nets => sentOf_zonesFor (k := isRiReq) rfl p szi nets tables
  have h := p.riAck_acked seq szi tables now
  generalize p.riAck seq szi tables now = r at h ⊢
  cases h with
  | ignored => rfl
  | paged =>
    rw [Out.append_acts, sentOf_append]
    exact congrArg₂ _ (hzi _) (riReqs_sendPage { p with outstanding := none } now)
  | _ => exact hzi _

theorem riReqs_accepted (p : Peer) (conn seq : UInt16) (last : Bool) (tables : Tables)
    (now : Instant) (apply : Tables × List RouteChange) (szi : Bool) :
    sentOf isRiReq p.addr (p.sequenced conn seq last tables now apply szi).out.acts = [] := by
  have hack : ∀ szi, sentOf isRiReq p.addr [p.send conn seq (.riAck szi)] = [] := fun szi =>
    p.sentOf_send_nil conn seq rfl
  unfold sequenced
  dsimp only
  split
  · split_ifs
    · exact hack szi
    · exact hack szi
  · exact hack true
  · rfl
  · rfl

/-- **A routing packet** is answered with an RI-Req when it accepts the connection we asked for,
and then only. -/
theorem routing_riReqs (p : Peer) (conn seq : UInt16) (cmd : Cmd) (tables : Tables)
    (now : Instant) :
    sentOf isRiReq p.addr (p.routing conn seq cmd tables now).out.acts =
      if p.opensExport conn cmd then [(p.connLocal, 0, .riReq Cmd.ALL_SUI)] else [] := by
  have hans : ∀ cmds : List Cmd, (∀ cmd ∈ cmds, isRiReq cmd.code = false) →
      sentOf isRiReq p.addr (cmds.map (p.send conn 0)) = [] := fun cmds h =>
    p.sentOf_sends_nil conn 0 h
  unfold routing opensExport
  cases cmd with
  | openReq sui version options => exact p.riReqs_openReq conn version options now
  | riReq =>
    simp only [Bool.false_eq_true, if_false]
    split_ifs
    · exact riReqs_sendPage { p with
        seqSend := 0, outstanding := none, pages := splitTuples tables.export } now
    · rfl
  | riAck szi =>
    simp only [Bool.false_eq_true, if_false]
    split_ifs
    · exact p.riReqs_riAck seq szi tables now
    · rfl
  | ziReq nets =>
    simp only [Bool.false_eq_true, if_false]
    split_ifs
    · refine hans _ fun cmd hcmd => ?_
      rw [code_ziPages nets tables cmd hcmd]
      rfl
    · rfl
  | openRsp env rateOrErr options =>
    dsimp only
    by_cases h : conn = p.connLocal ∧ p.receiver = .waitOpenRsp
    · rw [if_pos h]
      by_cases hr : rateOrErr < 0
      · simp [hr]
      · rw [if_neg hr, if_pos (by simp [h.1, h.2, hr])]
        exact p.sentOf_riReq
    · rw [if_neg h, if_neg]
      · rfl
      · simp only [decide_eq_true_eq]
        exact fun ha => h ⟨ha.1, ha.2.1⟩
  | riRsp last tuples =>
    simp only [Bool.false_eq_true, if_false]
    split_ifs
    · exact p.riReqs_accepted conn seq last tables now _ true
    · rfl
  | riUpd events =>
    simp only [Bool.false_eq_true, if_false]
    split_ifs
    · exact p.riReqs_accepted conn seq false tables now _ _
    · rfl
  | rd =>
    simp only [Bool.false_eq_true, if_false]
    split_ifs
    · exact p.sentOf_send_nil conn seq rfl
    · rfl
  | tickle | gznReq | gdzlReq =>
    simp only [Bool.false_eq_true, if_false]
    split_ifs
    · exact hans [_] (List.forall_mem_singleton.2 rfl)
    · rfl
  | ziRsp | tickleAck =>
    simp only [Bool.false_eq_true, if_false]
    split_ifs <;> rfl
  | gznRsp => rfl
  | gdzlRsp => rfl

/-- The entry that sends the first RI-Req expects the number 1. -/
theorem routing_opensExport {p : Peer} {conn : UInt16} {cmd : Cmd} (h : p.opensExport conn cmd)
    (seq : UInt16) (tables : Tables) (now : Instant) :
    (p.routing conn seq cmd tables now).peer =
      { p with receiver := .waitRiRsp, seqRecv := 1, recvTries := 1, recvAt := now
               lastHeard := now } := by
  unfold opensExport at h
  split at h
  · rename_i env rateOrErr options
    rw [decide_eq_true_eq] at h
    unfold routing
    dsimp only
    rw [if_pos ⟨h.1, h.2.1⟩, if_neg h.2.2]
  · cases h

/-- The receiver's timers repeat the RI-Req when it is due, and then only. -/
theorem riReqs_receiverTimers (p : Peer) (tables : Tables) (now : Instant) :
    sentOf isRiReq p.addr (p.receiverTimers tables now).out.acts =
      if p.asksAgain now then [(p.connLocal, 0, .riReq Cmd.ALL_SUI)] else [] := by
  have hother : ∀ cmd, isRiReq cmd.code = false →
      sentOf isRiReq p.addr [p.send p.connLocal 0 cmd] = [] :=
    fun cmd h => p.sentOf_send_nil p.connLocal 0 h
  have h := p.receiverTimers_timed tables now
  generalize p.receiverTimers tables now = r at h ⊢
  unfold asksAgain
  cases h with
  | idle _ hwait =>
    rw [if_neg]
    · rfl
    · simp only [decide_eq_true_eq, not_and]
      exact fun hr hdue => absurd hdue (Nat.not_le.2 (hwait (by simp [hr]) (by simp [hr])))
  | unanswered _ _ htries =>
    rw [if_neg (by simpa using fun _ _ => htries)]
    rfl
  | asked hr hdue htries =>
    rw [if_pos (by simpa using ⟨hr, hdue, htries⟩)]
    exact p.sentOf_riReq
  | reopened hr | tested hr | retested hr =>
    rw [if_neg (by simp [hr])]
    exact hother _ rfl
  | lost hr =>
    rw [if_neg (by simp [hr])]
    rfl
  | probed hr =>
    rw [if_neg (by simp [hr])]
    exact riReqs_sequenced p.closeReceiver nullUpd rfl [] now

/-- **One peer's share of a tick** holds an RI-Req when it is due once more, and then only. -/
theorem timers_riReqs {p : Peer} (hok : p.sending.Ok) (scan zi : Bool) (tables : Tables)
    (now : Instant) :
    sentOf isRiReq p.addr (p.timers scan zi tables now).out.acts =
      if p.asksAgain now then [(p.connLocal, 0, .riReq Cmd.ALL_SUI)] else [] := by
  refine (timers_sentOf rfl rfl (fun code hd => ?_) hok scan zi tables now).trans
    (p.riReqs_receiverTimers tables now)
  simp only [isData, isRiReq, decide_eq_true_eq, decide_eq_false_iff_not] at hd ⊢
  grind

/-- A tick that repeats the RI-Req leaves the connection it is sent on where it was. -/
theorem timed_asksAgain {p : Peer} (hok : p.sending.Ok) {now : Instant} (h : p.asksAgain now)
    (scan : Bool) : (p.timed scan now).receiving = p.receiving := by
  simp only [asksAgain, decide_eq_true_eq] at h
  obtain ⟨hr, hdue, htries⟩ := h
  have hscan := (p.scan_cases scan now).resolve_right fun hopen => by cases hr.symm.trans hopen.2.1
  unfold timed
  rw [hscan, (senderTimers_receiving (receiverTimers_ok hok .new now) now).1]
  unfold receiverTimers
  rw [hr]
  dsimp only
  rw [if_pos hdue, if_neg (Nat.not_le.2 htries)]
  rfl

end Peer

namespace Peers

/-! ### Every RI-Req of a run -/

/-- The call sends an address an RI-Req on this connection. -/
def SendsRiReq (s : Peers) (c : Call × Instant) (ip : Ipv4Addr) (conn : UInt16) : Prop :=
  ∃ seq sui, (conn, seq, .riReq sui) ∈ sentTo ip (s.call c).2

theorem sendsRiReq_iff {s : Peers} {c : Call × Instant} {ip : Ipv4Addr} {conn : UInt16} :
    s.SendsRiReq c ip conn ↔
      ∃ seq sui, (conn, seq, .riReq sui) ∈ sentOf isRiReq ip (s.call c).2 := by
  constructor
  · rintro ⟨seq, sui, h⟩
    exact ⟨seq, sui, List.mem_filter.2 ⟨h, rfl⟩⟩
  · rintro ⟨seq, sui, h⟩
    exact ⟨seq, sui, (List.mem_filter.1 h).1⟩

/-- The call is a tick that finds an RI-Req due once more after pages of its export were
applied. -/
def RepeatsLate (s : Peers) (c : Call × Instant) : Prop :=
  ∃ ip p tables, c.1 = .tick tables ∧ s.entry ip = some p ∧ p.asksAgain c.2 ∧ p.seqRecv ≠ 1

/-- The RI-Req that answers a packet is the first of its connection. -/
theorem packet_sendsRiReq {s : Peers} (hs : s.Reached) {«from» ip : Ipv4Addr} {bytes : Bytes}
    {tables : Tables} {now : Instant} {conn : UInt16}
    (h : s.SendsRiReq (.packet «from» bytes tables, now) ip conn) :
    ∃ q, (s.next (.packet «from» bytes tables, now)).entry ip = some q ∧ q.Awaits conn := by
  have hf : Core.Filed ⟨tables, s⟩ := hs.addr
  obtain ⟨seq, sui, hmem⟩ := sendsRiReq_iff.1 h
  have hacts := Core.sentTo_packet hf «from» ip bytes now
  rw [sentOf, show (s.call (.packet «from» bytes tables, now)).2 =
    (Core.step ⟨tables, s⟩ (.packet «from» bytes, now)).2 from rfl, hacts] at hmem
  cases hsub : Core.subject ⟨tables, s⟩ (.packet «from» bytes, now) ip with
  | none =>
    rw [hsub] at hmem
    cases hmem
  | some p =>
    cases hpkt : Aurp.parse bytes with
    | none =>
      rw [hsub, hpkt] at hmem
      cases hmem
    | some pkt =>
      cases pkt with
      | data dh ddp =>
        rw [hsub, hpkt] at hmem
        cases hmem
      | routing dh conn' seq' cmd =>
        rw [hsub, hpkt] at hmem
        dsimp only at hmem
        split_ifs at hmem with hip
        · subst hip
          have haddr : p.addr = «from» := Core.subject_addr hf hsub
          have hsent := (p.named dh «from»).routing_riReqs conn' seq' cmd tables now
          rw [sentOf, show (p.named dh «from»).addr = «from» from haddr] at hsent
          rw [hsent] at hmem
          split_ifs at hmem with hopens
          · obtain ⟨rfl, -⟩ := Prod.mk.inj (List.mem_singleton.1 hmem)
            have hentry : (s.next (.packet «from» bytes tables, now)).entry «from» =
                some ((p.named dh «from»).routing conn' seq' cmd tables now).peer := by
              refine (Core.packet_entry s tables «from» «from» bytes now).trans ?_
              unfold Core.subject at hsub
              dsimp only at hsub
              rw [if_pos ⟨rfl, by simp [hpkt]⟩] at hsub
              unfold Core.entryStep
              dsimp only
              rw [if_pos rfl, hpkt, hsub]
              rfl
            refine ⟨_, hentry, ?_⟩
            rw [Peer.routing_opensExport hopens]
            exact Peer.awaits_of_expected (by simp [Peer.onReceiver, Peer.receiverOpen]) rfl
          · cases hmem
        · cases hmem

/-- What a tick makes of an entry that asks again. -/
theorem tick_asksAgain {s : Peers} (hs : s.Reached) {ip : Ipv4Addr} {p : Peer}
    (hp : s.entry ip = some p) {now : Instant} (h : p.asksAgain now) (tables : Tables) :
    ∃ q, (s.next (.tick tables, now)).entry ip = some q ∧ q.receiving = p.receiving := by
  have hstay := fun scan => Peer.timed_asksAgain (hs.ok ip p hp) h scan
  have hr : p.receiver = .waitRiRsp := by
    simp only [Peer.asksAgain, decide_eq_true_eq] at h
    exact h.1
  refine ⟨p.timed (RECONNECT_SCAN ≤ since now s.lastScan) now, ?_, hstay _⟩
  refine (entry_ticked s tables now ip).trans (Option.filter_eq_some_iff.2 ⟨?_, ?_⟩)
  · exact Option.map_eq_some_iff.2 ⟨p, hp, rfl⟩
  · have hreceiver := (congrArg Receiving.receiver (hstay
      (RECONNECT_SCAN ≤ since now s.lastScan))).trans hr
    simp only [Peer.receiving] at hreceiver
    simp [keeps, hreceiver]

theorem tick_sendsRiReq {s : Peers} (hs : s.Reached) (tables : Tables) (now : Instant)
    (ip : Ipv4Addr) (conn : UInt16) :
    s.SendsRiReq (.tick tables, now) ip conn ↔
      ∃ p, s.entry ip = some p ∧ p.asksAgain now ∧ p.connLocal = conn := by
  have hf : Core.Filed ⟨tables, s⟩ := hs.addr
  obtain ⟨hnone, hsome⟩ := Core.sentTo_tick hf ip now
  rw [sendsRiReq_iff, sentOf, show (s.call (.tick tables, now)).2 =
    (Core.step ⟨tables, s⟩ (.tick, now)).2 from rfl]
  cases hp : s.entry ip with
  | none =>
    rw [hnone hp]
    simp
  | some p =>
    obtain ⟨t, ht⟩ := hsome p hp
    have hsent := Peer.timers_riReqs (hs.ok ip p hp) (RECONNECT_SCAN ≤ since now s.lastScan)
      (ZI_REREQUEST ≤ since now s.lastZi) t now
    rw [sentOf, hs.addr ip p hp] at hsent
    rw [ht, hsent]
    split_ifs with h
    · constructor
      · rintro ⟨seq, sui, hmem⟩
        exact ⟨p, rfl, h, (Prod.mk.inj (List.mem_singleton.1 hmem)).1.symm⟩
      · rintro ⟨q, hq, -, rfl⟩
        obtain rfl := Option.some.inj hq
        exact ⟨0, Cmd.ALL_SUI, List.mem_singleton_self _⟩
    · constructor
      · rintro ⟨seq, sui, hmem⟩
        cases hmem
      · rintro ⟨q, hq, hask, -⟩
        obtain rfl := Option.some.inj hq
        exact absurd hask h

/-- The operator's ping sends Tickles and the shutdown RDs. -/
theorem not_sendsRiReq {s : Peers} (hs : s.Reached) {c : Call × Instant} {ip : Ipv4Addr}
    {conn : UInt16} (hc : c.1 = .ping ∨ c.1 = .shutdown) : ¬s.SendsRiReq c ip conn := by
  have hf : Core.Filed ⟨.new, s⟩ := hs.addr
  obtain ⟨c, now⟩ := c
  rw [sendsRiReq_iff, sentOf]
  rintro ⟨seq, sui, hmem⟩
  rcases hc with rfl | rfl
  · obtain ⟨hnone, hsome⟩ := Core.sentTo_ping hf ip now
    rw [show (s.call (.ping, now)).2 = (Core.step ⟨.new, s⟩ (.ping, now)).2 from rfl] at hmem
    cases hp : s.entry ip with
    | none =>
      rw [hnone hp] at hmem
      cases hmem
    | some p =>
      have hsent : sentOf isRiReq p.addr p.pingActs = [] := by
        unfold Peer.pingActs
        split_ifs
        · exact p.sentOf_send_nil p.connLocal 0 rfl
        · rfl
      rw [sentOf, hs.addr ip p hp] at hsent
      rw [hsome p hp, hsent] at hmem
      cases hmem
  · obtain ⟨hnone, hsome⟩ := Core.sentTo_shutdown hf ip now
    rw [show (s.call (.shutdown, now)).2 =
      (Core.step ⟨.new, s⟩ (.shutdown, now)).2 from rfl] at hmem
    cases hp : s.entry ip with
    | none =>
      rw [hnone hp] at hmem
      cases hmem
    | some p =>
      have hsent : sentOf isRiReq p.addr (p.shutActs now) = [] := by
        unfold Peer.shutActs
        split_ifs
        · rfl
        · exact Peer.riReqs_sequenced { p with outstanding := none, pages := [] } (.rd (-1)) rfl []
            now
      rw [sentOf, hs.addr ip p hp] at hsent
      rw [hsome p hp, hsent] at hmem
      cases hmem

/-- An RI-Req repeated after pages of its export were applied finds no receiver that waits for the
first. -/
theorem RepeatsLate.not_awaited {s : Peers} (hs : s.Reached) {c : Call × Instant}
    (h : s.RepeatsLate c) :
    ∃ ip conn, s.SendsRiReq c ip conn ∧
      ∀ q, (s.next c).entry ip = some q → ¬q.Awaits conn := by
  obtain ⟨c, now⟩ := c
  obtain ⟨ip, p, tables, rfl, hp, hask, hseq⟩ := h
  refine ⟨ip, p.connLocal, (tick_sendsRiReq hs tables now ip _).2 ⟨p, hp, hask, rfl⟩, ?_⟩
  intro q hq hwait
  obtain ⟨q', hq', hr⟩ := tick_asksAgain hs hp hask tables
  obtain rfl := Option.some.inj (hq.symm.trans hq')
  exact hseq ((congrArg Receiving.seq hr).symm.trans hwait.expected)

/-- **An RI-Req and the receiver behind it.** In every run, a call leaves the receiver of each
RI-Req it sends waiting for the first page of the export just in case it is no tick that repeats an
RI-Req after pages of its export were applied. -/
theorem export_awaited_iff («local» : Di) (openPeering : Bool) (configured : List Str)
    (nanos : UInt16) (start : Instant) (cs : List (Call × Instant)) (c : Call × Instant) :
    let s := (new «local» openPeering configured nanos start).after cs
    (∀ ip conn, s.SendsRiReq c ip conn → ∃ q, (s.next c).entry ip = some q ∧ q.Awaits conn) ↔
      ¬s.RepeatsLate c := by
  intro s
  have hs : s.Reached := ⟨_, _, _, _, _, cs, rfl⟩
  constructor
  · intro h hlate
    obtain ⟨ip, conn, hsend, hnot⟩ := hlate.not_awaited hs
    obtain ⟨q, hq, hwait⟩ := h ip conn hsend
    exact hnot q hq hwait
  · intro h ip conn hsend
    obtain ⟨c, now⟩ := c
    cases c with
    | packet «from» bytes tables => exact packet_sendsRiReq hs hsend
    | tick tables =>
      obtain ⟨p, hp, hask, rfl⟩ := (tick_sendsRiReq hs tables now ip conn).1 hsend
      obtain ⟨q, hq, hr⟩ := tick_asksAgain hs hp hask tables
      have hseq : p.seqRecv = 1 := by
        by_contra hseq
        exact h ⟨ip, p, tables, rfl, hp, hask, hseq⟩
      have hwait : p.receiver = .waitRiRsp := by
        simp only [Peer.asksAgain, decide_eq_true_eq] at hask
        exact hask.1
      have hreceiver : q.receiver = .waitRiRsp := (congrArg Receiving.receiver hr).trans hwait
      refine ⟨q, hq, Peer.awaits_of_expected ?_ ((congrArg Receiving.seq hr).trans hseq)⟩
      simp only [Peer.onReceiver, Peer.receiverOpen, hreceiver, decide_eq_true_eq]
      exact ⟨(congrArg Receiving.conn hr).symm, by decide, by decide⟩
    | ping => exact absurd hsend (not_sendsRiReq hs (Or.inl rfl))
    | shutdown => exact absurd hsend (not_sendsRiReq hs (Or.inr rfl))
    | _ =>
      obtain ⟨seq, sui, hmem⟩ := hsend
      cases hmem

/-- The stranger answers our Open-Req, and sends the first page of two. -/
def halfway : List (Call × Instant) :=
  [opens 7, (.packet ⟨192, 0, 2, 1⟩ (peerPacket 1 0 (.openRsp 0 1 [])) .new, 0),
    (.packet ⟨192, 0, 2, 1⟩ (peerPacket 1 1 (.riRsp false [])) .new, fromSecs 1)]

/-- The next page is late, and the RI-Req goes out once more from a receiver that expects the
number 2. -/
theorem export_not_awaited :
    ¬∀ («local» : Di) (openPeering : Bool) (configured : List Str) (nanos : UInt16)
        (start : Instant) (cs : List (Call × Instant)) (c : Call × Instant) (ip : Ipv4Addr)
        (conn : UInt16),
      let s := (new «local» openPeering configured nanos start).after cs
      s.SendsRiReq c ip conn → ∃ q, (s.next c).entry ip = some q ∧ q.Awaits conn := by
  intro h
  have hlate : (welcoming.after halfway).RepeatsLate (.tick .new, fromSecs 11) := by
    have hp : ((welcoming.after halfway).entry ⟨192, 0, 2, 1⟩).isSome := by decide +kernel
    obtain ⟨p, hp⟩ := Option.isSome_iff_exists.1 hp
    have hask : ((welcoming.after halfway).entry ⟨192, 0, 2, 1⟩).all fun p =>
        p.asksAgain (fromSecs 11) ∧ p.seqRecv ≠ 1 := by decide +kernel
    rw [hp, Option.all_some, decide_eq_true_iff] at hask
    exact ⟨_, p, .new, rfl, hp, hask.1, hask.2⟩
  obtain ⟨ip, conn, hsend, hnot⟩ := hlate.not_awaited ⟨_, _, _, _, _, halfway, rfl⟩
  obtain ⟨q, hq, hwait⟩ := h (.ip ⟨192, 0, 2, 9⟩) true [] 0 0 halfway _ ip conn hsend
  exact hnot q hq hwait

end Peers

end AppleTalk
