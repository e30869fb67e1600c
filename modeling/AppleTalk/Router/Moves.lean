import AppleTalk.Router.Pages
import AppleTalk.Router.Sent

/-!
# What one input does to a peer's connections

A peer's entry is two connections, the one the peer opened and the one we opened. Each input moves
either of them by one of a few moves, and sends the peer only what the move says. Every invariant
of the connections is derived from these moves and never looks at the packet handling again.
-/

namespace AppleTalk

/-! ### The connection the peer opened -/

/-- The commands that carry a sequence number: RI-Rsp, RI-Upd and RD. -/
def isData (code : UInt16) : Bool := code = 2 ∨ code = 4 ∨ code = 5

/-- The networks a sequenced command names. -/
def Cmd.nets : Cmd → List UInt16
  | .riRsp _ tuples => tuples.map fun t => t.range.1
  | .riUpd events => (events.filter fun e => e.code = NA).map fun e => e.tuple.range.1
  | _ => []

/-- The outstanding packet is this command, under this connection ID and sequence number. -/
def Outstanding.Carries (o : Outstanding) (conn seq : UInt16) (cmd : Cmd) : Prop :=
  o.seq = seq ∧ o.nets = cmd.nets ∧ ∃ dh, o.bytes = (Aurp.routing dh conn seq cmd).toBytes

/-- Our side of the connection the peer opened. -/
structure Sending where
  sender : Sender
  conn : UInt16
  seq : UInt16
  outstanding : Option Outstanding
  pages : List (List NetworkTuple)
  pending : List EventTuple

namespace Sending

/-- What is outstanding is the last sequenced packet. -/
def Ok (s : Sending) : Prop :=
  ∀ o ∈ s.outstanding, ∃ cmd, isData cmd.code ∧ o.Carries s.conn s.seq cmd

/-- A connection that is not open. -/
def closed : Sending :=
  { sender := .unconnected, conn := 0, seq := 0, outstanding := none, pages := [], pending := [] }

/-- A new packet outstanding. -/
def posted (s : Sending) (o : Outstanding) (sender : Sender) : Sending :=
  { s with seq := succ s.seq, outstanding := some o, sender := sender }

/-- What one input can do to the connection, with the sequenced packets it sends. `asked` says
that the input is an RI-Req on it, which starts the export `x`. -/
inductive Move (x : List NetworkTuple) :
    Bool → Sending → Sending → List (UInt16 × UInt16 × Cmd) → Prop
  | keep (s : Sending) : Move x false s s []
  | close (s : Sending) : Move x false s closed []
  /-- An Open-Req for a connection that is not open, or once more for this one. -/
  | accept (s : Sending) (conn : UInt16) (h : s.sender = .unconnected ∨ conn = s.conn) :
    Move x false s
      { s with sender := .connected, conn := conn, seq := 0, outstanding := none, pages := [] } []
  | acked (s : Sending) (sender : Sender) (h : sender = .unconnected ↔ s.sender = .unconnected) :
    Move x false s { s with outstanding := none, sender := sender } []
  /-- The outstanding packet once more. -/
  | again (s : Sending) (o o' : Outstanding) (cmd : Cmd) (ho : s.outstanding = some o)
    (hd : isData cmd.code) (hc : o.Carries s.conn s.seq cmd)
    (hc' : o'.Carries s.conn s.seq cmd) :
    Move x false s { s with outstanding := some o' } [(s.conn, s.seq, cmd)]
  /-- An RI-Upd that says nothing, to find out whether the peer is there. -/
  | null (s : Sending) (o : Outstanding) (h : s.sender ≠ .unconnected)
    (hc : o.Carries s.conn (succ s.seq) nullUpd) :
    Move x false s (s.posted o .waitRiUpdAck) [(s.conn, succ s.seq, nullUpd)]
  /-- The next page of the export. -/
  | page (s : Sending) (tuples : List NetworkTuple) (rest : List (List NetworkTuple))
    (o : Outstanding) (h : s.sender ≠ .unconnected) (hp : s.pages = tuples :: rest)
    (hc : o.Carries s.conn (succ s.seq) (.riRsp rest.isEmpty tuples)) :
    Move x false s ({ s with pages := rest }.posted o .waitRiRspAck)
      [(s.conn, succ s.seq, .riRsp rest.isEmpty tuples)]
  /-- The first page of a new export. -/
  | exported (s : Sending) (tuples : List NetworkTuple) (rest : List (List NetworkTuple))
    (o : Outstanding) (h : s.sender ≠ .unconnected) (hx : splitTuples x = tuples :: rest)
    (hc : o.Carries s.conn 1 (.riRsp rest.isEmpty tuples)) :
    Move x true s ({ s with seq := 0, pages := rest }.posted o .waitRiRspAck)
      [(s.conn, 1, .riRsp rest.isEmpty tuples)]
  /-- The pending events. -/
  | update (s : Sending) (o : Outstanding) (h : s.sender = .connected)
    (ho : s.outstanding = none) (hp : s.pending ≠ [])
    (hc : o.Carries s.conn (succ s.seq) (.riUpd s.pending)) :
    Move x false s ({ s with pending := [] }.posted o .waitRiUpdAck)
      [(s.conn, succ s.seq, .riUpd s.pending)]
  /-- The shutdown. -/
  | down (s : Sending) (o : Outstanding) (h : s.sender ≠ .unconnected)
    (hc : o.Carries s.conn (succ s.seq) (.rd (-1))) :
    Move x false s ({ s with pages := [] }.posted o .waitRdAck) [(s.conn, succ s.seq, .rd (-1))]

theorem Ok.posted {s : Sending} {o : Outstanding} {cmd : Cmd} (hd : isData cmd.code)
    (hc : o.Carries s.conn (succ s.seq) cmd) (sender : Sender) : (s.posted o sender).Ok := by
  intro o' ho'
  obtain rfl : o = o' := Option.some.inj ho'
  exact ⟨cmd, hd, hc⟩

theorem Ok.none {s : Sending} (h : s.outstanding = none) : s.Ok := by
  intro o ho
  rw [h] at ho
  cases ho

/-- Every move keeps the outstanding packet the last one. -/
theorem Ok.move {x : List NetworkTuple} {asked : Bool} {s s' : Sending}
    {sent : List (UInt16 × UInt16 × Cmd)} (h : s.Ok) (hm : Move x asked s s' sent) : s'.Ok := by
  cases hm with
  | keep => exact h
  | close => exact Ok.none rfl
  | accept => exact Ok.none rfl
  | acked => exact Ok.none rfl
  | again _ o o' cmd _ hd _ hc' =>
    intro o'' ho''
    obtain rfl : o' = o'' := Option.some.inj ho''
    exact ⟨cmd, hd, hc'⟩
  | null _ o _ hc => exact Ok.posted rfl hc _
  | page _ tuples rest o _ _ hc => exact Ok.posted rfl hc .waitRiRspAck
  | exported _ tuples rest o _ _ hc => exact Ok.posted rfl hc _
  | update _ o _ _ _ hc => exact Ok.posted rfl hc .waitRiUpdAck
  | down _ o _ hc => exact Ok.posted rfl hc .waitRdAck

end Sending

namespace Peer

/-- An entry's side of the connection the peer opened. -/
def sending (p : Peer) : Sending :=
  { sender := p.sender, conn := p.connRemote, seq := p.seqSend, outstanding := p.outstanding
    pages := p.pages, pending := p.pending }

/-- What a sequenced packet sends. -/
theorem sentOf_sendSequenced (k : UInt16 → Bool) (p : Peer) (cmd : Cmd) (nets : List UInt16)
    (now : Instant) :
    sentOf k p.addr (p.sendSequenced cmd nets now).2.acts =
      onWire k [(p.connRemote, succ p.seqSend, cmd)] :=
  sentOf_routing _ _ _ _

theorem openReq_sending (x : List NetworkTuple) (p : Peer) (conn version : UInt16)
    (options : List (UInt8 × Bytes)) (now : Instant) :
    ∃ sent, Sending.Move x false p.sending (p.openReq conn version options now).1.sending sent ∧
      sentOf isData p.addr (p.openReq conn version options now).2.acts = onWire isData sent := by
  have hrsp : ∀ rate, sentOf isData p.addr [p.openRsp conn rate] = [] := fun rate => by
    rw [openRsp, sentOf_send, onWire_other rfl]
  unfold openReq
  dsimp only
  split_ifs with h1 h2 h3 h4 h5
  · exact ⟨[], .keep _, hrsp _⟩
  · exact ⟨[], .keep _, hrsp _⟩
  · exact ⟨_, .null p.sending _ h3.1 ⟨rfl, rfl, _, rfl⟩,
      sentOf_sendSequenced isData { p with probing := true } nullUpd [] now⟩
  · exact ⟨[], .keep _, rfl⟩
  · refine ⟨[], .accept p.sending conn ?_, ?_⟩
    · by_contra hc
      push Not at hc
      exact h3 hc
    · have hreq : sentOf isData p.addr
          [p.send p.connLocal 0 (.openReq Cmd.ALL_SUI 1 [])] = [] := by
        rw [sentOf_send, onWire_other rfl]
      rw [Out.append_acts, sentOf_append, Out.act_acts]
      exact congrArg₂ _ (hrsp 1) hreq
  · refine ⟨[], .accept p.sending conn ?_, hrsp 1⟩
    by_contra hc
    push Not at hc
    exact h3 hc

theorem sentOf_carries {k : UInt16 → Bool} {ip : Ipv4Addr} {o : Outstanding}
    {conn seq : UInt16} {cmd : Cmd} (h : o.Carries conn seq cmd) :
    sentOf k ip [.toPeer ip o.bytes] = onWire k [(conn, seq, cmd)] := by
  obtain ⟨-, -, dh, hb⟩ := h
  rw [hb]
  exact sentOf_routing dh conn seq cmd

/-- The next page of an export goes out if there is one. -/
theorem sendPage_eq {p : Peer} {tuples : List NetworkTuple} {rest : List (List NetworkTuple)}
    (hp : p.pages = tuples :: rest) (now : Instant) :
    ∃ o : Outstanding, o.Carries p.connRemote (succ p.seqSend) (.riRsp rest.isEmpty tuples) ∧
      (p.sendPage now).1.sending = { p.sending with pages := rest }.posted o .waitRiRspAck ∧
      (p.sendPage now).2.acts = [.toPeer p.addr o.bytes] := by
  simp only [sendPage, hp]
  exact ⟨_, ⟨rfl, rfl, _, rfl⟩, rfl, rfl⟩

/-- Packets that are no sequenced ones are not among those of a move. -/
theorem sentOf_sends_nil {k : UInt16 → Bool} (p : Peer) (conn seq : UInt16) {cmds : List Cmd}
    (h : ∀ cmd ∈ cmds, k cmd.code = false) : sentOf k p.addr (cmds.map (p.send conn seq)) = [] := by
  rw [sentOf_sends, onWire, List.filterMap_eq_nil_iff]
  intro x hx
  obtain ⟨cmd, hcmd, rfl⟩ := List.mem_map.1 hx
  simp [h cmd hcmd]

theorem code_ziChunks (net : UInt16) (names : List Str) :
    ∀ cmd ∈ ziChunks net names, cmd.code = 7 := by
  rw [ziChunks_packs]
  exact Packing.forall_mem_finish (P := fun cmd : Cmd => cmd.code = 7) (fun _ => rfl) _

/-- The zone lists an ack asks for go out as ZI-Rsps. -/
theorem code_ziPages (nets : List UInt16) (tables : Tables) :
    ∀ cmd ∈ ziPages nets tables, cmd.code = 7 := by
  unfold ziPages
  dsimp only
  generalize hr : List.foldl _ _ nets = r
  have : ∀ cmd ∈ r.1, cmd.code = 7 := by
    rw [← hr]
    refine List.foldlRecOn (motive := fun r : List Cmd × List (UInt16 × Str) × ℕ =>
      ∀ cmd ∈ r.1, cmd.code = 7) nets _ (by simp) fun r hr net _ => ?_
    cases tables.zones net with
    | none => exact hr
    | some z =>
      have hpage : ∀ cmd ∈ r.1 ++ [.ziRsp none r.2.1], cmd.code = 7 :=
        List.forall_mem_append.2 ⟨hr, List.forall_mem_singleton.2 rfl⟩
      dsimp only
      split_ifs
      · exact hr
      · exact List.forall_mem_append.2 ⟨hr, code_ziChunks net z.names⟩
      · exact List.forall_mem_append.2 ⟨hpage, code_ziChunks net z.names⟩
      · exact hpage
      · exact hr
  split_ifs
  · exact this
  · exact List.forall_mem_append.2 ⟨this, List.forall_mem_singleton.2 rfl⟩

/-- Zones are no sequenced packets. -/
theorem sentOf_zonesFor {k : UInt16 → Bool} (hk : k 7 = false) (p : Peer) (szi : Bool)
    (nets : List UInt16) (tables : Tables) :
    sentOf k p.addr (p.zonesFor szi nets tables).acts = [] := by
  unfold zonesFor
  dsimp only
  split_ifs
  · exact p.sentOf_sends_nil _ _ fun cmd hcmd => by rwa [code_ziPages nets tables cmd hcmd]
  · rfl

theorem riAck_sending (x : List NetworkTuple) (p : Peer) (seq : UInt16) (szi : Bool)
    (tables : Tables) (now : Instant) :
    ∃ sent, Sending.Move x false p.sending (p.riAck seq szi tables now).1.sending sent ∧
      sentOf isData p.addr (p.riAck seq szi tables now).2.acts = onWire isData sent := by
  have hzi := fun nets => sentOf_zonesFor (k := isData) rfl p szi nets tables
  have h := p.riAck_acked seq szi tables now
  generalize p.riAck seq szi tables now = r at h ⊢
  cases h with
  | ignored => exact ⟨[], .keep _, rfl⟩
  | paged ho hseq hs hp =>
    obtain ⟨tuples, rest, hp⟩ := List.exists_cons_of_ne_nil hp
    obtain ⟨o', hc, hsend, hacts⟩ := sendPage_eq (p := { p with outstanding := none }) hp now
    rw [hsend, Out.append_acts, sentOf_append, hacts]
    exact ⟨_, .page p.sending tuples rest o' (by simp [sending, hs]) hp hc,
      (congrArg₂ _ (hzi _) (sentOf_carries hc)).trans (List.nil_append _)⟩
  | idle ho hseq hs =>
    refine ⟨[], .acked p.sending .connected ?_, hzi _⟩
    rcases hs with ⟨hs, -⟩ | hs <;> simp [sending, hs]
  | closed => exact ⟨[], .close _, hzi _⟩
  | unawaited ho hseq hs =>
    refine ⟨[], .acked p.sending p.sender ?_, hzi _⟩
    rcases hs with hs | hs <;> simp [sending, hs]

theorem sentOf_send_nil {k : UInt16 → Bool} (p : Peer) (conn seq : UInt16) {cmd : Cmd}
    (h : k cmd.code = false) : sentOf k p.addr [p.send conn seq cmd] = [] := by
  rw [sentOf_send, onWire_other h]

theorem sequenced_sending (p : Peer) (conn seq : UInt16) (last : Bool) (tables : Tables)
    (now : Instant) (apply : Tables × List RouteChange) (szi : Bool) :
    (p.sequenced conn seq last tables now apply szi).peer.sending = p.sending ∧
      sentOf isData p.addr (p.sequenced conn seq last tables now apply szi).out.acts = [] := by
  have hack : ∀ szi, sentOf isData p.addr [p.send conn seq (.riAck szi)] = [] := fun szi =>
    p.sentOf_send_nil conn seq rfl
  unfold sequenced
  dsimp only
  split
  · split_ifs
    · exact ⟨rfl, hack szi⟩
    · exact ⟨rfl, hack szi⟩
  · exact ⟨rfl, hack true⟩
  · exact ⟨rfl, rfl⟩
  · exact ⟨rfl, rfl⟩

theorem exists_splitTuples (x : List NetworkTuple) :
    ∃ tuples rest, splitTuples x = tuples :: rest :=
  List.exists_cons_of_ne_nil (by simp [splitTuples])

/-- The packet is an RI-Req that restarts the export. -/
def asks (p : Peer) (conn : UInt16) (cmd : Cmd) : Bool :=
  match cmd with
  | .riReq _ => p.takesRiReq conn
  | _ => false

/-- One routing packet moves the connection the peer opened. -/
theorem routing_sending (p : Peer) (conn seq : UInt16) (cmd : Cmd) (tables : Tables)
    (now : Instant) :
    ∃ sent, Sending.Move tables.export (p.asks conn cmd) p.sending
        (p.routing conn seq cmd tables now).peer.sending sent ∧
      sentOf isData p.addr (p.routing conn seq cmd tables now).out.acts = onWire isData sent := by
  have hans : ∀ cmds : List Cmd, (∀ cmd ∈ cmds, isData cmd.code = false) →
      sentOf isData p.addr (cmds.map (p.send conn 0)) = [] := fun cmds h =>
    p.sentOf_sends_nil conn 0 h
  cases cmd with
  | openReq sui version options => exact openReq_sending _ p conn version options now
  | riReq sui =>
    simp only [routing, asks]
    cases ht : p.takesRiReq conn with
    | false => exact ⟨[], .keep _, rfl⟩
    | true =>
      obtain ⟨tuples, rest, hx⟩ := exists_splitTuples tables.export
      obtain ⟨o, hc, hsend, hacts⟩ := sendPage_eq (p := { p with
        seqSend := 0, outstanding := none, pages := splitTuples tables.export }) hx now
      have hs : p.sender ≠ .unconnected := by
        simp only [takesRiReq, decide_eq_true_eq] at ht
        rintro h
        simp [h] at ht
      simp only [if_true, quiet, hsend, hacts]
      exact ⟨_, .exported p.sending tuples rest o hs hx hc, sentOf_carries hc⟩
  | riAck szi =>
    simp only [routing, asks]
    split_ifs
    · exact riAck_sending _ p seq szi tables now
    · exact ⟨[], .keep _, rfl⟩
  | tickle =>
    simp only [routing, asks]
    split_ifs
    · exact ⟨[], .keep _, hans [.tickleAck] (List.forall_mem_singleton.2 rfl)⟩
    · exact ⟨[], .keep _, rfl⟩
  | ziReq nets =>
    simp only [routing, asks]
    split_ifs
    · refine ⟨[], .keep _, hans _ fun cmd hcmd => ?_⟩
      rw [code_ziPages nets tables cmd hcmd]
      rfl
    · exact ⟨[], .keep _, rfl⟩
  | gznReq zone =>
    simp only [routing, asks]
    split_ifs
    · exact ⟨[], .keep _, hans [.gznRsp zone none] (List.forall_mem_singleton.2 rfl)⟩
    · exact ⟨[], .keep _, rfl⟩
  | gdzlReq start =>
    simp only [routing, asks]
    split_ifs
    · exact ⟨[], .keep _, hans [.gdzlRsp true (-1) []] (List.forall_mem_singleton.2 rfl)⟩
    · exact ⟨[], .keep _, rfl⟩
  | openRsp flags rateOrErr options =>
    simp only [routing, asks]
    split_ifs
    · exact ⟨[], .keep _, rfl⟩
    · exact ⟨[], .keep _, p.sentOf_send_nil p.connLocal 0 rfl⟩
    · exact ⟨[], .keep _, rfl⟩
  | riRsp last tuples =>
    simp only [routing, asks]
    split_ifs
    · obtain ⟨h1, h2⟩ :=
        p.sequenced_sending conn seq last tables now (p.riRsp tuples tables now) true
      rw [h1, h2]
      exact ⟨[], .keep _, rfl⟩
    · exact ⟨[], .keep _, rfl⟩
  | riUpd events =>
    simp only [routing, asks]
    split_ifs
    · obtain ⟨h1, h2⟩ := p.sequenced_sending conn seq false tables now
        (p.riUpd events tables now) (events.any fun e => e.code = NA)
      rw [h1, h2]
      exact ⟨[], .keep _, rfl⟩
    · exact ⟨[], .keep _, rfl⟩
  | rd code =>
    simp only [routing, asks]
    split_ifs
    · exact ⟨[], .close _, p.sentOf_send_nil conn seq rfl⟩
    · exact ⟨[], .keep _, rfl⟩
  | ziRsp extended zones =>
    simp only [routing, asks]
    split_ifs <;> exact ⟨[], .keep _, rfl⟩
  | tickleAck =>
    simp only [routing, asks]
    split_ifs <;> exact ⟨[], .keep _, rfl⟩
  | gznRsp => exact ⟨[], .keep _, rfl⟩
  | gdzlRsp => exact ⟨[], .keep _, rfl⟩

@[simp] theorem sentOf_report (k : UInt16 → Bool) (ip : Ipv4Addr) (p : Peer)
    (was : Receiver × Sender) (out : Out) :
    sentOf k ip (p.report was out).acts = sentOf k ip out.acts := by
  unfold report
  dsimp only
  split_ifs <;> simp [sentOf, sentTo, routingOf]

theorem scan_sending (p : Peer) (scan : Bool) (now : Instant) :
    (if scan then p.reconnect now else (p, .nil)).1.sending = p.sending ∧
      sentOf isData p.addr (if scan then p.reconnect now else (p, .nil)).2.acts = [] := by
  rcases p.scan_cases scan now with hscan | ⟨-, -, hscan⟩
  · rw [hscan]
    exact ⟨rfl, rfl⟩
  · rw [hscan]
    exact ⟨rfl, p.sentOf_send_nil p.connLocal 0 rfl⟩

theorem senderTimers_sending (x : List NetworkTuple) {p : Peer} (hok : p.sending.Ok)
    (now : Instant) :
    ∃ sent, Sending.Move x false p.sending (p.senderTimers now).1.sending sent ∧
      sentOf isData p.addr (p.senderTimers now).2.acts = onWire isData sent := by
  have h := p.senderTimers_timed now
  generalize p.senderTimers now = r at h ⊢
  cases h with
  | waiting | idle => exact ⟨[], .keep _, rfl⟩
  | spent => exact ⟨[], .close _, rfl⟩
  | @again o ho =>
    obtain ⟨cmd, hd, hc⟩ := hok o ho
    exact ⟨_, .again p.sending o { o with tries := o.tries + 1, «at» := now } cmd ho hd hc hc,
      sentOf_carries hc⟩
  | updated ho hs hp hdue hr =>
    rw [hr]
    exact ⟨_, .update p.sending _ hs ho hp ⟨rfl, rfl, _, rfl⟩,
      sentOf_sendSequenced isData { p with pending := [], lastUpdate := now } (.riUpd p.pending)
        ((p.pending.filter fun e => e.code = NA).map fun e => e.tuple.range.1) now⟩

/-- The timers of the connection we opened leave the other one alone, except that a peer whose
tickles went unanswered is probed on it. -/
theorem receiverTimers_sending (p : Peer) (tables : Tables) (now : Instant) :
    ((p.receiverTimers tables now).peer.sending = p.sending ∧
        sentOf isData p.addr (p.receiverTimers tables now).out.acts = []) ∨
      ∃ o, p.sender = .connected ∧ o.at = now ∧ o.Carries p.connRemote (succ p.seqSend) nullUpd ∧
        (p.receiverTimers tables now).peer.sending = p.sending.posted o .waitRiUpdAck ∧
        sentOf isData p.addr (p.receiverTimers tables now).out.acts =
          onWire isData [(p.connRemote, succ p.seqSend, nullUpd)] := by
  have hsend : ∀ cmd, isData cmd.code = false →
      sentOf isData p.addr [p.send p.connLocal 0 cmd] = [] :=
    fun cmd h => p.sentOf_send_nil p.connLocal 0 h
  have h := p.receiverTimers_timed tables now
  generalize p.receiverTimers tables now = r at h ⊢
  cases h with
  | idle | unanswered | lost => exact Or.inl ⟨rfl, rfl⟩
  | reopened | asked | tested | retested => exact Or.inl ⟨rfl, hsend _ rfl⟩
  | probed _ _ _ hs =>
    exact Or.inr ⟨_, hs, rfl, ⟨rfl, rfl, _, rfl⟩, rfl,
      sentOf_sendSequenced isData p.closeReceiver nullUpd [] now⟩

theorem ziRerequest_acts (k : UInt16 → Bool) (hk : k 6 = false) (p : Peer) (tables : Tables) :
    sentOf k p.addr (p.ziRerequest tables).acts = [] := by
  unfold ziRerequest
  dsimp only
  split_ifs
  · rfl
  · have hmap : ∀ l : List (List UInt16), l.map (fun chunk => p.send p.connLocal 0 (.ziReq chunk)) =
        (l.map Cmd.ziReq).map (p.send p.connLocal 0) := fun l => by simp
    rw [hmap]
    refine p.sentOf_sends_nil _ _ fun cmd hcmd => ?_
    obtain ⟨_, -, rfl⟩ := List.mem_map.1 hcmd
    exact hk

/-- One peer's share of a tick moves the connection the peer opened. -/
theorem timers_sending (x : List NetworkTuple) {p : Peer} (hok : p.sending.Ok) (scan zi : Bool)
    (tables : Tables) (now : Instant) :
    ∃ sent, Sending.Move x false p.sending (p.timed scan now).sending sent ∧
      sentOf isData p.addr (p.timers scan zi tables now).out.acts = onWire isData sent := by
  rw [← timers_peer p scan zi tables now]
  obtain ⟨q, hq, haddr, hsend, hacts⟩ :
      ∃ q : Peer, (if scan then p.reconnect now else (p, .nil)).1 = q ∧ q.addr = p.addr ∧
        q.sending = p.sending ∧
        sentOf isData p.addr (if scan then p.reconnect now else (p, .nil)).2.acts = [] :=
    ⟨_, rfl, p.scan_addr scan now, p.scan_sending scan now⟩
  have hzi : ∀ (r : Peer) t, r.addr = p.addr →
      sentOf isData p.addr (if zi then r.ziRerequest t else .nil).acts = [] := fun r t hr => by
    split_ifs
    · rw [← hr]
      exact ziRerequest_acts isData rfl r t
    · rfl
  simp only [timers, sentOf_report, Out.append_acts, sentOf_append, hacts, List.nil_append, hq]
  have hb := (receiverTimers_addr q tables now).trans haddr
  rw [hzi _ _ ((senderTimers_addr _ now).trans hb), List.append_nil, ← hsend, ← haddr]
  rw [← haddr] at hb
  rcases q.receiverTimers_sending tables now with ⟨h1, h2⟩ | ⟨o, hs, hat, hc, h1, h2⟩
  · obtain ⟨sent, hm, hsent⟩ := senderTimers_sending x
      (p := (q.receiverTimers tables now).peer) (by rwa [h1, hsend]) now
    rw [h1] at hm
    rw [hb] at hsent
    exact ⟨sent, hm, by rw [h2, hsent, List.nil_append]⟩
  · -- The probe was sent in this very tick, so it is not due again.
    have hout : (q.receiverTimers tables now).peer.outstanding = some o :=
      congrArg Sending.outstanding h1
    have hidle : (q.receiverTimers tables now).peer.senderTimers now =
        ((q.receiverTimers tables now).peer, .nil) := by
      unfold senderTimers
      rw [hout]
      dsimp only
      rw [if_neg]
      simp [hat, since, RETRY, fromSecs]
    rw [hidle]
    rw [h1, h2, Out.nil_acts, sentOf_nil, List.append_nil]
    exact ⟨_, .null q.sending o (by simp [sending, hs]) hc, rfl⟩

/-- What the shutdown sends an entry. -/
def shutActs (p : Peer) (now : Instant) : List Action :=
  if p.sender = .unconnected ∨ p.sender = .waitRdAck then []
  else ({ p with outstanding := none, pages := [] }.sendSequenced (.rd (-1)) [] now).2.acts

theorem shut_sending (x : List NetworkTuple) (p : Peer) (now : Instant) :
    ∃ sent, Sending.Move x false p.sending (p.shut now).sending sent ∧
      sentOf isData p.addr (p.shutActs now) = onWire isData sent := by
  unfold shut shutActs
  split_ifs with h
  · exact ⟨[], .keep _, rfl⟩
  · push Not at h
    exact ⟨_, .down p.sending _ h.1 ⟨rfl, rfl, _, rfl⟩,
      sentOf_sendSequenced isData { p with outstanding := none, pages := [] } (.rd (-1)) [] now⟩

end Peer

/-! ### The connection we opened -/

/-- An Open-Req. -/
def isOpenReq (code : UInt16) : Bool := code = 8

/-- An RI-Ack. -/
def isAck (code : UInt16) : Bool := code = 3

/-- Our side of the connection we opened. -/
structure Receiving where
  receiver : Receiver
  conn : UInt16
  seq : UInt16
  deriving DecidableEq, Repr

namespace Receiving

/-- Far enough along to carry sequenced data. -/
def isOpen (r : Receiving) : Prop := r.receiver ≠ .unconnected ∧ r.receiver ≠ .waitOpenRsp

/-- What one input can do to the connection. `pkt` is the routing packet it is, if it is one;
`opens` are the connection IDs of the Open-Reqs it sends and `acks` the IDs and sequence numbers
of the RI-Acks. -/
inductive Move (pkt : Option (UInt16 × UInt16 × Cmd)) :
    Receiving → Receiving → List UInt16 → List (UInt16 × UInt16) → Prop
  /-- Nothing but the state of an open connection moves. -/
  | keep (r : Receiving) : Move pkt r r [] []
  | tickle (r : Receiving) (receiver : Receiver) (h : r.isOpen)
    (h' : receiver = .connected ∨ receiver = .waitTickleAck) :
    Move pkt r { r with receiver := receiver } [] []
  /-- A packet has it opened by being an Open-Req. -/
  | «open» (r : Receiving) (h : r.receiver = .unconnected)
    (hp : ∀ x ∈ pkt, ∃ sui, x.2.2 = .openReq sui 1 []) :
    Move pkt r { r with receiver := .waitOpenRsp, seq := 1 } [r.conn] []
  | reopen (r : Receiving) (h : r.receiver = .waitOpenRsp) : Move pkt r r [r.conn] []
  | opened (r : Receiving) (h : r.receiver = .waitOpenRsp) :
    Move pkt r { r with receiver := .waitRiRsp, seq := 1 } [] []
  | close (r : Receiving) (h : r.receiver ≠ .unconnected) :
    Move pkt r { receiver := .unconnected, conn := succ r.conn, seq := 1 } [] []
  /-- The packet with the expected number is applied and acknowledged. -/
  | apply (r : Receiving) (cmd : Cmd) (receiver : Receiver) (h : r.isOpen)
    (hp : pkt = some (r.conn, r.seq, cmd)) (hd : isData cmd.code) (hs : r.seq ≠ 0)
    (h' : receiver = r.receiver ∨ receiver = .connected) :
    Move pkt r { r with receiver := receiver, seq := succ r.seq } [] [(r.conn, r.seq)]
  /-- The packet before the expected one is acknowledged once more. -/
  | repeated (r : Receiving) (cmd : Cmd) (h : r.isOpen)
    (hp : pkt = some (r.conn, pred r.seq, cmd)) (hd : isData cmd.code) (hs : pred r.seq ≠ 0) :
    Move pkt r r [] [(r.conn, pred r.seq)]
  /-- The peer's router goes down. -/
  | down (r : Receiving) (seq : UInt16) (code : Int16) (h : r.isOpen)
    (hp : pkt = some (r.conn, seq, .rd code)) :
    Move pkt r { receiver := .unconnected, conn := succ r.conn, seq := 1 } [] [(r.conn, seq)]

end Receiving

namespace Peer

/-- An entry's side of the connection we opened. -/
def receiving (p : Peer) : Receiving :=
  { receiver := p.receiver, conn := p.connLocal, seq := p.seqRecv }

/-- What the Open-Reqs and RI-Acks of a move read back as. -/
def Reports (p : Peer) (acts : List Action) (opens : List UInt16)
    (acks : List (UInt16 × UInt16)) : Prop :=
  (sentOf isOpenReq p.addr acts).map Prod.fst = opens ∧
    (sentOf isAck p.addr acts).map (fun x => (x.1, x.2.1)) = acks

theorem Reports.of_none {p : Peer} {acts : List Action} (h1 : sentOf isOpenReq p.addr acts = [])
    (h2 : sentOf isAck p.addr acts = []) : p.Reports acts [] [] := by
  simp [Reports, h1, h2]

/-- Commands that neither open nor acknowledge report nothing. -/
theorem reports_sends (p : Peer) (conn seq : UInt16) {cmds : List Cmd}
    (h : ∀ cmd ∈ cmds, isOpenReq cmd.code = false ∧ isAck cmd.code = false) :
    p.Reports (cmds.map (p.send conn seq)) [] [] :=
  .of_none (p.sentOf_sends_nil conn seq fun cmd hcmd => (h cmd hcmd).1)
    (p.sentOf_sends_nil conn seq fun cmd hcmd => (h cmd hcmd).2)

theorem reports_send (p : Peer) (conn seq : UInt16) {cmd : Cmd}
    (h : isOpenReq cmd.code = false ∧ isAck cmd.code = false) :
    p.Reports [p.send conn seq cmd] [] [] :=
  p.reports_sends conn seq (List.forall_mem_singleton.2 h)

theorem reports_openReq (p : Peer) :
    p.Reports [p.send p.connLocal 0 (.openReq Cmd.ALL_SUI 1 [])] [p.connLocal] [] := by
  refine ⟨?_, ?_⟩
  · rw [sentOf_send, onWire_one rfl Cmd.parse_openReq]
    rfl
  · rw [sentOf_send_nil p _ _ rfl]
    rfl

theorem reports_riAck (p : Peer) (conn seq : UInt16) (szi : Bool) :
    p.Reports [p.send conn seq (.riAck szi)] [] [(conn, seq)] := by
  refine ⟨?_, ?_⟩
  · rw [sentOf_send_nil p _ _ rfl]
    rfl
  · rw [sentOf_send, onWire_one rfl (Cmd.parse_riAck szi)]
    rfl

theorem Reports.append {p : Peer} {a b : List Action} {o o' : List UInt16}
    {k k' : List (UInt16 × UInt16)} (ha : p.Reports a o k) (hb : p.Reports b o' k') :
    p.Reports (a ++ b) (o ++ o') (k ++ k') := by
  simp only [Reports, sentOf_append, List.map_append, ha.1, hb.1, ha.2, hb.2, and_self]

theorem Reports.nil (p : Peer) : p.Reports [] [] [] := ⟨rfl, rfl⟩

/-- A sequenced packet opens nothing and acknowledges nothing. -/
theorem reports_carries {p : Peer} {o : Outstanding} {c s : UInt16} {m : Cmd}
    (hc : o.Carries c s m) (hd : isData m.code) :
    p.Reports [.toPeer p.addr o.bytes] [] [] := by
  have h : isOpenReq m.code = false ∧ isAck m.code = false := by
    simp only [isData, isOpenReq, isAck, decide_eq_true_eq, decide_eq_false_iff_not] at hd ⊢
    grind
  exact .of_none (by rw [sentOf_carries hc, onWire_other h.1])
    (by rw [sentOf_carries hc, onWire_other h.2])

/-- One packet that carries a sequence number moves the connection we opened. -/
theorem sequenced_receiving {p : Peer} {conn : UInt16} (hon : p.onReceiver conn) (seq : UInt16)
    (cmd : Cmd) (hd : isData cmd.code) (last : Bool) (tables : Tables) (now : Instant)
    (apply : Tables × List RouteChange) (szi : Bool) :
    ∃ acks, Receiving.Move (some (conn, seq, cmd)) p.receiving
        (p.sequenced conn seq last tables now apply szi).peer.receiving [] acks ∧
      p.Reports (p.sequenced conn seq last tables now apply szi).out.acts [] acks := by
  simp only [onReceiver, receiverOpen, decide_eq_true_eq] at hon
  obtain ⟨rfl, hopen⟩ := hon
  have hopen' : p.receiving.isOpen := by simpa [Receiving.isOpen, receiving] using hopen
  unfold sequenced
  dsimp only
  have hseq : ({ p with lastHeard := now } : Peer).checkSeq seq = p.checkSeq seq := rfl
  rw [hseq]
  cases hc : p.checkSeq seq with
  | new =>
    have hs : seq = p.seqRecv ∧ p.seqRecv ≠ 0 := by
      unfold checkSeq at hc
      split_ifs at hc with h1 h2
      exact ⟨h2, h2 ▸ h1⟩
    obtain ⟨rfl, h0⟩ := hs
    refine ⟨_, ?_, p.reports_riAck p.connLocal p.seqRecv szi⟩
    split_ifs
    · exact .apply p.receiving cmd .connected hopen' rfl hd h0 (Or.inr rfl)
    · exact .apply p.receiving cmd p.receiver hopen' rfl hd h0 (Or.inl rfl)
  | dup =>
    have hs : seq = pred p.seqRecv ∧ pred p.seqRecv ≠ 0 := by
      unfold checkSeq at hc
      split_ifs at hc with h1 h2 h3
      exact ⟨h3, h3 ▸ h1⟩
    obtain ⟨rfl, h0⟩ := hs
    exact ⟨_, .repeated p.receiving cmd hopen' rfl hd h0,
      p.reports_riAck p.connLocal (pred p.seqRecv) true⟩
  | ahead => exact ⟨[], .close p.receiving hopen'.1, .nil p⟩
  | stale => exact ⟨[], .keep _, .nil p⟩

theorem openReq_receiving (p : Peer) (conn seq sui version : UInt16)
    (options : List (UInt8 × Bytes)) (now : Instant) :
    ∃ opens, Receiving.Move (some (conn, seq, .openReq sui version options)) p.receiving
        (p.openReq conn version options now).1.receiving opens [] ∧
      p.Reports (p.openReq conn version options now).2.acts opens [] := by
  have hrsp : ∀ rate, p.Reports [p.openRsp conn rate] [] [] := fun rate =>
    p.reports_send conn 0 ⟨rfl, rfl⟩
  unfold openReq
  dsimp only
  split_ifs with h1 h2 h3 h4 h5
  · exact ⟨[], .keep _, hrsp _⟩
  · exact ⟨[], .keep _, hrsp _⟩
  · exact ⟨[], .keep _, reports_carries (o := ⟨succ p.seqSend, _, [], now, 1⟩)
      (c := p.connRemote) (s := succ p.seqSend) (m := nullUpd) ⟨rfl, rfl, _, rfl⟩ rfl⟩
  · exact ⟨[], .keep _, .nil p⟩
  · refine ⟨[p.connLocal], .open p.receiving h5 fun x hx => ?_, (hrsp 1).append p.reports_openReq⟩
    obtain rfl := Option.mem_some_iff.1 hx
    exact ⟨sui, by rw [not_not.1 h1, not_not.1 h2]⟩
  · exact ⟨[], .keep _, hrsp 1⟩

theorem sendPage_receiving (p : Peer) (now : Instant) :
    (p.sendPage now).1.receiving = p.receiving ∧ p.Reports (p.sendPage now).2.acts [] [] := by
  cases hp : p.pages with
  | nil =>
    have : p.sendPage now = (p, .nil) := by simp only [sendPage, hp]
    rw [this]
    exact ⟨rfl, .nil p⟩
  | cons tuples rest =>
    simp only [sendPage, hp]
    exact ⟨rfl, reports_carries (o := ⟨succ p.seqSend, _, _, now, 1⟩)
      (c := p.connRemote) (s := succ p.seqSend) (m := .riRsp rest.isEmpty tuples)
      ⟨rfl, rfl, _, rfl⟩ rfl⟩

/-- Zones report nothing. -/
theorem reports_zonesFor (p : Peer) (szi : Bool) (nets : List UInt16) (tables : Tables) :
    p.Reports (p.zonesFor szi nets tables).acts [] [] := by
  unfold zonesFor
  dsimp only
  split_ifs
  · exact p.reports_sends _ _ fun cmd hcmd => by
      rw [code_ziPages nets tables cmd hcmd]
      exact ⟨rfl, rfl⟩
  · exact .nil p

theorem riAck_receiving (p : Peer) (seq : UInt16) (szi : Bool) (tables : Tables)
    (now : Instant) :
    (p.riAck seq szi tables now).1.receiving = p.receiving ∧
      p.Reports (p.riAck seq szi tables now).2.acts [] [] := by
  have hzi := fun nets => p.reports_zonesFor szi nets tables
  have h := p.riAck_acked seq szi tables now
  generalize p.riAck seq szi tables now = r at h ⊢
  cases h with
  | ignored => exact ⟨rfl, .nil p⟩
  | paged =>
    obtain ⟨hsame, hpage⟩ := sendPage_receiving { p with outstanding := none } now
    exact ⟨hsame, (hzi _).append hpage⟩
  | _ => exact ⟨rfl, hzi _⟩

/-- One routing packet moves the connection we opened. -/
theorem routing_receiving (p : Peer) (conn seq : UInt16) (cmd : Cmd) (tables : Tables)
    (now : Instant) :
    ∃ opens acks, Receiving.Move (some (conn, seq, cmd)) p.receiving
        (p.routing conn seq cmd tables now).peer.receiving opens acks ∧
      p.Reports (p.routing conn seq cmd tables now).out.acts opens acks := by
  have hans : ∀ cmds : List Cmd,
      (∀ cmd ∈ cmds, isOpenReq cmd.code = false ∧ isAck cmd.code = false) →
      p.Reports (cmds.map (p.send conn 0)) [] [] := fun cmds h => p.reports_sends conn 0 h
  have hopen : p.onReceiver conn → conn = p.connLocal ∧ p.receiving.isOpen := fun h => by
    simpa [onReceiver, receiverOpen, Receiving.isOpen, receiving] using h
  cases cmd with
  | openReq sui version options =>
    obtain ⟨opens, h⟩ := p.openReq_receiving conn seq sui version options now
    exact ⟨opens, [], h⟩
  | riReq sui =>
    simp only [routing]
    split_ifs
    · obtain ⟨h1, h2⟩ := sendPage_receiving { p with
        seqSend := 0, outstanding := none, pages := splitTuples tables.export } now
      refine ⟨[], [], ?_, h2⟩
      simp only [quiet, h1]
      exact .keep _
    · exact ⟨[], [], .keep _, .nil p⟩
  | riAck szi =>
    simp only [routing]
    split_ifs
    · obtain ⟨h1, h2⟩ := p.riAck_receiving seq szi tables now
      refine ⟨[], [], ?_, h2⟩
      simp only [quiet, h1]
      exact .keep _
    · exact ⟨[], [], .keep _, .nil p⟩
  | tickle =>
    simp only [routing]
    split_ifs
    · exact ⟨[], [], .keep _, hans [.tickleAck] (List.forall_mem_singleton.2 ⟨rfl, rfl⟩)⟩
    · exact ⟨[], [], .keep _, .nil p⟩
  | ziReq nets =>
    simp only [routing]
    split_ifs
    · refine ⟨[], [], .keep _, hans _ fun cmd hcmd => ?_⟩
      rw [code_ziPages nets tables cmd hcmd]
      exact ⟨rfl, rfl⟩
    · exact ⟨[], [], .keep _, .nil p⟩
  | gznReq zone =>
    simp only [routing]
    split_ifs
    · exact ⟨[], [], .keep _, hans [.gznRsp zone none] (List.forall_mem_singleton.2 ⟨rfl, rfl⟩)⟩
    · exact ⟨[], [], .keep _, .nil p⟩
  | gdzlReq start =>
    simp only [routing]
    split_ifs
    · exact ⟨[], [], .keep _, hans [.gdzlRsp true (-1) []]
        (List.forall_mem_singleton.2 ⟨rfl, rfl⟩)⟩
    · exact ⟨[], [], .keep _, .nil p⟩
  | openRsp flags rateOrErr options =>
    simp only [routing]
    split_ifs with h1 h2
    · have hne : p.receiving.receiver ≠ .unconnected := by simp [receiving, h1.2]
      exact ⟨[], [], .close p.receiving hne, .nil p⟩
    · exact ⟨[], [], .opened p.receiving h1.2, p.reports_send p.connLocal 0 ⟨rfl, rfl⟩⟩
    · exact ⟨[], [], .keep _, .nil p⟩
  | riRsp last tuples =>
    simp only [routing]
    split_ifs with hon
    · obtain ⟨acks, h⟩ := sequenced_receiving hon seq (.riRsp last tuples) rfl last tables
        now (p.riRsp tuples tables now) true
      exact ⟨[], acks, h⟩
    · exact ⟨[], [], .keep _, .nil p⟩
  | riUpd events =>
    simp only [routing]
    split_ifs with hon
    · obtain ⟨acks, h⟩ := sequenced_receiving hon seq (.riUpd events) rfl false tables now
        (p.riUpd events tables now) (events.any fun e => e.code = NA)
      exact ⟨[], acks, h⟩
    · exact ⟨[], [], .keep _, .nil p⟩
  | rd code =>
    simp only [routing]
    split_ifs with hon
    · obtain ⟨rfl, ho⟩ := hopen hon
      exact ⟨[], _, .down p.receiving seq code ho rfl, p.reports_riAck p.connLocal seq false⟩
    · exact ⟨[], [], .keep _, .nil p⟩
  | ziRsp extended zones =>
    simp only [routing]
    split_ifs <;> exact ⟨[], [], .keep _, .nil p⟩
  | tickleAck =>
    simp only [routing]
    split_ifs with h1
    · refine ⟨[], [], .tickle p.receiving .connected ?_ (Or.inl rfl), .nil p⟩
      simp [Receiving.isOpen, receiving, h1.2]
    · exact ⟨[], [], .keep _, .nil p⟩
  | gznRsp => exact ⟨[], [], .keep _, .nil p⟩
  | gdzlRsp => exact ⟨[], [], .keep _, .nil p⟩

theorem receiverTimers_receiving (p : Peer) (tables : Tables) (now : Instant) :
    ∃ opens, Receiving.Move none p.receiving (p.receiverTimers tables now).peer.receiving
        opens [] ∧
      p.Reports (p.receiverTimers tables now).out.acts opens [] := by
  have hclose : p.receiver ≠ .unconnected →
      Receiving.Move none p.receiving p.closeReceiver.receiving [] [] := .close p.receiving
  have h := p.receiverTimers_timed tables now
  generalize p.receiverTimers tables now = r at h ⊢
  cases h with
  | idle => exact ⟨[], .keep _, .nil p⟩
  | unanswered hr =>
    exact ⟨[], hclose (by rcases hr with hr | hr <;> simp [hr]), .nil p⟩
  | reopened hr => exact ⟨[p.connLocal], .reopen p.receiving hr, p.reports_openReq⟩
  | asked | retested => exact ⟨[], .keep _, p.reports_send p.connLocal 0 ⟨rfl, rfl⟩⟩
  | tested hr =>
    exact ⟨[], .tickle p.receiving .waitTickleAck (by simp [Receiving.isOpen, receiving, hr])
      (Or.inr rfl), p.reports_send p.connLocal 0 ⟨rfl, rfl⟩⟩
  | lost hr => exact ⟨[], hclose (by simp [hr]), .nil p⟩
  | probed hr =>
    exact ⟨[], hclose (by simp [hr]),
      reports_carries (o := ⟨succ p.seqSend, _, [], now, 1⟩) (c := p.connRemote)
        (s := succ p.seqSend) ⟨rfl, rfl, _, rfl⟩ rfl⟩

theorem senderTimers_receiving {p : Peer} (hok : p.sending.Ok) (now : Instant) :
    (p.senderTimers now).1.receiving = p.receiving ∧
      p.Reports (p.senderTimers now).2.acts [] [] := by
  have h := p.senderTimers_timed now
  generalize p.senderTimers now = r at h ⊢
  cases h with
  | waiting | idle | spent => exact ⟨rfl, .nil p⟩
  | @again o ho =>
    obtain ⟨cmd, hd, hc⟩ := hok o ho
    exact ⟨rfl, reports_carries hc hd⟩
  | updated ho hs hp hdue hr =>
    rw [hr]
    exact ⟨rfl, reports_carries (o := ⟨succ p.seqSend, _, _, now, 1⟩) (c := p.connRemote)
      (s := succ p.seqSend) (m := .riUpd p.pending) ⟨rfl, rfl, _, rfl⟩ rfl⟩

/-- What follows the receiver's timers in a tick leaves the connection we opened alone. -/
theorem tick_tail_receiving {p q : Peer} (hq : q.addr = p.addr) (hok : q.sending.Ok) (zi : Bool)
    (tables : Tables) (now : Instant) :
    (q.senderTimers now).1.receiving = q.receiving ∧
      p.Reports ((q.senderTimers now).2.acts ++
        (if zi then (q.senderTimers now).1.ziRerequest tables else .nil).acts) [] [] := by
  obtain ⟨h1, h2⟩ := senderTimers_receiving hok now
  rw [Reports, hq] at h2
  refine ⟨h1, Reports.append (p := p) h2 ?_⟩
  split_ifs
  · rw [Reports, ← (senderTimers_addr _ now).trans hq, ziRerequest_acts isOpenReq rfl,
      ziRerequest_acts isAck rfl]
    exact ⟨rfl, rfl⟩
  · exact .nil p

/-- One peer's share of a tick moves the connection we opened. -/
theorem timers_receiving {p : Peer} (hok : p.sending.Ok) (scan zi : Bool) (tables : Tables)
    (now : Instant) :
    ∃ opens, Receiving.Move none p.receiving (p.timed scan now).receiving opens [] ∧
      p.Reports (p.timers scan zi tables now).out.acts opens [] := by
  have hreport : ∀ q was out opens, p.Reports out.acts opens [] →
      p.Reports (report q was out).acts opens [] := fun q was out opens h => by
    simpa [Reports] using h
  rw [← timers_peer p scan zi tables now]
  rcases p.scan_cases scan now with hscan | ⟨-, hu, hscan⟩
  swap
  · -- A connection opened in this tick has nothing due on it yet.
    have hidle : (p.open now).1.receiverTimers tables now =
        { peer := (p.open now).1, tables := tables, out := .nil } := by
      simp [receiverTimers, «open», since, RETRY, fromSecs]
    obtain ⟨h1, h2⟩ := tick_tail_receiving (p := p) (q := (p.open now).1) rfl hok zi tables now
    simp only [timers, hscan, hidle, h1]
    refine ⟨[p.connLocal], .open p.receiving hu (by simp), hreport _ _ _ _ ?_⟩
    have hacts : (p.open now).2.acts = [p.send p.connLocal 0 (.openReq Cmd.ALL_SUI 1 [])] := rfl
    simpa [List.append_assoc, hacts] using p.reports_openReq.append h2
  · obtain ⟨opens, hm, hrep⟩ := p.receiverTimers_receiving tables now
    have hbok : (p.receiverTimers tables now).peer.sending.Ok := by
      rcases p.receiverTimers_sending tables now with ⟨h1, -⟩ | ⟨o, -, -, hc, h1, -⟩
      · rwa [h1]
      · rw [h1]
        exact Sending.Ok.posted rfl hc .waitRiUpdAck
    obtain ⟨h1, h2⟩ := tick_tail_receiving (p := p) (receiverTimers_addr p tables now) hbok zi
      (p.receiverTimers tables now).tables now
    simp only [timers, hscan, h1]
    refine ⟨opens, hm, hreport _ _ _ _ ?_⟩
    simpa [List.append_assoc] using hrep.append h2

theorem pinged_receiving (p : Peer) (now : Instant) :
    Receiving.Move none p.receiving (p.pinged now).receiving [] [] := by
  unfold pinged
  cases hr : p.receiver with
  | connected =>
    exact .tickle p.receiving .waitTickleAck (by simp [Receiving.isOpen, receiving, hr])
      (Or.inr rfl)
  | waitTickleAck =>
    exact .tickle p.receiving .waitTickleAck (by simp [Receiving.isOpen, receiving, hr])
      (Or.inr rfl)
  | _ => exact .keep _

theorem pinged_sending (p : Peer) (now : Instant) : (p.pinged now).sending = p.sending := by
  unfold pinged
  cases p.receiver <;> rfl

theorem shut_receiving (p : Peer) (now : Instant) :
    (p.shut now).receiving = p.receiving ∧ p.Reports (p.shutActs now) [] [] := by
  unfold shut shutActs
  split_ifs
  · exact ⟨rfl, .nil p⟩
  · exact ⟨rfl, reports_carries (o := ⟨succ p.seqSend, _, [], now, 1⟩) (c := p.connRemote)
      (s := succ p.seqSend) (m := .rd (-1)) ⟨rfl, rfl, _, rfl⟩ rfl⟩

/-- Queued events concern the other connection. -/
theorem hear_receiving (p : Peer) (evs : List EventTuple) :
    (p.hear evs).receiving = p.receiving := by
  unfold hear
  split_ifs <;> rfl

end Peer

end AppleTalk
