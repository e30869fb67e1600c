import AppleTalk.Properties.KeepAlive
import AppleTalk.Properties.Receipts

/-!
# What an RI-Ack vouches for

A receiver applies the packets of a connection under the numbers 1, 2, 3 and so on, and an ack of
one vouches for it. A number one before the expected one is taken for a repetition, on a new
connection too, where nothing was applied yet.
-/

namespace AppleTalk

/-- The first numbers of a connection: 65535 is followed by 1. -/
def numbers (n : ℕ) : List UInt16 := (List.range n).map fun k => succ^[k] 1

@[simp] theorem length_numbers (n : ℕ) : (numbers n).length = n := by simp [numbers]

theorem numbers_succ (n : ℕ) : numbers (n + 1) = numbers n ++ [succ^[n] 1] := by
  simp [numbers, List.range_succ]

theorem iterate_succ_ne_zero (n : ℕ) : succ^[n] 1 ≠ 0 := by
  cases n with
  | zero => decide
  | succ n =>
    rw [Function.iterate_succ_apply']
    exact succ_ne_zero _

/-- Before a number comes the one that was applied last. -/
theorem pred_mem_numbers {n : ℕ} (h : n ≠ 0) : pred (succ^[n] 1) ∈ numbers n := by
  obtain ⟨n, rfl⟩ := Nat.exists_eq_succ_of_ne_zero h
  rw [Function.iterate_succ_apply', Receiving.pred_succ (iterate_succ_ne_zero n), numbers_succ]
  exact List.mem_append_right _ (List.mem_singleton_self _)

namespace Receiving

/-- The numbers applied on a connection: the first ones, and the next is the expected one. -/
structure Counts (r : Receiving) (log : List UInt16) : Prop where
  inOrder : log = numbers log.length
  fresh : ¬r.isOpen → log = []
  next : r.isOpen → r.seq = succ^[log.length] 1

/-- The connection's ID, from the Open-Req to the close. -/
def live (r : Receiving) : Option UInt16 := if r.receiver = .unconnected then none else some r.conn

/-- Nothing is applied: the connection is closed, or not open yet, or goes on where it was. -/
def Stays (r r' : Receiving) : Prop :=
  r'.receiver = .unconnected ∨ (¬r.isOpen ∧ (r'.isOpen → r'.seq = 1)) ∨
    r.isOpen ∧ r'.isOpen ∧ r'.seq = r.seq ∧ r'.conn = r.conn

variable {r r' : Receiving} {log : List UInt16}

theorem not_isOpen (h : r.receiver = .unconnected) : ¬r.isOpen := fun ho => ho.1 h

theorem live_of_isOpen (h : r.isOpen) : r.live = some r.conn := if_neg h.1

theorem counts_nil (h : r.isOpen → r.seq = 1) : r.Counts [] := ⟨rfl, fun _ => rfl, h⟩

/-- A log is kept for as long as the connection lives. -/
theorem Counts.stays (h : r.Counts log) (hs : r.Stays r') :
    r'.Counts (if r'.live = r.live then log else []) := by
  have hnil : ¬r.isOpen → (if r'.live = r.live then log else []) = [] := by
    intro hn
    rw [h.fresh hn, ite_self]
  rcases hs with hs | ⟨hn, h1⟩ | ⟨ho, ho', hseq, hconn⟩
  · have hlog : (if r'.live = r.live then log else []) = [] := by
      split_ifs with hl
      · refine h.fresh fun ho => ?_
        rw [live_of_isOpen ho, live, if_pos hs] at hl
        cases hl
      · rfl
    rw [hlog]
    exact counts_nil fun ho' => absurd ho' (not_isOpen hs)
  · rw [hnil hn]
    exact counts_nil h1
  · rw [live_of_isOpen ho, live_of_isOpen ho', hconn, if_pos rfl]
    exact ⟨h.inOrder, fun hn => absurd ho' hn, fun _ => hseq.trans (h.next ho)⟩

/-- The expected packet is applied. -/
theorem Counts.apply (h : r.Counts log) (ho : r.isOpen) (ho' : r'.isOpen)
    (hseq : r'.seq = succ r.seq) : r'.Counts (log ++ [r.seq]) := by
  have hlast := h.next ho
  refine ⟨?_, fun hn => absurd ho' hn, fun _ => ?_⟩
  · rw [List.length_append, List.length_singleton, numbers_succ, ← h.inOrder, ← hlast]
  · rw [hseq, hlast, List.length_append, List.length_singleton, Function.iterate_succ_apply']

theorem stays_self (r : Receiving) : r.Stays r := by
  by_cases h : r.isOpen
  · exact Or.inr (Or.inr ⟨h, h, rfl, rfl⟩)
  · exact Or.inr (Or.inl ⟨h, fun ho => absurd ho h⟩)

/-- A move that no sequenced packet makes applies nothing. -/
theorem Move.stays {pkt : Option (UInt16 × UInt16 × Cmd)} {opens : List UInt16}
    {acks : List (UInt16 × UInt16)} (h : Move pkt r r' opens acks)
    (hpkt : ∀ x, pkt = some x → isData x.2.2.code = false) : r.Stays r' := by
  cases h with
  | keep | reopen => exact stays_self _
  | tickle receiver hopen hr =>
    refine Or.inr (Or.inr ⟨hopen, ?_, rfl, rfl⟩)
    rcases hr with rfl | rfl <;> exact ⟨by simp, by simp⟩
  | «open» hr => exact Or.inr (Or.inl ⟨not_isOpen hr, fun _ => rfl⟩)
  | opened hr => exact Or.inr (Or.inl ⟨fun ho => ho.2 hr, fun _ => rfl⟩)
  | close | down => exact Or.inl rfl
  | apply cmd receiver hopen hp hd =>
    rw [hpkt _ hp] at hd
    cases hd
  | repeated cmd hopen hp hd => exact stays_self _

end Receiving

/-- The acks some actions send an address: the connection and the number of each. -/
def acksTo (ip : Ipv4Addr) (acts : List Action) : List (UInt16 × UInt16) :=
  (sentOf isAck ip acts).map fun x => (x.1, x.2.1)

namespace Peer

theorem isOpen_of_onReceiver {p : Peer} {conn : UInt16} (h : p.onReceiver conn) :
    conn = p.connLocal ∧ p.receiving.isOpen := by
  simpa [onReceiver, receiverOpen, Receiving.isOpen, receiving] using h

/-- An RI-Rsp or an RI-Upd of the connection we opened goes by its number, and any other is
discarded. -/
theorem routing_numbered (p : Peer) (conn seq : UInt16) {cmd : Cmd}
    (hc : cmd.code = 2 ∨ cmd.code = 4) (tables : Tables) (now : Instant) :
    (p.onReceiver conn → ∃ last apply szi, p.routing conn seq cmd tables now =
        p.sequenced conn seq last tables now apply szi) ∧
      (¬p.onReceiver conn →
        p.routing conn seq cmd tables now = { peer := p, tables := tables, out := .nil }) := by
  cases cmd with
  | riRsp last tuples =>
    unfold routing
    dsimp only
    exact ⟨fun h => ⟨_, _, _, if_pos h⟩, fun h => if_neg h⟩
  | riUpd events =>
    unfold routing
    dsimp only
    exact ⟨fun h => ⟨_, _, _, if_pos h⟩, fun h => if_neg h⟩
  | _ => simp [Cmd.code] at hc

/-- What a packet that is applied leaves of the connection, and its ack. -/
theorem routing_applies {p : Peer} {conn seq : UInt16} {cmd : Cmd} (h : p.applies conn seq cmd)
    (tables : Tables) (now : Instant) :
    let q := (p.routing conn seq cmd tables now).peer
    p.receiving.isOpen ∧ conn = p.connLocal ∧ seq = p.seqRecv ∧ q.receiving.isOpen ∧
      q.seqRecv = succ p.seqRecv ∧ q.connLocal = p.connLocal ∧
      acksTo p.addr (p.routing conn seq cmd tables now).out.acts = [(conn, seq)] := by
  obtain ⟨hon, hnew, hc⟩ := of_decide_eq_true h
  obtain ⟨rfl, hopen⟩ := isOpen_of_onReceiver hon
  obtain ⟨last, apply, szi, he⟩ := (p.routing_numbered p.connLocal seq hc tables now).1 hon
  have hseq : seq = p.seqRecv := by
    unfold checkSeq at hnew
    split_ifs at hnew with h1 h2
    exact h2
  have hack := (p.reports_riAck p.connLocal seq szi).2
  rw [he]
  unfold sequenced
  dsimp only
  rw [show ({ p with lastHeard := now } : Peer).checkSeq seq = .new from hnew]
  refine ⟨hopen, rfl, hseq, ?_, ?_, ?_, hack⟩
  · dsimp only
    split_ifs
    · exact ⟨by simp [receiving], by simp [receiving]⟩
    · exact hopen
  · dsimp only
    rw [← hseq]
    split_ifs <;> rfl
  · dsimp only
    split_ifs <;> rfl

/-- What an RI-Rsp or RI-Upd that is not applied leaves of the connection: a repetition is
acknowledged. -/
theorem routing_refuses {p : Peer} {conn seq : UInt16} {cmd : Cmd}
    (hc : cmd.code = 2 ∨ cmd.code = 4) (h : p.applies conn seq cmd = false) (tables : Tables)
    (now : Instant) :
    p.receiving.Stays (p.routing conn seq cmd tables now).peer.receiving ∧
      acksTo p.addr (p.routing conn seq cmd tables now).out.acts =
        if p.onReceiver conn ∧ p.checkSeq seq = .dup then [(conn, seq)] else [] := by
  by_cases hon : p.onReceiver conn
  · obtain ⟨last, apply, szi, he⟩ := (p.routing_numbered conn seq hc tables now).1 hon
    rw [he]
    unfold sequenced
    dsimp only
    rw [show ({ p with lastHeard := now } : Peer).checkSeq seq = p.checkSeq seq from rfl]
    cases hk : p.checkSeq seq with
    | new => simp [applies, hon, hk, hc] at h
    | dup =>
      exact ⟨Receiving.stays_self p.receiving,
        (p.reports_riAck conn seq true).2.trans (if_pos ⟨hon, rfl⟩).symm⟩
    | ahead => exact ⟨Or.inl rfl, (if_neg (by simp)).symm⟩
    | stale =>
      exact ⟨Receiving.stays_self p.receiving, (if_neg (by simp)).symm⟩
  · rw [(p.routing_numbered conn seq hc tables now).2 hon, if_neg fun h => hon h.1]
    exact ⟨Receiving.stays_self p.receiving, rfl⟩

/-- Any other packet applies nothing. -/
theorem routing_stays (p : Peer) (conn seq : UInt16) {cmd : Cmd}
    (hc : ¬(cmd.code = 2 ∨ cmd.code = 4)) (tables : Tables) (now : Instant) :
    p.receiving.Stays (p.routing conn seq cmd tables now).peer.receiving := by
  by_cases hrd : cmd.code = 5
  · cases cmd with
    | rd code =>
      unfold routing
      dsimp only
      split_ifs
      · exact Or.inl rfl
      · exact Receiving.stays_self p.receiving
    | _ => simp [Cmd.code] at hrd
  · obtain ⟨opens, acks, hm, -⟩ := p.routing_receiving conn seq cmd tables now
    refine hm.stays fun x hx => ?_
    obtain rfl := Option.some.inj hx
    simp only [isData, decide_eq_false_iff_not]
    tauto

/-- The timers, the pings and the shutdown apply nothing. -/
theorem Change.stays {ip : Ipv4Addr} {c : Peers.Call × Instant} {p q : Peer} (h : Change ip c p q)
    (hok : p.sending.Ok)
    (hc : ∀ bytes tables dh conn seq cmd, c.1 = .packet ip bytes tables →
      Aurp.parse bytes = some (.routing dh conn seq cmd) → ¬(cmd.code = 2 ∨ cmd.code = 4)) :
    p.receiving.Stays q.receiving := by
  cases h with
  | kept | named => exact Receiving.stays_self p.receiving
  | taken => exact Receiving.stays_self p.receiving
  | received bytes tables pkt hp hpkt =>
    cases pkt with
    | data dh ddp => exact Receiving.stays_self p.receiving
    | routing dh conn seq cmd =>
      exact (p.named dh ip).routing_stays conn seq (hc bytes tables dh conn seq cmd hp hpkt) tables
        c.2
  | timed scan =>
    obtain ⟨opens, hm, -⟩ := timers_receiving hok scan false .new c.2
    exact hm.stays fun x hx => (by cases hx)
  | heard evs =>
    rw [p.hear_receiving]
    exact Receiving.stays_self p.receiving
  | pinged => exact (p.pinged_receiving c.2).stays fun x hx => (by cases hx)
  | shut _ =>
    rw [(p.shut_receiving c.2).1]
    exact Receiving.stays_self p.receiving

end Peer

namespace Peers

/-! ### The log of a connection -/

/-- The RI-Rsp or RI-Upd from an address that a call brings. -/
def brings (ip : Ipv4Addr) (c : Call × Instant) : Option (UInt16 × UInt16 × Cmd) :=
  match c.1 with
  | .packet «from» bytes _ =>
    ((CoreIn.packet «from» bytes).routing ip).filter fun x => x.2.2.code = 2 ∨ x.2.2.code = 4
  | _ => none

/-- The number of the RI-Rsp or RI-Upd from an address whose contents a call applies. -/
def applies (s : Peers) (ip : Ipv4Addr) (c : Call × Instant) : Option UInt16 :=
  match s.entry ip, brings ip c with
  | some p, some (conn, seq, cmd) => if p.applies conn seq cmd then some seq else none
  | _, _ => none

/-- The connection we opened to an address, from its Open-Req to its close. -/
def connection (s : Peers) (ip : Ipv4Addr) : Option UInt16 :=
  (s.entry ip).bind fun p => p.receiving.live

/-- One call, with the numbers applied so far on the connection. -/
def book (ip : Ipv4Addr) (x : Peers × List UInt16) (c : Call × Instant) : Peers × List UInt16 :=
  (x.1.next c,
    if (x.1.next c).connection ip = x.1.connection ip then x.2 ++ (x.1.applies ip c).toList else [])

/-- The log of an address is that of its connection. -/
structure Booked (ip : Ipv4Addr) (x : Peers × List UInt16) : Prop where
  gone : x.1.entry ip = none → x.2 = []
  counts : ∀ p, x.1.entry ip = some p → p.receiving.Counts x.2

/-- What a call brings is a routing packet from the address. -/
theorem brings_eq_some {ip : Ipv4Addr} {c : Call × Instant} {conn seq : UInt16} {cmd : Cmd} :
    brings ip c = some (conn, seq, cmd) ↔ ∃ bytes tables dh, c.1 = .packet ip bytes tables ∧
      Aurp.parse bytes = some (.routing dh conn seq cmd) ∧ (cmd.code = 2 ∨ cmd.code = 4) := by
  obtain ⟨c, now⟩ := c
  unfold brings
  cases c with
  | packet «from» bytes tables =>
    dsimp only
    rw [Option.filter_eq_some_iff]
    simp only [CoreIn.routing]
    constructor
    · rintro ⟨h, hc⟩
      split_ifs at h with hip
      subst hip
      split at h
      · rename_i dh conn' seq' cmd' hpkt
        obtain ⟨rfl, rfl, rfl⟩ := (Prod.mk.inj (Option.some.inj h)).imp_right Prod.mk.inj
        exact ⟨bytes, tables, dh, rfl, hpkt, of_decide_eq_true hc⟩
      · cases h
    · rintro ⟨bytes', tables', dh, he, hpkt, hc⟩
      cases he
      rw [if_pos rfl, hpkt]
      exact ⟨rfl, decide_eq_true hc⟩
  | _ => simp

/-- A routing packet is handed to the entry of its address, and what is sent back is its answer. -/
theorem call_routing {s : Peers} (hs : s.Reached) {ip : Ipv4Addr} {p : Peer}
    (he : s.entry ip = some p) {bytes : Bytes} {dh : DomainHeader} {conn seq : UInt16} {cmd : Cmd}
    (hpkt : Aurp.parse bytes = some (.routing dh conn seq cmd)) (tables : Tables) (now : Instant) :
    (s.next (.packet ip bytes tables, now)).entry ip =
        some ((p.named dh ip).routing conn seq cmd tables now).peer ∧
      sentTo ip (s.call (.packet ip bytes tables, now)).2 =
        sentTo ip ((p.named dh ip).routing conn seq cmd tables now).out.acts := by
  have hf : Core.Filed ⟨tables, s⟩ := hs.addr
  have hrec : Core.recipient ⟨tables, s⟩ ip now = some p := by
    unfold Core.recipient
    rw [show Core.entry ⟨tables, s⟩ ip = some p from he]
  constructor
  · exact entry_received hpkt he tables now
  · refine (Core.sentTo_packet hf ip ip bytes now).trans ?_
    unfold Core.subject
    dsimp only
    rw [if_pos ⟨rfl, by rw [hpkt]; rfl⟩, hrec, hpkt]
    exact if_pos rfl

/-- An RI-Rsp or RI-Upd from an address that has no entry is not acknowledged, and opens
nothing. -/
theorem call_stranger {s : Peers} (hs : s.Reached) {ip : Ipv4Addr} {c : Call × Instant}
    {conn seq : UInt16} {cmd : Cmd} (h : brings ip c = some (conn, seq, cmd))
    (he : s.entry ip = none) :
    acksTo ip (s.call c).2 = [] ∧
      ∀ q, (s.next c).entry ip = some q → q.receiver = .unconnected := by
  obtain ⟨c, now⟩ := c
  obtain ⟨bytes, tables, dh, rfl, hpkt, hc⟩ := brings_eq_some.1 h
  have hf : Core.Filed ⟨tables, s⟩ := hs.addr
  have hignored : ∀ p : Peer, p.receiver = .unconnected →
      (p.named dh ip).routing conn seq cmd tables now =
        { peer := p.named dh ip, tables := tables, out := .nil } := fun p hp =>
    ((p.named dh ip).routing_numbered conn seq hc tables now).2
      (by simp [Peer.onReceiver, Peer.receiverOpen, Peer.named, hp])
  constructor
  · rw [acksTo, sentOf, show (s.call (.packet ip bytes tables, now)).2 =
      (Core.step ⟨tables, s⟩ (.packet ip bytes, now)).2 from rfl, Core.sentTo_packet hf]
    cases hsub : Core.subject ⟨tables, s⟩ (.packet ip bytes, now) ip with
    | none => rfl
    | some p =>
      have hnew : p.receiver = .unconnected := by
        rcases Core.subject_new hsub with hp | ⟨-, configured, rfl⟩
        · exact absurd (he.symm.trans hp) (by simp)
        · rfl
      rw [hpkt]
      dsimp only
      rw [if_pos rfl, hignored p hnew]
      rfl
  · intro q hq
    obtain ⟨p, hp, rfl⟩ := entry_packet hpkt hq
    have hnew : p.receiver = .unconnected := by
      rcases hp with hp | ⟨hp, -⟩
      · exact absurd (he.symm.trans hp) (by simp)
      · exact hp
    show ((p.named dh ip).routing conn seq cmd tables now).peer.receiver = .unconnected
    rw [hignored p hnew]
    exact hnew

/-- What a call does to the log of an address: it applies nothing, or the expected packet. -/
theorem log_step {s : Peers} (hs : s.Reached) {ip : Ipv4Addr} {c : Call × Instant} {q : Peer}
    (hq : (s.next c).entry ip = some q) :
    (∃ p, (s.entry ip = some p ∨ s.entry ip = none ∧ p.receiver = .unconnected) ∧
        p.receiving.Stays q.receiving ∧ s.applies ip c = none) ∨
      ∃ p, s.entry ip = some p ∧ p.receiving.isOpen ∧ q.receiving.isOpen ∧
        q.seqRecv = succ p.seqRecv ∧ q.connLocal = p.connLocal ∧
        s.applies ip c = some p.seqRecv := by
  cases hb : brings ip c with
  | none =>
    obtain ⟨p, hp, hchange⟩ := entry_next hq
    have hok : p.sending.Ok := by
      rcases hp with hp | ⟨-, configured, rfl⟩
      · exact hs.ok ip p hp
      · exact Sending.Ok.none rfl
    refine Or.inl ⟨p, hp.imp_right fun ⟨he, configured, h⟩ => ⟨he, h ▸ rfl⟩, ?_, ?_⟩
    · refine hchange.stays hok fun bytes tables dh conn seq cmd hcall hpkt hc => ?_
      rw [brings_eq_some.2 ⟨bytes, tables, dh, hcall, hpkt, hc⟩] at hb
      cases hb
    · unfold applies
      rw [hb]
      cases s.entry ip <;> rfl
  | some x =>
    obtain ⟨conn, seq, cmd⟩ := x
    cases he : s.entry ip with
    | none =>
      refine Or.inl ⟨Peer.new ip none s.nextConn s.local c.2, Or.inr ⟨rfl, rfl⟩,
        Or.inl ((call_stranger hs hb he).2 q hq), ?_⟩
      unfold applies
      rw [he]
    | some p =>
      obtain ⟨bytes, tables, dh, hcall, hpkt, hc⟩ := brings_eq_some.1 hb
      obtain ⟨c, now⟩ := c
      dsimp only at hcall
      subst hcall
      obtain ⟨hentry, -⟩ := call_routing hs he hpkt tables now
      obtain rfl := Option.some.inj (hentry.symm.trans hq)
      have happ : s.applies ip (.packet ip bytes tables, now) =
          if p.applies conn seq cmd then some seq else none := by
        unfold applies
        rw [he, hb]
      cases ha : p.applies conn seq cmd with
      | true =>
        obtain ⟨ho, -, rfl, ho', hseq, hconn, -⟩ :=
          Peer.routing_applies (p := p.named dh ip) ha tables now
        rw [happ, ha]
        exact Or.inr ⟨p, rfl, ho, ho', hseq, hconn, rfl⟩
      | false =>
        obtain ⟨hstays, -⟩ := Peer.routing_refuses (p := p.named dh ip) hc ha tables now
        rw [happ, ha]
        exact Or.inl ⟨p, Or.inl rfl, hstays, rfl⟩

/-- What is applied is applied by an entry that stays. -/
theorem applies_none {s : Peers} (hs : s.Reached) {ip : Ipv4Addr} {c : Call × Instant}
    (h : (s.next c).entry ip = none) : s.applies ip c = none := by
  unfold applies
  cases he : s.entry ip with
  | none => rfl
  | some p =>
    cases hb : brings ip c with
    | none => rfl
    | some x =>
      obtain ⟨bytes, tables, dh, hcall, hpkt, -⟩ := brings_eq_some.1 hb
      obtain ⟨c, now⟩ := c
      dsimp only at hcall
      subst hcall
      rw [(call_routing hs he hpkt tables now).1] at h
      cases h

theorem Booked.next {ip : Ipv4Addr} {x : Peers × List UInt16} (h : Booked ip x)
    (hs : x.1.Reached) (c : Call × Instant) : Booked ip (book ip x c) := by
  obtain ⟨s, log⟩ := x
  constructor
  · intro he
    have he : (s.next c).entry ip = none := he
    unfold book
    dsimp only
    rw [applies_none hs he, Option.toList_none, List.append_nil, connection, he, Option.bind_none]
    split_ifs with hl
    · cases hp : s.entry ip with
      | none => exact h.gone hp
      | some p =>
        refine (h.counts p hp).fresh fun ho => ?_
        rw [connection, hp, Option.bind_some, Receiving.live_of_isOpen ho] at hl
        cases hl
    · rfl
  · intro q hq
    have hq : (s.next c).entry ip = some q := hq
    have hlive : (s.next c).connection ip = q.receiving.live := by
      rw [connection, hq, Option.bind_some]
    unfold book
    dsimp only
    rw [hlive]
    rcases log_step hs hq with ⟨p, hp, hstays, happ⟩ | ⟨p, hp, ho, ho', hseq, hconn, happ⟩
    · have hcounts : p.receiving.Counts log ∧ s.connection ip = p.receiving.live := by
        rcases hp with hp | ⟨hp, hu⟩
        · exact ⟨h.counts p hp, by rw [connection, hp, Option.bind_some]⟩
        · have hlog : log = [] := h.gone hp
          have hu : p.receiving.receiver = .unconnected := hu
          rw [hlog]
          refine ⟨Receiving.counts_nil fun ho => absurd ho (Receiving.not_isOpen hu), ?_⟩
          rw [connection, hp, Option.bind_none, Receiving.live, if_pos hu]
      rw [happ, Option.toList_none, List.append_nil, hcounts.2]
      exact hcounts.1.stays hstays
    · have hsame : q.receiving.live = s.connection ip := by
        rw [connection, hp, Option.bind_some, Receiving.live_of_isOpen ho,
          Receiving.live_of_isOpen ho']
        exact congrArg some hconn
      rw [if_pos hsame, happ]
      exact (h.counts p hp).apply ho ho' hseq

/-- The peers and the log of an address after a run. -/
def booked (ip : Ipv4Addr) (s : Peers) (cs : List (Call × Instant)) : Peers × List UInt16 :=
  Machine.run (book ip) (s, []) cs

theorem booked_fst (ip : Ipv4Addr) (s : Peers) (cs : List (Call × Instant)) :
    (booked ip s cs).1 = s.after cs :=
  Machine.run_map (f := Prod.fst) (fun _ _ => rfl) (s, []) cs

/-- In every run the log of an address is that of its connection. -/
theorem booked_run («local» : Di) (openPeering : Bool) (configured : List Str) (nanos : UInt16)
    (start : Instant) (ip : Ipv4Addr) (cs : List (Call × Instant)) :
    let x := booked ip (new «local» openPeering configured nanos start) cs
    Booked ip x ∧ x.1.Reached := by
  refine Machine.run_invariant (I := fun x : Peers × List UInt16 => Booked ip x ∧ x.1.Reached)
    (fun x c h => ⟨h.1.next h.2 c, h.2.next c⟩) ⟨⟨fun _ => rfl, fun p hp => ?_⟩, ?_⟩ cs
  · cases hp
  · exact ⟨«local», openPeering, configured, nanos, start, [], rfl⟩

/-! ### What an ack vouches for -/

/-- The packets applied on the connection are numbered 1, 2, 3 and so on, and every ack of an
RI-Rsp or RI-Upd that the call brings names, on this connection, one that was applied on it. -/
def Honest (ip : Ipv4Addr) (x : Peers × List UInt16) (c : Call × Instant) : Prop :=
  let log := x.2 ++ (x.1.applies ip c).toList
  log = numbers log.length ∧
    ∀ pkt, brings ip c = some pkt → ∀ a ∈ acksTo ip (x.1.call c).2,
      x.1.connection ip = some a.1 ∧ a.2 ∈ log

/-- The call brings a packet numbered 65535, on the open connection, before any was applied. -/
def BringsLast (ip : Ipv4Addr) (x : Peers × List UInt16) (c : Call × Instant) : Prop :=
  x.2 = [] ∧ ∃ p conn cmd, x.1.entry ip = some p ∧ p.onReceiver conn ∧
    brings ip c = some (conn, 65535, cmd)

/-- A repetition on a new connection is acknowledged though it was never applied. -/
theorem BringsLast.not_honest {ip : Ipv4Addr} {x : Peers × List UInt16} {c : Call × Instant}
    (h : BringsLast ip x c) (hx : Booked ip x) (hs : x.1.Reached) : ¬Honest ip x c := by
  obtain ⟨s, log⟩ := x
  obtain ⟨rfl, p, conn, cmd, hp, hon, hb⟩ := h
  obtain ⟨bytes, tables, dh, hcall, hpkt, hc⟩ := brings_eq_some.1 hb
  obtain ⟨c, now⟩ := c
  dsimp only at hcall
  subst hcall
  have hfirst : p.seqRecv = 1 := (hx.counts p hp).next (Peer.isOpen_of_onReceiver hon).2
  have hdup : p.checkSeq 65535 = .dup := by
    unfold Peer.checkSeq
    rw [hfirst]
    decide
  have hrefused : p.applies conn 65535 cmd = false := by
    simp [Peer.applies, hdup]
  have hacks : acksTo ip (s.call (.packet ip bytes tables, now)).2 = [(conn, 65535)] := by
    have hrefuses := (Peer.routing_refuses (p := p.named dh ip) hc hrefused tables now).2
    rw [if_pos ⟨hon, hdup⟩, show (p.named dh ip).addr = ip from hs.addr ip p hp] at hrefuses
    rw [acksTo, sentOf, (call_routing hs hp hpkt tables now).2]
    exact hrefuses
  have happ : s.applies ip (.packet ip bytes tables, now) = none := by
    unfold applies
    rw [hp, hb]
    dsimp only
    rw [hrefused]
    rfl
  rintro ⟨-, hhonest⟩
  have hmem := (hhonest _ hb (conn, 65535) (hacks ▸ List.mem_singleton_self _)).2
  rw [happ] at hmem
  cases hmem

/-- Every other call is honest. -/
theorem honest_of_not_bringsLast {ip : Ipv4Addr} {x : Peers × List UInt16} {c : Call × Instant}
    (h : ¬BringsLast ip x c) (hx : Booked ip x) (hs : x.1.Reached) : Honest ip x c := by
  obtain ⟨s, log⟩ := x
  have horder : log = numbers log.length := by
    cases he : s.entry ip with
    | none =>
      have hlog : log = [] := hx.gone he
      rw [hlog]
      rfl
    | some p => exact (hx.counts p he).inOrder
  unfold Honest
  dsimp only
  cases hb : brings ip c with
  | none =>
    have happ : s.applies ip c = none := by
      unfold applies
      rw [hb]
      cases s.entry ip <;> rfl
    rw [happ, Option.toList_none, List.append_nil]
    exact ⟨horder, fun pkt hpkt => by cases hpkt⟩
  | some y =>
    obtain ⟨conn, seq, cmd⟩ := y
    cases he : s.entry ip with
    | none =>
      have happ : s.applies ip c = none := by
        unfold applies
        rw [he]
      rw [happ, Option.toList_none, List.append_nil, (call_stranger hs hb he).1]
      exact ⟨horder, fun pkt _ a ha => by cases ha⟩
    | some p =>
      obtain ⟨bytes, tables, dh, hcall, hpkt, hc⟩ := brings_eq_some.1 hb
      obtain ⟨c, now⟩ := c
      dsimp only at hcall
      subst hcall
      have hconn : p.receiving.isOpen → s.connection ip = some p.connLocal := by
        intro ho
        rw [connection, he, Option.bind_some, Receiving.live_of_isOpen ho]
        rfl
      have hacks : acksTo ip (s.call (.packet ip bytes tables, now)).2 =
          acksTo (p.named dh ip).addr
            ((p.named dh ip).routing conn seq cmd tables now).out.acts := by
        rw [acksTo, sentOf, (call_routing hs he hpkt tables now).2,
          show (p.named dh ip).addr = ip from hs.addr ip p he]
        rfl
      have happ : s.applies ip (.packet ip bytes tables, now) =
          if p.applies conn seq cmd then some seq else none := by
        unfold applies
        rw [he, hb]
      rw [hacks, happ]
      cases ha : p.applies conn seq cmd with
      | true =>
        obtain ⟨ho, hc1, hs1, ho', hs2, -, hack⟩ :=
          Peer.routing_applies (p := p.named dh ip) ha tables now
        have hcounts : ((p.named dh ip).routing conn seq cmd tables now).peer.receiving.Counts
            (log ++ [p.receiving.seq]) := (hx.counts p he).apply ho ho' hs2
        have hs1 : seq = p.receiving.seq := hs1
        rw [hack, if_pos rfl, Option.toList_some, hs1]
        refine ⟨hcounts.inOrder, fun pkt _ => List.forall_mem_singleton.2 ⟨?_, ?_⟩⟩
        · rw [hconn ho, hc1]
          rfl
        · exact List.mem_append_right _ (List.mem_singleton_self _)
      | false =>
        rw [(Peer.routing_refuses (p := p.named dh ip) hc ha tables now).2, if_neg (by simp),
          Option.toList_none, List.append_nil]
        refine ⟨horder, fun pkt _ a hmem => ?_⟩
        split_ifs at hmem with hdup
        · obtain ⟨hon, hdup⟩ := hdup
          obtain ⟨hc1, ho⟩ := Peer.isOpen_of_onReceiver hon
          obtain rfl := List.mem_singleton.1 hmem
          refine ⟨by rw [hconn ho, hc1]; rfl, ?_⟩
          have hpred : seq = pred p.seqRecv := by
            have hdup : p.checkSeq seq = .dup := hdup
            unfold Peer.checkSeq at hdup
            split_ifs at hdup with h0 h1 h2
            exact h2
          have hseq : p.seqRecv = succ^[log.length] 1 := (hx.counts p he).next ho
          -- Nothing comes before the first number of a new connection but the last one.
          have hsome : log.length ≠ 0 := by
            intro hn
            obtain rfl := List.length_eq_zero_iff.1 hn
            rw [hseq] at hpred
            refine h ⟨rfl, p, conn, cmd, he, hon, ?_⟩
            rw [hb, hpred]
            rfl
          show seq ∈ log
          rw [hpred, hseq, horder, length_numbers]
          exact pred_mem_numbers hsome
        · cases hmem

/-- **What an ack vouches for.** In every run, a call applies the packets of a connection under the
numbers 1, 2, 3 and so on and acknowledges what was applied on it, just in case it does not bring
the number 65535 to a connection on which nothing was applied. -/
theorem acks_honest_iff («local» : Di) (openPeering : Bool) (configured : List Str)
    (nanos : UInt16) (start : Instant) (ip : Ipv4Addr) (cs : List (Call × Instant))
    (c : Call × Instant) :
    let x := booked ip (new «local» openPeering configured nanos start) cs
    Honest ip x c ↔ ¬BringsLast ip x c := by
  obtain ⟨hx, hs⟩ := booked_run «local» openPeering configured nanos start ip cs
  exact ⟨fun hhonest hlast => hlast.not_honest hx hs hhonest,
    fun hlast => honest_of_not_bringsLast hlast hx hs⟩

/-- The stranger answers our Open-Req. -/
def accepts : List (Call × Instant) :=
  [opens 7, (.packet ⟨192, 0, 2, 1⟩ (peerPacket 1 0 (.openRsp 0 1 [])) .new, 0)]

/-- And its first page has the last number. -/
def sendsLast : Call × Instant :=
  (.packet ⟨192, 0, 2, 1⟩ (peerPacket 1 65535 (.riRsp true [])) .new, 0)

/-- A page that comes first, under the last number, is acknowledged and never applied. -/
theorem last_vouched_for :
    ¬∀ («local» : Di) (openPeering : Bool) (configured : List Str) (nanos : UInt16)
        (start : Instant) (ip : Ipv4Addr) (cs : List (Call × Instant)) (c : Call × Instant),
      Honest ip (booked ip (new «local» openPeering configured nanos start) cs) c := by
  intro h
  obtain ⟨hx, hs⟩ := booked_run (.ip ⟨192, 0, 2, 9⟩) true [] 0 0 ⟨192, 0, 2, 1⟩ accepts
  refine BringsLast.not_honest ⟨by decide +kernel, ?_⟩ hx hs
    (h _ _ _ _ _ _ _ sendsLast)
  have hp : ((booked ⟨192, 0, 2, 1⟩ (new (.ip ⟨192, 0, 2, 9⟩) true [] 0 0) accepts).1.entry
      ⟨192, 0, 2, 1⟩).any fun p => p.onReceiver 1 := by decide +kernel
  obtain ⟨p, hp, hon⟩ := (Option.any_eq_true _ _).1 hp
  exact ⟨p, 1, .riRsp true [], hp, hon, by decide +kernel⟩

end Peers

end AppleTalk
