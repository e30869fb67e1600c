import AppleTalk.Router.Aurp
import AppleTalk.Router.Local
import AppleTalk.Router.TableOps

/-!
# What packets and ticks do to the tables

The table operations behind every AURP packet, every tick of the peers and every datagram the
services take: each handler changes the tables by exactly its operations, and reports exactly
their changes.
-/

namespace AppleTalk

open TableOp

/-- The tuples of a command that say how far a network is: an RI-Rsp's, and those of additions and
changes of distance. -/
def Cmd.tuples : Cmd → List NetworkTuple
  | .riRsp _ tuples => tuples
  | .riUpd events => (events.filter fun e => e.code = NA ∨ e.code = NDC).map EventTuple.tuple
  | _ => []

theorem Cmd.mem_tuples_riUpd {events : List EventTuple} {e : EventTuple} (he : e ∈ events)
    (hc : e.code = NA ∨ e.code = NDC) : e.tuple ∈ (Cmd.riUpd events).tuples :=
  List.mem_map_of_mem (List.mem_filter.2 ⟨he, by simpa using hc⟩)

/-! ### The operations of one peer -/

namespace Peer

/-- The operations of one update event. -/
def applyOps (p : Peer) (e : EventTuple) (tables : Tables) (now : Instant) : List TableOp :=
  let target := Target.peer p.addr
  let start := e.tuple.range.1
  let known := tables.routes.any fun r => r.target = target ∧ r.range.1 = start
  if e.code = NA ∧ e.tuple.distance < 15 then [.learn e.tuple target Tables.NO_NEXT now]
  else if e.code = ND ∨ e.code = NRC then [.remove target start]
  else if e.code = NDC then
    if 15 ≤ e.tuple.distance then [.remove target start]
    else if !known then [.learn e.tuple target Tables.NO_NEXT now]
    else [.setDistance target start (e.tuple.distance + 1) now]
  else []

theorem apply_eq (p : Peer) (e : EventTuple) (tables : Tables) (now : Instant) :
    p.apply e tables now = applyAll tables (p.applyOps e tables now) := by
  unfold apply applyOps
  simp only
  split_ifs <;> simp [applyAll, Tables.each, TableOp.apply]

/-- The operations of an RI-Rsp. -/
def riRspOps (p : Peer) (tuples : List NetworkTuple) (now : Instant) : List TableOp :=
  tuples.flatMap fun x =>
    if x.distance < 15 then [.learn x (.peer p.addr) Tables.NO_NEXT now] else []

theorem riRsp_eq (p : Peer) (tuples : List NetworkTuple) (tables : Tables) (now : Instant) :
    p.riRsp tuples tables now = applyAll tables (p.riRspOps tuples now) := by
  rw [riRspOps, ← along_eq_flatMap _ tables]
  refine each_eq_applyAll (fun t x _ => ?_) tables
  split_ifs <;> simp [applyAll, Tables.each, TableOp.apply]

/-- The operations of an RI-Upd. -/
def riUpdOps (p : Peer) (events : List EventTuple) (tables : Tables) (now : Instant) :
    List TableOp :=
  along (fun t e => p.applyOps e t now) tables events

theorem riUpd_eq (p : Peer) (events : List EventTuple) (tables : Tables) (now : Instant) :
    p.riUpd events tables now = applyAll tables (p.riUpdOps events tables now) :=
  each_eq_applyAll (fun t e _ => p.apply_eq e t now) tables

/-- The operations of a ZI-Rsp: zone names for networks that are not on a cable of ours. -/
def ziRspOps (extended : Option UInt16) (zones : List (UInt16 × Str)) (tables : Tables) :
    List TableOp :=
  along (fun t (g : UInt16 × List Str) =>
    if (t.best g.1).any fun r => r.target.isPort then []
    else [.addZones g.1 g.2 (extended.map UInt16.toNat)]) tables (Tables.groupByNet zones)

theorem ziRsp_eq (extended : Option UInt16) (zones : List (UInt16 × Str)) (tables : Tables) :
    ziRsp extended zones tables = applyAll tables (ziRspOps extended zones tables) := by
  refine each_eq_applyAll (fun t g _ => ?_) tables
  split_ifs <;> simp [applyAll, Tables.each, TableOp.apply]

/-- The operations of one routing packet. -/
def routingOps (p : Peer) (conn seq : UInt16) (cmd : Cmd) (tables : Tables) (now : Instant) :
    List TableOp :=
  if p.onReceiver conn then
    match cmd with
    | .riRsp _ tuples => if p.checkSeq seq = .new then p.riRspOps tuples now else []
    | .riUpd events => if p.checkSeq seq = .new then p.riUpdOps events tables now else []
    | .rd _ => [.removeTarget (.peer p.addr)]
    | .ziRsp extended zones => ziRspOps extended zones tables
    | _ => []
  else []

theorem sequenced_eq (p : Peer) (conn seq : UInt16) (last : Bool) (tables : Tables)
    (now : Instant) (apply : Tables × List RouteChange) (szi : Bool) :
    ((p.sequenced conn seq last tables now apply szi).tables,
      (p.sequenced conn seq last tables now apply szi).out.chs) =
      if p.checkSeq seq = .new then apply else (tables, []) := by
  have hc : ({ p with lastHeard := now } : Peer).checkSeq seq = p.checkSeq seq := rfl
  unfold sequenced
  simp only [hc]
  cases p.checkSeq seq <;> rfl

theorem quiet_chs {tables : Tables} {r : Peer × Out} (h : r.2.chs = []) :
    ((quiet tables r).tables, (quiet tables r).out.chs) = applyAll tables [] := by
  simp only [quiet, h]
  rfl

theorem sendPage_chs (p : Peer) (now : Instant) : (p.sendPage now).2.chs = [] := by
  unfold sendPage
  split <;> rfl

theorem openReq_chs (p : Peer) (conn version : UInt16) (options : List (UInt8 × Bytes))
    (now : Instant) : (p.openReq conn version options now).2.chs = [] := by
  unfold openReq
  dsimp only
  split_ifs <;> rfl

/-- The ZI-Rsps an RI-Ack asks for. -/
def zonesFor (p : Peer) (szi : Bool) (nets : List UInt16) (tables : Tables) : Out :=
  { Out.nil with
    acts := if szi then (ziPages nets tables).map (p.send p.connRemote 0) else [] }

/-- What an RI-Ack makes of an entry, and what goes out. For the packet outstanding it ends the
wait, once there is no page left to send. -/
inductive Acked (p : Peer) (seq : UInt16) (szi : Bool) (tables : Tables) (now : Instant) :
    Peer × Out → Prop
  | ignored (h : ∀ o ∈ p.outstanding, o.seq ≠ seq) : p.Acked seq szi tables now (p, .nil)
  | paged {o : Outstanding} (ho : p.outstanding = some o) (hseq : o.seq = seq)
      (hs : p.sender = .waitRiRspAck) (hp : p.pages ≠ []) :
      p.Acked seq szi tables now ((({ p with outstanding := none } : Peer).sendPage now).1,
        p.zonesFor szi o.nets tables ++ (({ p with outstanding := none } : Peer).sendPage now).2)
  | idle {o : Outstanding} (ho : p.outstanding = some o) (hseq : o.seq = seq)
      (hs : p.sender = .waitRiRspAck ∧ p.pages = [] ∨ p.sender = .waitRiUpdAck) :
      p.Acked seq szi tables now
        ({ p with outstanding := none, sender := .connected, probing := false },
          p.zonesFor szi o.nets tables)
  | closed {o : Outstanding} (ho : p.outstanding = some o) (hseq : o.seq = seq)
      (hs : p.sender = .waitRdAck) :
      p.Acked seq szi tables now (({ p with outstanding := none } : Peer).closeSender,
        p.zonesFor szi o.nets tables)
  | unawaited {o : Outstanding} (ho : p.outstanding = some o) (hseq : o.seq = seq)
      (hs : p.sender = .connected ∨ p.sender = .unconnected) :
      p.Acked seq szi tables now ({ p with outstanding := none },
        p.zonesFor szi o.nets tables)

theorem riAck_acked (p : Peer) (seq : UInt16) (szi : Bool) (tables : Tables) (now : Instant) :
    p.Acked seq szi tables now (p.riAck seq szi tables now) := by
  unfold riAck
  cases ho : p.outstanding with
  | none => exact .ignored (by simp [ho])
  | some o =>
    dsimp only
    by_cases hseq : o.seq = seq
    swap
    · rw [if_pos hseq]
      exact .ignored (by simpa [ho] using hseq)
    rw [if_neg (not_not.2 hseq)]
    split
    · rename_i hs
      by_cases hp : p.pages = []
      · rw [if_neg (not_not.2 hp)]
        exact .idle ho hseq (Or.inl ⟨hs, hp⟩)
      · rw [if_pos hp]
        exact .paged ho hseq hs hp
    · exact .idle ho hseq (Or.inr ‹_›)
    · exact .closed ho hseq ‹_›
    · rename_i h1 h2 h3
      refine .unawaited ho hseq ?_
      cases hs : p.sender with
      | unconnected => exact Or.inr rfl
      | connected => exact Or.inl rfl
      | waitRiRspAck => exact absurd hs h1
      | waitRiUpdAck => exact absurd hs h2
      | waitRdAck => exact absurd hs h3

theorem riAck_chs (p : Peer) (seq : UInt16) (szi : Bool) (tables : Tables) (now : Instant) :
    (p.riAck seq szi tables now).2.chs = [] := by
  have h := p.riAck_acked seq szi tables now
  generalize p.riAck seq szi tables now = r at h ⊢
  cases h with
  | paged => exact sendPage_chs _ now
  | _ => rfl

/-- What a routing packet does to the tables is its operations. -/
theorem routing_eq (p : Peer) (conn seq : UInt16) (cmd : Cmd) (tables : Tables) (now : Instant) :
    ((p.routing conn seq cmd tables now).tables, (p.routing conn seq cmd tables now).out.chs) =
      applyAll tables (p.routingOps conn seq cmd tables now) := by
  cases cmd with
  | openReq _ version options =>
    simp only [routing, routingOps, ite_self]
    exact quiet_chs (openReq_chs p conn version options now)
  | riReq _ =>
    simp only [routing, routingOps, ite_self]
    split_ifs
    · exact quiet_chs (sendPage_chs _ now)
    · rfl
  | riAck szi =>
    simp only [routing, routingOps, ite_self]
    split_ifs
    · exact quiet_chs (riAck_chs p seq szi tables now)
    · rfl
  | riRsp last tuples =>
    simp only [routing, routingOps]
    split_ifs with h1 h2
    · rw [sequenced_eq, if_pos h2, riRsp_eq]
    · rw [sequenced_eq, if_neg h2]
      rfl
    · rfl
  | riUpd events =>
    simp only [routing, routingOps]
    split_ifs with h1 h2
    · rw [sequenced_eq, if_pos h2, riUpd_eq]
    · rw [sequenced_eq, if_neg h2]
      rfl
    · rfl
  | rd code =>
    simp only [routing, routingOps]
    split_ifs
    · simp [applyAll, Tables.each, TableOp.apply]
    · rfl
  | ziRsp extended zones =>
    simp only [routing, routingOps]
    split_ifs
    · simp only [ziRsp_eq]
    · rfl
  | openRsp =>
    simp only [routing, routingOps, ite_self]
    split_ifs <;> rfl
  | _ =>
    simp only [routing, routingOps, ite_self]
    first
      | rfl
      | (split_ifs <;> rfl)

/-- The connection we opened is given up now: its last tickle went unanswered. -/
def ticklesOut (p : Peer) (now : Instant) : Bool :=
  p.receiver = .waitTickleAck ∧ RETRY ≤ since now p.recvAt ∧ TICKLE_RETRIES ≤ p.recvTries

/-- The operations of one peer's share of a tick. -/
def timersOps (p : Peer) (now : Instant) : List TableOp :=
  if p.ticklesOut now then [.removeTarget (.peer p.addr)] else []

/-- The reconnect scan does nothing, or opens the connection of a configured peer that has none. -/
theorem scan_cases (p : Peer) (scan : Bool) (now : Instant) :
    (if scan then p.reconnect now else (p, .nil)) = (p, .nil) ∨
      p.configured ≠ none ∧ p.receiver = .unconnected ∧
        (if scan then p.reconnect now else (p, .nil)) = p.open now := by
  cases scan with
  | false => exact Or.inl rfl
  | true =>
    rw [if_pos rfl]
    unfold reconnect
    split_ifs with hnot hsoon
    · exact Or.inl rfl
    · exact Or.inl rfl
    · push Not at hnot
      exact Or.inr ⟨hnot.1, hnot.2, rfl⟩

theorem scan_addr (p : Peer) (scan : Bool) (now : Instant) :
    (if scan then p.reconnect now else (p, .nil)).1.addr = p.addr := by
  rcases p.scan_cases scan now with hscan | ⟨-, -, hscan⟩
  · rw [hscan]
  · rw [hscan]
    rfl

/-- What the timers of the connection the peer opened make of an entry, and what goes out. -/
inductive SenderTimed (p : Peer) (now : Instant) : Peer × Out → Prop
  | waiting {o : Outstanding} (ho : p.outstanding = some o) (hdue : since now o.at < RETRY) :
      p.SenderTimed now (p, .nil)
  | spent {o : Outstanding} (ho : p.outstanding = some o) (hdue : RETRY ≤ since now o.at)
      (htries : RETRIES ≤ o.tries) :
      p.SenderTimed now (p.closeSender, .because ("no ack after " ++ dec RETRIES ++ " tries"))
  | again {o : Outstanding} (ho : p.outstanding = some o) (hdue : RETRY ≤ since now o.at)
      (htries : o.tries < RETRIES) :
      p.SenderTimed now
        ({ p with outstanding := some { o with tries := o.tries + 1, «at» := now } },
          .act (.toPeer p.addr o.bytes))
  | updated (ho : p.outstanding = none) (hs : p.sender = .connected) (hp : p.pending ≠ [])
      (hdue : UPDATE_INTERVAL ≤ since now p.lastUpdate) {r : Peer × Out}
      (hr : r = ({ p with pending := [], lastUpdate := now } : Peer).sendSequenced
        (.riUpd p.pending) ((p.pending.filter fun e => e.code = NA).map fun e => e.tuple.range.1)
        now) :
      p.SenderTimed now ({ r.1 with sender := .waitRiUpdAck }, r.2)
  | idle (ho : p.outstanding = none)
      (h : ¬(p.sender = .connected ∧ p.pending ≠ [] ∧
        UPDATE_INTERVAL ≤ since now p.lastUpdate)) :
      p.SenderTimed now (p, .nil)

theorem senderTimers_timed (p : Peer) (now : Instant) :
    p.SenderTimed now (p.senderTimers now) := by
  unfold senderTimers
  cases ho : p.outstanding with
  | some o =>
    dsimp only
    split_ifs with hdue htries
    · exact .spent ho hdue htries
    · exact .again ho hdue (Nat.lt_of_not_le htries)
    · exact .waiting ho (Nat.lt_of_not_le hdue)
  | none =>
    dsimp only
    split_ifs with hdue
    · exact .updated ho hdue.1 hdue.2.1 hdue.2.2 rfl
    · exact .idle ho hdue

theorem senderTimers_chs (p : Peer) (now : Instant) : (p.senderTimers now).2.chs = [] := by
  have h := p.senderTimers_timed now
  generalize p.senderTimers now = r at h ⊢
  cases h with
  | updated _ _ _ _ hr =>
    rw [hr]
    rfl
  | _ => rfl

theorem ziRerequest_chs (p : Peer) (tables : Tables) : (p.ziRerequest tables).chs = [] := by
  unfold ziRerequest
  split_ifs <;> rfl

@[simp] theorem report_chs (p : Peer) (was : Receiver × Sender) (out : Out) :
    (p.report was out).chs = out.chs := rfl

/-- What the timers of the connection we opened make of an entry and of its routes, and what goes
out. -/
inductive ReceiverTimed (p : Peer) (tables : Tables) (now : Instant) : Handled → Prop
  | idle (hheard : p.receiver = .connected → since now p.lastHeard ≤ LAST_HEARD)
      (hdue : p.receiver ≠ .connected → p.receiver ≠ .unconnected → since now p.recvAt < RETRY) :
      p.ReceiverTimed tables now { peer := p, tables := tables, out := .nil }
  | unanswered (hr : p.receiver = .waitOpenRsp ∨ p.receiver = .waitRiRsp)
      (hdue : RETRY ≤ since now p.recvAt) (htries : RETRIES ≤ p.recvTries) :
      p.ReceiverTimed tables now
        { peer := p.closeReceiver, tables := tables
          out := .because ("no answer after " ++ dec RETRIES ++ " tries") }
  | reopened (hr : p.receiver = .waitOpenRsp) (hdue : RETRY ≤ since now p.recvAt)
      (htries : p.recvTries < RETRIES) :
      p.ReceiverTimed tables now (quiet tables (p.retry (.openReq Cmd.ALL_SUI 1 []) now))
  | asked (hr : p.receiver = .waitRiRsp) (hdue : RETRY ≤ since now p.recvAt)
      (htries : p.recvTries < RETRIES) :
      p.ReceiverTimed tables now (quiet tables (p.retry (.riReq Cmd.ALL_SUI) now))
  | tested (hr : p.receiver = .connected) (hlate : LAST_HEARD < since now p.lastHeard) :
      p.ReceiverTimed tables now
        { peer := { p with receiver := .waitTickleAck, recvTries := 1, recvAt := now }
          tables := tables
          out := .act (p.send p.connLocal 0 .tickle) }
  | retested (hr : p.receiver = .waitTickleAck) (hdue : RETRY ≤ since now p.recvAt)
      (htries : p.recvTries < TICKLE_RETRIES) :
      p.ReceiverTimed tables now (quiet tables (p.retry .tickle now))
  /-- The tickles went unanswered. -/
  | lost (hr : p.receiver = .waitTickleAck) (hdue : RETRY ≤ since now p.recvAt)
      (htries : TICKLE_RETRIES ≤ p.recvTries) (hs : p.sender ≠ .connected) :
      p.ReceiverTimed tables now
        { peer := p.closeReceiver
          tables := (tables.removeTarget (.peer p.addr)).1
          out := { acts := [], chs := (tables.removeTarget (.peer p.addr)).2
                   reason := some (dec TICKLE_RETRIES ++ " tickles unanswered") } }
  /-- The tickles went unanswered, and the other connection is probed. -/
  | probed (hr : p.receiver = .waitTickleAck) (hdue : RETRY ≤ since now p.recvAt)
      (htries : TICKLE_RETRIES ≤ p.recvTries) (hs : p.sender = .connected) :
      p.ReceiverTimed tables now
        { peer := { (p.closeReceiver.sendSequenced nullUpd [] now).1 with sender := .waitRiUpdAck }
          tables := (tables.removeTarget (.peer p.addr)).1
          out := { acts := [], chs := (tables.removeTarget (.peer p.addr)).2
                   reason := some (dec TICKLE_RETRIES ++ " tickles unanswered") } ++
            (p.closeReceiver.sendSequenced nullUpd [] now).2 }

theorem receiverTimers_timed (p : Peer) (tables : Tables) (now : Instant) :
    p.ReceiverTimed tables now (p.receiverTimers tables now) := by
  have hidle : p.receiver ≠ .connected → (p.receiver ≠ .unconnected → ¬RETRY ≤ since now p.recvAt) →
      p.ReceiverTimed tables now { peer := p, tables := tables, out := .nil } :=
    fun hr hdue => .idle (fun h => absurd h hr) fun _ hu => Nat.lt_of_not_le (hdue hu)
  unfold receiverTimers
  dsimp only
  split
  · rename_i hr
    split_ifs with hdue htries
    · exact .unanswered (Or.inl hr) hdue htries
    · exact .reopened hr hdue (Nat.lt_of_not_le htries)
    · exact hidle (by simp [hr]) fun _ => hdue
  · rename_i hr
    split_ifs with hdue htries hopen
    · exact .unanswered (Or.inr hr) hdue htries
    · exact absurd (hr.symm.trans hopen) (by simp)
    · exact .asked hr hdue (Nat.lt_of_not_le htries)
    · exact hidle (by simp [hr]) fun _ => hdue
  · rename_i hr
    split_ifs with hlate
    · exact .tested hr hlate
    · exact .idle (fun _ => Nat.le_of_not_lt hlate) fun hc => absurd hr hc
  · rename_i hr
    split_ifs with hdue htries hs
    · exact .probed hr hdue htries hs
    · exact .lost hr hdue htries hs
    · exact .retested hr hdue (Nat.lt_of_not_le htries)
    · exact hidle (by simp [hr]) fun _ => hdue
  · rename_i hr
    exact hidle (by simp [hr]) fun hu => absurd hr hu

theorem receiverTimers_eq (p : Peer) (tables : Tables) (now : Instant) :
    ((p.receiverTimers tables now).tables, (p.receiverTimers tables now).out.chs) =
      applyAll tables (p.timersOps now) := by
  have h := p.receiverTimers_timed tables now
  generalize p.receiverTimers tables now = r at h ⊢
  have hkeep : p.ticklesOut now = false → (tables, []) = applyAll tables (p.timersOps now) := by
    intro ht
    rw [timersOps, if_neg (by simp [ht])]
    rfl
  have hdrop : p.ticklesOut now → tables.removeTarget (.peer p.addr) =
      applyAll tables (p.timersOps now) := by
    intro ht
    rw [timersOps, if_pos ht]
    simp [applyAll, Tables.each, TableOp.apply]
  cases h with
  | idle _ hdue =>
    refine hkeep (decide_eq_false fun hout => ?_)
    have := hdue (by simp [hout.1]) (by simp [hout.1])
    exact absurd hout.2.1 (Nat.not_le.2 this)
  | unanswered hr => exact hkeep (by rcases hr with hr | hr <;> simp [ticklesOut, hr])
  | reopened hr | asked hr | tested hr => exact hkeep (by simp [ticklesOut, hr])
  | retested hr hdue htries => exact hkeep (by simp [ticklesOut, Nat.not_le.2 htries])
  | lost hr hdue htries => exact hdrop (by simp [ticklesOut, hr, hdue, htries])
  | probed hr hdue htries =>
    rw [← hdrop (by simp [ticklesOut, hr, hdue, htries])]
    exact Prod.ext rfl (List.append_nil _)

/-- The operations of a peer are the same after the reconnect scan. -/
theorem scan_timersOps (p : Peer) (scan : Bool) (now : Instant) :
    (if scan then p.reconnect now else (p, .nil)).1.timersOps now = p.timersOps now := by
  rcases p.scan_cases scan now with hscan | ⟨-, hu, hscan⟩
  · rw [hscan]
  · rw [hscan]
    simp [timersOps, ticklesOut, «open», hu]

/-- What one peer's timers do to the tables is their operations. -/
theorem timers_eq (p : Peer) (scan zi : Bool) (tables : Tables) (now : Instant) :
    ((p.timers scan zi tables now).tables, (p.timers scan zi tables now).out.chs) =
      applyAll tables (p.timersOps now) := by
  rw [← p.scan_timersOps scan, ← receiverTimers_eq]
  have h1 : (if scan then p.reconnect now else (p, .nil)).2.chs = [] := by
    rcases p.scan_cases scan now with hscan | ⟨-, -, hscan⟩
    · rw [hscan]
      rfl
    · rw [hscan]
      rfl
  have h2 : ∀ (q : Peer) (t : Tables), (if zi then q.ziRerequest t else .nil).chs = [] := by
    intro q t
    split_ifs
    · exact q.ziRerequest_chs t
    · rfl
  simp only [timers, report_chs, Out.append_chs, h1, h2, senderTimers_chs, List.nil_append,
    List.append_nil]

/-- What an update event gives rise to: whatever it says of a distance it says below 15. -/
theorem forall_mem_applyOps {p : Peer} {e : EventTuple} {tables : Tables} {now : Instant}
    {P : TableOp → Prop}
    (hlearn : e.code = NA ∨ e.code = NDC → e.tuple.distance < 15 →
      P (.learn e.tuple (.peer p.addr) Tables.NO_NEXT now))
    (hset : e.code = NA ∨ e.code = NDC → e.tuple.distance < 15 →
      P (.setDistance (.peer p.addr) e.tuple.range.1 (e.tuple.distance + 1) now))
    (hremove : ∀ start, P (.remove (.peer p.addr) start)) :
    ∀ op ∈ p.applyOps e tables now, P op := by
  unfold applyOps
  dsimp only
  split_ifs with hadd hgone hchange hfar
  · exact List.forall_mem_singleton.2 (hlearn (Or.inl hadd.1) hadd.2)
  · exact List.forall_mem_singleton.2 (hremove _)
  · exact List.forall_mem_singleton.2 (hremove _)
  · exact List.forall_mem_singleton.2 (hlearn (Or.inr hchange) (UInt8.not_le.1 hfar))
  · exact List.forall_mem_singleton.2 (hset (Or.inr hchange) (UInt8.not_le.1 hfar))
  · simp

/-- **What a routing packet of the peer gives rise to**: what it says of a distance is in a tuple
of its, below 15, and zone names are for networks that are not on a cable of ours. -/
theorem forall_mem_routingOps {p : Peer} {conn seq : UInt16} {cmd : Cmd} {tables : Tables}
    {now : Instant} {I : Tables → Prop} {P : TableOp → Prop}
    (hlearn : ∀ x ∈ cmd.tuples, x.distance < 15 →
      P (.learn x (.peer p.addr) Tables.NO_NEXT now))
    (hset : ∀ x ∈ cmd.tuples, x.distance < 15 →
      P (.setDistance (.peer p.addr) x.range.1 (x.distance + 1) now))
    (hremove : ∀ start, P (.remove (.peer p.addr) start))
    (htarget : P (.removeTarget (.peer p.addr)))
    (hzones : ∀ t, I t → ∀ start names expected,
      ¬((t.best start).any fun r => r.target.isPort) = true →
      P (.addZones start names expected))
    (hI : ∀ t op, I t → P op → I (op.apply t).1) (ht : I tables) :
    ∀ op ∈ p.routingOps conn seq cmd tables now, P op := by
  unfold routingOps
  by_cases hon : p.onReceiver conn
  swap
  · rw [if_neg hon]
    simp
  rw [if_pos hon]
  cases cmd with
  | riRsp last tuples =>
    dsimp only
    split_ifs
    · intro op hop
      obtain ⟨x, hx, hop⟩ := List.mem_flatMap.1 hop
      split_ifs at hop with hd
      · rw [List.mem_singleton.1 hop]
        exact hlearn x hx hd
      · cases hop
    · simp
  | riUpd events =>
    dsimp only
    split_ifs
    · exact forall_mem_along (fun t _ e he => forall_mem_applyOps
        (fun hc => hlearn e.tuple (Cmd.mem_tuples_riUpd he hc))
        (fun hc => hset e.tuple (Cmd.mem_tuples_riUpd he hc)) hremove) hI ht
    · simp
  | rd code => exact List.forall_mem_singleton.2 htarget
  | ziRsp extended zones =>
    refine forall_mem_along (fun t ht g _ op hop => ?_) hI ht
    split_ifs at hop with hport
    · cases hop
    · rw [List.mem_singleton.1 hop]
      exact hzones t ht _ _ _ hport
  | _ => simp

/-- An operation a routing packet of the peer can cause: all but zone names concern routes through
the peer, and a distance is set to the peer's and the tunnel hop. -/
inductive Causes (p : Peer) : TableOp → Prop
  | learn (x : NetworkTuple) (now : Instant) :
      p.Causes (.learn x (.peer p.addr) Tables.NO_NEXT now)
  | removeTarget : p.Causes (.removeTarget (.peer p.addr))
  | remove (start : UInt16) : p.Causes (.remove (.peer p.addr) start)
  | setDistance (start : UInt16) {d : UInt8} (hd : d < 15) (now : Instant) :
      p.Causes (.setDistance (.peer p.addr) start (d + 1) now)
  | addZones (start : UInt16) (names : List Str) (expected : Option ℕ) :
      p.Causes (.addZones start names expected)

theorem causes_of_mem_routingOps {p : Peer} {conn seq : UInt16} {cmd : Cmd} {tables : Tables}
    {now : Instant} : ∀ op ∈ p.routingOps conn seq cmd tables now, p.Causes op :=
  forall_mem_routingOps (I := fun _ => True) (fun x _ _ => .learn x now)
    (fun x _ hd => .setDistance x.range.1 hd now) .remove .removeTarget
    (fun _ _ start names expected _ => .addZones start names expected) (fun _ _ _ _ => trivial)
    trivial

/-- The timers of the peer withdraw its routes once its Tickles run out. -/
theorem mem_timersOps {p : Peer} {now : Instant} {op : TableOp} :
    op ∈ p.timersOps now ↔ p.ticklesOut now ∧ op = .removeTarget (.peer p.addr) := by
  unfold timersOps
  split_ifs with h <;> simp [h]

end Peer

/-! ### The operations of the peers -/

namespace Peers

/-- The operations of one datagram from the socket. -/
def packetOps (s : Peers) («from» : Ipv4Addr) (bytes : Bytes) (tables : Tables)
    (now : Instant) : List TableOp :=
  match Aurp.parse bytes, s.peers.get? «from» with
  | some (.routing _ conn seq cmd), some p => p.routingOps conn seq cmd tables now
  | _, _ => []

theorem mem_packetOps {s : Peers} {«from» : Ipv4Addr} {bytes : Bytes} {tables : Tables}
    {now : Instant} {op : TableOp} (h : op ∈ s.packetOps «from» bytes tables now) :
    ∃ dh conn seq cmd p, Aurp.parse bytes = some (.routing dh conn seq cmd) ∧
      s.peers.get? «from» = some p ∧ op ∈ p.routingOps conn seq cmd tables now := by
  unfold packetOps at h
  split at h
  · exact ⟨_, _, _, _, _, ‹_›, ‹_›, h⟩
  · cases h

theorem deliver_eq (s : Peers) (p : Peer) («from» : Ipv4Addr) (pkt : Aurp) (tables : Tables)
    (now : Instant) :
    ((s.deliver p «from» pkt tables now).tables, (s.deliver p «from» pkt tables now).chs) =
      applyAll tables
        (match pkt with
          | .routing _ conn seq cmd => p.routingOps conn seq cmd tables now
          | .data .. => []) := by
  cases pkt with
  | data dh ddp => rfl
  | routing dh conn seq cmd =>
    exact Peer.routing_eq { p with di := namedBy dh.src «from» } conn seq cmd tables now

/-- What a datagram does to the tables is its operations. -/
theorem packet_eq (s : Peers) («from» : Ipv4Addr) (bytes : Bytes) (tables : Tables)
    (now : Instant) :
    ((s.packet «from» bytes tables now).tables, (s.packet «from» bytes tables now).chs) =
      applyAll tables (s.packetOps «from» bytes tables now) := by
  unfold packet packetOps
  cases Aurp.parse bytes with
  | none => rfl
  | some pkt =>
    cases s.peers.get? «from» with
    | some p =>
      cases pkt with
      | data dh ddp => rfl
      | routing dh conn seq cmd => exact deliver_eq s p «from» _ tables now
    | none =>
      have hnew : ∀ conn : UInt16, (Peer.new «from» none s.nextConn s.local now).onReceiver conn =
          false := fun conn => by simp [Peer.onReceiver, Peer.receiverOpen, Peer.new]
      simp only
      split_ifs
      · rfl
      · rfl
      · rw [deliver_eq]
        cases pkt with
        | data dh ddp => rfl
        | routing dh conn seq cmd => simp [Peer.routingOps, hnew]

/-- The operations of a tick of the peers. -/
def tickOps (s : Peers) (now : Instant) : List TableOp :=
  s.peers.entries.flatMap fun e => e.2.timersOps now

/-- A tick withdraws the routes of the peers whose Tickles have run out. -/
theorem mem_tickOps {s : Peers} {now : Instant} {op : TableOp} :
    op ∈ s.tickOps now ↔ ∃ ip p, s.peers.get? ip = some p ∧ p.ticklesOut now ∧
      op = .removeTarget (.peer p.addr) := by
  unfold tickOps
  simp only [List.mem_flatMap, Prod.exists, SortedMap.mem_entries_iff, Peer.mem_timersOps]

/-- What a tick does to the tables is its operations. -/
theorem tick_eq (s : Peers) (tables : Tables) (now : Instant) :
    ((s.tick tables now).tables, (s.tick tables now).chs) =
      applyAll tables (s.tickOps now) := by
  let scan : Bool := RECONNECT_SCAN ≤ since now s.lastScan
  let zi : Bool := ZI_REREQUEST ≤ since now s.lastZi
  have key : ∀ (l : List (Ipv4Addr × Peer)) (t : Tables) (acts : List Action)
      (chs : List RouteChange),
      let r := SortedMap.mapAccumEntries
        (fun (a : Tables × List Action × List RouteChange) (_ : Ipv4Addr) p =>
          let h := p.timers scan zi a.1 now
          ((h.tables, a.2.1 ++ h.out.acts, a.2.2 ++ h.out.chs), h.peer)) (t, acts, chs) l
      let d := applyAll t (l.flatMap fun e => e.2.timersOps now)
      r.1.1 = d.1 ∧ r.1.2.2 = chs ++ d.2 := by
    intro l
    induction l with
    | nil => intro t acts chs; exact ⟨rfl, (List.append_nil _).symm⟩
    | cons e l ih =>
      intro t acts chs
      have h := Prod.ext_iff.1 (e.2.timers_eq scan zi t now)
      simp only at h
      simp only [SortedMap.mapAccumEntries, List.flatMap_cons, applyAll_append, ← h.1, ← h.2,
        ← List.append_assoc]
      exact ih _ _ _
  exact Prod.ext (key s.peers.entries tables [] []).1 (key s.peers.entries tables [] []).2

end Peers

/-! ### The operations of the services -/

/-- The operations of an RTMP packet off a cable. -/
def rtmpOps (port : Port) (r : Rtmp) (now : Instant) : List TableOp :=
  match r with
  | .data sender _ tuples =>
    if some sender = port.addr then []
    else tuples.map fun x => .learn x (.port port.id) sender now
  | _ => []

/-- The operations of a ZIP packet. -/
def zipOps : Zip → List TableOp
  | .reply zones total =>
    (Tables.groupByNet zones).map fun g => .addZones g.1 g.2 (total.map UInt8.toNat)
  | _ => []

theorem rtmp_eq (port : Port) (ports : List Port) (ddp : Ddp) (r : Rtmp) (tables : Tables)
    (now : Instant) :
    ((rtmp port ports ddp r tables now).tables, (rtmp port ports ddp r tables now).chs) =
      applyAll tables (rtmpOps port r now) := by
  cases r with
  | data sender range tuples =>
    unfold rtmp rtmpOps
    dsimp only
    split_ifs
    · rfl
    · exact each_eq_map (fun x => .learn x (.port port.id) sender now) tables tuples
  | _ => rfl

theorem zip_eq (port : Port) (ddp : Ddp) (z : Zip) (tables : Tables) :
    ((zip port ddp z tables).tables, (zip port ddp z tables).chs) =
      applyAll tables (zipOps z) := by
  cases z with
  | reply zones total =>
    exact each_eq_map (fun g : UInt16 × List Str => .addZones g.1 g.2 (total.map UInt8.toNat))
      tables (Tables.groupByNet zones)
  | _ => rfl

namespace Local

/-- The operations of a datagram delivered to this router: RTMP off the cable it concerns, and
ZIP. -/
def handleOps (arrivedOn : Option Port) (concerning : Port) (ddp : Ddp) (body : DdpBody)
    (now : Instant) : List TableOp :=
  match body with
  | .rtmp r =>
    if ddp.dstSocket = RTMP_SOCKET then
      match arrivedOn.filter fun p => p.id = concerning.id with
      | some p => rtmpOps p r now
      | none => []
    else []
  | .zip z => if ddp.dstSocket = ZIP_SOCKET then zipOps z else []
  | _ => []

/-- The services learn routes through the cable a datagram came off, and zone names. -/
theorem mem_handleOps {arrivedOn : Option Port} {q : Port} {ddp : Ddp} {body : DdpBody}
    {now : Instant} {op : TableOp} (h : op ∈ handleOps arrivedOn q ddp body now) :
    (∃ p x sender, arrivedOn = some p ∧ op = .learn x (.port p.id) sender now) ∨
      ∃ start names expected, op = .addZones start names expected := by
  unfold handleOps at h
  cases body with
  | rtmp r =>
    dsimp only at h
    split_ifs at h
    · cases hp : arrivedOn.filter fun p => p.id = q.id with
      | none => simp [hp] at h
      | some p =>
        rw [hp] at h
        cases r with
        | data sender range tuples =>
          simp only [rtmpOps] at h
          split_ifs at h
          · cases h
          · obtain ⟨x, -, rfl⟩ := List.mem_map.1 h
            exact Or.inl ⟨p, x, sender, (Option.filter_eq_some_iff.1 hp).1, rfl⟩
        | _ => simp [rtmpOps] at h
    · cases h
  | zip z =>
    dsimp only at h
    split_ifs at h
    · cases z with
      | reply zones total =>
        obtain ⟨g, -, rfl⟩ := List.mem_map.1 h
        exact Or.inr ⟨_, _, _, rfl⟩
      | _ => cases h
    · cases h
  | _ => cases h

/-- What a delivered datagram does to the tables is its operations. -/
theorem handle_eq (s : Local) (arrivedOn : Option Port) (concerning : Port) (ports : List Port)
    (ddp : Ddp) (body : DdpBody) (tables : Tables) (now : Instant) :
    ((s.handle arrivedOn concerning ports ddp body tables now).tables,
      (s.handle arrivedOn concerning ports ddp body tables now).chs) =
      applyAll tables (handleOps arrivedOn concerning ddp body now) := by
  unfold handle handleOps
  cases body with
  | rtmp r =>
    dsimp only
    split_ifs
    · cases arrivedOn.filter fun p => p.id = concerning.id with
      | some p => exact rtmp_eq _ _ _ _ _ _
      | none => rfl
    · rfl
  | zip z =>
    dsimp only
    split_ifs
    · exact zip_eq _ _ _ _
    · rfl
  | unknown => rfl
  | _ =>
    dsimp only
    split_ifs <;> rfl

end Local

end AppleTalk
