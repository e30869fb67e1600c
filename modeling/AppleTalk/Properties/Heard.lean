import AppleTalk.Properties.Continuity
import AppleTalk.Router.Exports
import AppleTalk.Router.Pages

/-!
# What a peer has been told

An observer of the packets we send a peer keeps the maps that a data receiver would hold: from the
latest RI-Req on, and from the opening of its connection on. One input of the core leaves what the
peer has been told as it was, starts the export, or moves the pending events into it. A connection
on its way down may be opened again, and is followed for as long as it has lost nothing.
-/

namespace AppleTalk

/-! ### What a packet tells -/

namespace Replica

/-- What a receiver holds after a sequenced packet. -/
def told (m : Replica) : Cmd → Replica
  | .riRsp _ tuples => tuples.foldl add m
  | .riUpd events => events.foldl follow m
  | _ => m

theorem add_onWire (m : Replica) (x : NetworkTuple) : m.add x.onWire = m.add x := by
  unfold add
  rw [NetworkTuple.onWire_start, NetworkTuple.onWire_distance]

theorem foldl_add_onWire (tuples : List NetworkTuple) (m : Replica) :
    (tuples.map NetworkTuple.onWire).foldl add m = tuples.foldl add m := by
  rw [List.foldl_map]
  exact congrArg (fun f => tuples.foldl f m) (funext fun m => funext fun x => m.add_onWire x)

/-- An event that says something is followed alike as it reads back at the other end. -/
theorem follow_onWire (m : Replica) {e : EventTuple} (h : e.Sayable) :
    m.follow e.onWire = m.follow e := by
  have h0 : e.code ≠ 0 := by
    rcases h.1 with h | h | h | h <;> rw [h] <;> decide
  unfold follow EventTuple.onWire Peer.startOf
  simp only [h0, if_false, NetworkTuple.onWire_start, m.add_onWire]

theorem foldl_follow_onWire {events : List EventTuple} (h : ∀ e ∈ events, e.Sayable)
    (m : Replica) :
    (events.map EventTuple.onWire).foldl follow m = events.foldl follow m := by
  induction events generalizing m with
  | nil => rfl
  | cons e events ih =>
    rw [List.map_cons, List.foldl_cons, List.foldl_cons, m.follow_onWire (h e List.mem_cons_self),
      ih fun e he => h e (List.mem_cons_of_mem _ he)]

end Replica

theorem EventTuple.Sayable.bounds {e : EventTuple} (h : e.Sayable) :
    e.code ≤ 5 ∧ e.tuple.distance ≤ 127 := by
  obtain ⟨hk, hd⟩ := h
  constructor
  · rcases hk with h | h | h | h <;> rw [h] <;> decide
  · exact UInt8.le_of_lt (UInt8.lt_trans hd (by decide))

/-! ### The pages and events of an entry -/

namespace Sending

/-- What waits to be said: events of the known kinds and tuples within reach. -/
structure Sayable (s : Sending) : Prop where
  pending : ∀ e ∈ s.pending, e.Sayable
  pages : ∀ x ∈ s.pages.flatten, x.distance < 15

theorem sayable_closed : closed.Sayable := ⟨by simp [closed], by simp [closed]⟩

theorem Sayable.move {x : List NetworkTuple} {asked : Bool} {s s' : Sending}
    {sent : List (UInt16 × UInt16 × Cmd)} (h : s.Sayable) (hx : ∀ y ∈ x, y.distance < 15)
    (hm : Move x asked s s' sent) : s'.Sayable := by
  cases hm with
  | keep | acked | again | null => exact ⟨h.pending, h.pages⟩
  | close => exact sayable_closed
  | accept | down => exact ⟨h.pending, by simp [posted]⟩
  | page _ tuples rest o _ hp =>
    refine ⟨h.pending, fun y hy => h.pages y ?_⟩
    rw [hp, List.flatten_cons]
    exact List.mem_append_right _ hy
  | exported _ tuples rest o _ hsplit =>
    refine ⟨h.pending, fun y hy => hx y ?_⟩
    rw [← flatten_splitTuples x, hsplit, List.flatten_cons]
    exact List.mem_append_right _ hy
  | update => exact ⟨by simp [posted], h.pages⟩

end Sending

theorem Tables.export_distance (t : Tables) : ∀ x ∈ t.export, x.distance < 15 := by
  intro x hx
  have h := (t.exports_eq_some_iff _ _).2 ⟨x, hx, rfl, rfl⟩
  unfold exports at h
  split_ifs at h
  obtain ⟨r, -, -, hlt, hd⟩ := nearBy_eq_some_iff.1 h
  rwa [hd] at hlt

/-! ### What every state of the core keeps -/

namespace Core

/-- What holds of the entries in every state. -/
structure Regular (c : Core) : Prop where
  filed : c.Filed
  ok : c.Ok
  reached : c.peers.Reached
  sayable : ∀ ip p, c.entry ip = some p → p.sending.Sayable

theorem reached_report {c : Core} (h : c.peers.Reached) (chs : List RouteChange) :
    (c.report chs).peers.Reached := by
  unfold report
  split_ifs
  · exact h
  · exact h.next (.routeChanged chs c.tables, 0)

theorem reached_next {c : Core} (h : c.peers.Reached) (i : CoreIn × Instant) :
    (c.next i).peers.Reached := by
  obtain ⟨i, now⟩ := i
  cases i with
  | batch ops =>
    exact reached_report (c := ⟨(TableOp.applyAll c.tables ops).1, c.peers⟩) h _
  | packet «from» bytes =>
    exact reached_report (c := ⟨_, _⟩) (h.next (.packet «from» bytes c.tables, now)) _
  | tick => exact reached_report (c := ⟨_, _⟩) (h.next (.tick c.tables, now)) _
  | resolved name addr => exact h.next (.resolved name addr, now)
  | ping => exact h.next (.ping, now)
  | pingReport => exact h.next (.pingReport, now)
  | shutdown => exact h.next (.shutdown, now)

/-- A new entry has no connection. -/
theorem subject_cases {c : Core} {i : CoreIn × Instant} {ip : Ipv4Addr} {p : Peer}
    (h : c.subject i ip = some p) :
    c.entry ip = some p ∨ c.entry ip = none ∧ p.sending = .closed := by
  rcases subject_new h with h | ⟨hnone, configured, rfl⟩
  · exact Or.inl h
  · exact Or.inr ⟨hnone, rfl⟩

theorem Regular.subject {c : Core} (h : c.Regular) {i : CoreIn × Instant} {ip : Ipv4Addr}
    {p : Peer} (hp : c.subject i ip = some p) : p.sending.Coherent ∧ p.sending.Sayable := by
  rcases subject_cases hp with hp | ⟨-, hnew⟩
  · exact ⟨h.reached.coherent ip p hp, h.sayable ip p hp⟩
  · rw [hnew]
    exact ⟨Sending.coherent_closed, Sending.sayable_closed⟩

/-- An entry after an input: what the input makes of the entry it acts on, with the events it
reports queued. -/
theorem Regular.moved {c : Core} (h : c.Regular) {i : CoreIn × Instant} {ip : Ipv4Addr}
    {q : Peer} (hq : (c.next i).entry ip = some q) :
    ∃ p p' sent opens acks, c.subject i ip = some p ∧ c.entryStep i ip = some p' ∧
      c.Moved i ip p p' sent opens acks ∧ q = p'.hear (c.reported i) := by
  cases hs : c.subject i ip with
  | none =>
    rw [next_entry, (no_subject h.filed hs).1] at hq
    cases hq
  | some p =>
    obtain ⟨p', sent, opens, acks, hm, hp'⟩ := exists_move h.filed h.ok hs
    refine ⟨p, p', sent, opens, acks, rfl, ?_, hm, next_of_move hp' hq⟩
    rcases hp' with hp' | ⟨hnone, -⟩
    · exact hp'
    · rw [next_entry, hnone] at hq
      cases hq

theorem reported_sayable (c : Core) (i : CoreIn × Instant) : ∀ e ∈ c.reported i, e.Sayable := by
  intro e he
  obtain ⟨ch, -, hch⟩ := List.mem_filterMap.1 he
  exact (Peers.eventOf_tells hch).sayable

end Core

theorem Peer.collapse_sayable {p ev e : EventTuple} (hev : ev.Sayable)
    (he : collapse p ev = some e) : e.Sayable := by
  refine ⟨(left_collapse hev.1 he).1, ?_⟩
  unfold collapse at he
  split_ifs at he
  · obtain rfl := Option.some.inj he
    exact hev.2
  · obtain rfl := Option.some.inj he
    exact hev.2
  · obtain rfl := Option.some.inj he
    exact hev.2

theorem Peer.queue_sayable {evs : List EventTuple} (h : ∀ e ∈ evs, e.Sayable) {ev : EventTuple}
    (hev : ev.Sayable) : ∀ e ∈ queue evs ev, e.Sayable := by
  induction evs with
  | nil => exact List.forall_mem_singleton.2 hev
  | cons p evs ih =>
    obtain ⟨hp, hevs⟩ := List.forall_mem_cons.1 h
    unfold queue
    split_ifs
    · refine List.forall_mem_append.2 ⟨fun e he => ?_, hevs⟩
      exact collapse_sayable hev (Option.mem_toList.1 he)
    · exact List.forall_mem_cons.2 ⟨hp, ih hevs⟩

theorem Peer.hear_sayable {p : Peer} (h : p.sending.Sayable) {evs : List EventTuple}
    (hevs : ∀ e ∈ evs, e.Sayable) : (p.hear evs).sending.Sayable := by
  unfold hear
  split_ifs
  · exact h
  · refine ⟨?_, h.pages⟩
    show ∀ e ∈ evs.foldl queue p.pending, e.Sayable
    have hp : ∀ e ∈ p.pending, e.Sayable := h.pending
    generalize p.pending = pending at hp
    induction evs generalizing pending with
    | nil => exact hp
    | cons ev evs ih =>
      obtain ⟨hev, hevs⟩ := List.forall_mem_cons.1 hevs
      exact ih hevs _ (queue_sayable hp hev)

theorem Core.Regular.next {c : Core} (h : c.Regular) (i : CoreIn × Instant) :
    (c.next i).Regular where
  filed := h.filed.next i
  ok := h.ok.next h.filed i
  reached := reached_next h.reached i
  sayable ip q hq := by
    obtain ⟨p, p', sent, opens, acks, hp, -, hm, rfl⟩ := h.moved hq
    refine Peer.hear_sayable ?_ (c.reported_sayable i)
    exact (h.subject hp).2.move c.tables.export_distance hm.sending

theorem Router.Built.regular {host : Host} {r : Router} (h : Built host r) : r.core.Regular := by
  obtain ⟨cfg, kinds, now, -, -, rfl⟩ := h
  exact ⟨fun ip p hp => (by cases hp), fun ip p hp => (by cases hp), ⟨_, _, _, _, _, [], rfl⟩,
    fun ip p hp => (by cases hp)⟩

/-! ### The observer -/

/-- What a peer was told on the connection it opened: whether it has asked for an export, the map
it holds from the latest RI-Req on, and the one it holds from everything it was told. -/
structure Heard where
  asked : Bool
  latest : Replica
  ever : Replica

namespace Heard

def nothing : Heard := { asked := false, latest := .empty, ever := .empty }

/-- Sequenced packets told, after an RI-Req if there was one. -/
def hear (h : Heard) (asked : Bool) (cmds : List Cmd) : Heard :=
  { asked := h.asked || asked
    latest := cmds.foldl Replica.told (if asked then .empty else h.latest)
    ever := cmds.foldl Replica.told h.ever }

end Heard

namespace Core

/-- The sequenced packets an input sends an address for the first time: the first page of a
restarted export, and those with another sequence number than the last. -/
def fresh (c : Core) (i : CoreIn × Instant) (ip : Ipv4Addr) : List Cmd :=
  ((sentOf isData ip (c.step i).2).filter fun x =>
    c.asked i ip || (c.subject i ip).any fun p => x.2.1 ≠ p.seqSend).map fun x => x.2.2

/-- One input, with what an address has been told on the connection it opened. -/
def listen (ip : Ipv4Addr) (s : Core × Heard) (i : CoreIn × Instant) : Core × Heard :=
  (s.1.next i,
    if ((s.1.next i).entry ip).any fun p => p.sender ≠ .unconnected then
      s.2.hear (s.1.asked i ip) (s.1.fresh i ip)
    else .nothing)

end Core

/-- What a connection has told its peer once the pages of the export are out, and the events that
wait. -/
structure View where
  asked : Bool
  latest : Replica
  ever : Replica
  pending : List EventTuple

namespace View

/-- A connection on which nothing was said. -/
def blank : View := { asked := false, latest := .empty, ever := .empty, pending := [] }

/-- The events a change of the routes reports are queued. -/
def queued (v : View) (evs : List EventTuple) : View :=
  { v with pending := evs.foldl Peer.queue v.pending }

/-- What one input tells before it reports its route changes: nothing, an export from the start, or
the events that waited. -/
inductive Step (x : List NetworkTuple) (v : View) : View → Prop
  | same : Step x v v
  | exported (ever : Replica) :
    Step x v { v with asked := true, latest := x.foldl .add .empty, ever := x.foldl .add ever }
  | updated :
    Step x v
      { v with
        latest := v.pending.foldl .follow v.latest
        ever := v.pending.foldl .follow v.ever
        pending := [] }

end View

namespace Sending

/-- What the peer holds once the pages that wait are out. -/
def held (s : Sending) (m : Replica) : Replica := s.pages.flatten.foldl .add m

def view (s : Sending) (h : Heard) : View :=
  { asked := h.asked, latest := s.held h.latest, ever := s.held h.ever, pending := s.pending }

end Sending

/-! ### A connection that goes on -/

namespace Peer

/-- The connection the peer opened is open, and has lost nothing if it is on its way down. -/
def Whole (p : Peer) (lost : Bool) : Prop :=
  p.sender ≠ .unconnected ∧ (p.sender = .waitRdAck → lost = false)

theorem whole_of_serving {p : Peer} (h : p.sender.Serving) (lost : Bool) : p.Whole lost :=
  ⟨h.1, fun hdown => absurd hdown h.2⟩

/-- The pages that wait are dropped by no Open-Req and no shutdown. -/
def PagesKept (p q : Peer) : Prop :=
  q.sender = .connected ∨ q.sender = .waitRdAck → q.pages = [] → p.pages = []

end Peer

namespace Core

section

variable (ip : Ipv4Addr) (good : Core × Heard → CoreIn × Instant → Prop)
  [∀ s i, Decidable (good s i)]

/-- Whether the connection an address has open has lost something on its way down: the pages that
waited when its RD went out, or what an input that is not good reported since. -/
def lost (s : (Core × Heard) × Bool) (i : CoreIn × Instant) : Bool :=
  ((s.1.1.next i).entry ip).any fun q => q.sender = .waitRdAck ∧
    (s.2 = true ∨ ¬good s.1 i ∨ (s.1.1.entry ip).any fun p => p.pages ≠ [])

/-- One input, with what an address has been told and whether its connection has lost something on
its way down. -/
def observe (s : (Core × Heard) × Bool) (i : CoreIn × Instant) : (Core × Heard) × Bool :=
  (listen ip s.1 i, lost ip good s i)

/-- An Open-Req for the connection an address has open finds no page waiting, and nothing lost if
the connection is on its way down. -/
def KeepsPages (c : Core) (lost : Bool) (i : CoreIn × Instant) : Prop :=
  ∀ p, c.entry ip = some p → ∀ conn seq cmd, i.1.routing ip = some (conn, seq, cmd) →
    ∀ sui, (conn, cmd) = (p.connRemote, .openReq sui 1 []) →
      p.pages = [] ∧ (p.sender = .waitRdAck → lost = false)

/-- The condition under which a connection goes on whole: no Open-Req for it loses anything, and
while it serves the inputs are good. -/
structure Keeps (s : (Core × Heard) × Bool) (i : CoreIn × Instant) : Prop where
  pages : KeepsPages ip s.1.1 s.2 i
  good : ∀ p, s.1.1.entryStep i ip = some p → p.sender.Serving → good s.1 i

end

variable {c : Core} {i : CoreIn × Instant} {ip : Ipv4Addr}
  {good : Core × Heard → CoreIn × Instant → Prop} [∀ s i, Decidable (good s i)]
  {s : (Core × Heard) × Bool}

/-- A connection that is whole on its way down found nothing lost and nothing to lose. -/
theorem lost_eq_false {q : Peer} (hq : (s.1.1.next i).entry ip = some q)
    (hdown : q.sender = .waitRdAck) (h : lost ip good s i = false) :
    s.2 = false ∧ good s.1 i ∧ ∀ p, s.1.1.entry ip = some p → p.pages = [] := by
  unfold lost at h
  rw [hq, Option.any_some, decide_eq_false_iff_not, not_and] at h
  have hnot := h hdown
  push Not at hnot
  obtain ⟨hlost, hgood, hpages⟩ := hnot
  refine ⟨Bool.eq_false_iff.2 hlost, hgood, fun p hp => ?_⟩
  rw [hp] at hpages
  simpa using hpages

/-- An input that leaves a connection whole is good. -/
theorem Keeps.good_of_whole (hk : Keeps ip good s i) {p q : Peer}
    (hp : s.1.1.entryStep i ip = some p) (hq : (s.1.1.next i).entry ip = some q)
    (hsame : q.sender = p.sender) (hwhole : q.Whole (lost ip good s i)) : good s.1 i := by
  by_cases hdown : q.sender = .waitRdAck
  · exact (lost_eq_false hq hdown (hwhole.2 hdown)).2.1
  · exact hk.good p hp (hsame ▸ ⟨hwhole.1, hdown⟩)

/-- It goes on with it, if it found it open. -/
theorem Keeps.goesOn (hk : Keeps ip good s i) {p p' q : Peer} (hp : s.1.1.entry ip = some p)
    (h : p.sending.Coherent) (hopen : p.sender ≠ .unconnected)
    (hp' : s.1.1.entryStep i ip = some p') (hq : (s.1.1.next i).entry ip = some q)
    (hsame : q.sender = p'.sender) (hwhole : q.Whole (lost ip good s i)) :
    p.Whole s.2 ∧ p.PagesKept p' := by
  by_cases hdown : q.sender = .waitRdAck
  · obtain ⟨hlost, -, hpages⟩ := lost_eq_false hq hdown (hwhole.2 hdown)
    exact ⟨⟨hopen, fun _ => hlost⟩, fun _ _ => hpages p hp⟩
  · have hserv : p'.sender.Serving := hsame ▸ ⟨hwhole.1, hdown⟩
    rcases accepts_or_continues (subject_of_entry hp) h hp' hserv with
      ⟨conn, seq, cmd, hr, ⟨sui, rfl⟩, hfree, -⟩ | hc
    · obtain rfl := hfree.resolve_left hopen
      obtain ⟨hpages, hlost⟩ := hk.pages p hp _ seq _ hr sui rfl
      exact ⟨⟨hopen, hlost⟩, fun _ _ => hpages⟩
    · exact ⟨Peer.whole_of_serving hc.serving s.2,
        fun hs => hc.pages (hs.resolve_right hserv.2)⟩

end Core

/-! ### What is heard -/

namespace Sending

/-- The new packets of a move, as they read back at the other end. -/
def told (asked : Bool) (s : Sending) (sent : List (UInt16 × UInt16 × Cmd)) : List Cmd :=
  ((onWire isData sent).filter fun x => asked || decide (x.2.1 ≠ s.seq)).map fun x => x.2.2

theorem told_next {s : Sending} {conn : UInt16} {cmd cmd' : Cmd} (hd : isData cmd.code = true)
    (hw : cmd.wire = some cmd') : told false s [(conn, succ s.seq, cmd)] = [cmd'] := by
  simp [told, onWire_one hd hw, succ_ne_self]

theorem wire_riRsp (last : Bool) {tuples : List NetworkTuple} (h : ∀ x ∈ tuples, x.distance < 15) :
    (Cmd.riRsp last tuples).wire = some (.riRsp last (tuples.map NetworkTuple.onWire)) :=
  Cmd.parse_riRsp last fun x hx => UInt8.le_of_lt (UInt8.lt_trans (h x hx) (by decide))

theorem foldl_add_flatten (tuples : List NetworkTuple) (rest : List (List NetworkTuple))
    (m : Replica) :
    rest.flatten.foldl .add (tuples.foldl .add m) =
      ((tuples :: rest).flatten.foldl .add m : Replica) := by
  rw [List.flatten_cons, List.foldl_append]

/-- **What a move tells.** On a connection that goes on it tells nothing new, an export, or the
events that waited. -/
theorem Move.tells {x : List NetworkTuple} {asked : Bool} {s s' : Sending}
    {sent : List (UInt16 × UInt16 × Cmd)} (hm : Move x asked s s' sent) (hc : s.Coherent)
    (hsay : s.Sayable) (hx : ∀ y ∈ x, y.distance < 15) (hopen : s'.sender ≠ .unconnected)
    (hpages : s'.sender = .connected ∨ s'.sender = .waitRdAck → s'.pages = [] → s.pages = [])
    (h : Heard) :
    (s.view h).Step x (s'.view (h.hear asked (told asked s sent))) := by
  have hquiet : ∀ s' : Sending, s'.pages = s.pages → s'.pending = s.pending →
      (s.view h).Step x (s'.view (h.hear false [])) := fun s' hp hq => by
    have : s'.view (h.hear false []) = s.view h := by
      simp [view, held, Heard.hear, hp, hq]
    rw [this]
    exact .same
  cases hm with
  | keep => exact hquiet s rfl rfl
  | close => exact absurd rfl hopen
  | accept _ conn => exact hquiet _ (hpages (Or.inl rfl) rfl).symm rfl
  | acked => exact hquiet _ rfl rfl
  | again _ o o' cmd ho hd =>
    have hnone : told false s [(s.conn, s.seq, cmd)] = [] := by
      cases hw : cmd.wire with
      | none => simp [told, onWire, hd, hw]
      | some cmd' => simp [told, onWire_one hd hw]
    rw [hnone]
    exact hquiet _ rfl rfl
  | null _ o =>
    rw [told_next rfl (show nullUpd.wire = some nullUpd by decide)]
    exact hquiet _ rfl rfl
  | page _ tuples rest o _ hp =>
    have hsay' : ∀ y ∈ tuples, y.distance < 15 := fun y hy =>
      hsay.pages y (by rw [hp]; exact List.mem_append_left _ hy)
    rw [told_next rfl (wire_riRsp rest.isEmpty hsay')]
    -- The page moves from what waits into what is told.
    have hheld : ∀ m, rest.flatten.foldl .add ((tuples.map NetworkTuple.onWire).foldl .add m) =
        s.held m := fun m => by
      rw [held, hp, Replica.foldl_add_onWire, foldl_add_flatten]
    have hview : ({ s with pages := rest }.posted o .waitRiRspAck).view
        (h.hear false [.riRsp rest.isEmpty (tuples.map NetworkTuple.onWire)]) = s.view h := by
      simp [view, held, Heard.hear, posted, Replica.told, hheld]
    rw [hview]
    exact .same
  | exported _ tuples rest o _ hsplit =>
    have hflat : tuples ++ rest.flatten = x := by
      rw [← List.flatten_cons, ← hsplit, flatten_splitTuples]
    have hsay' : ∀ y ∈ tuples, y.distance < 15 := fun y hy =>
      hx y (hflat ▸ List.mem_append_left _ hy)
    have htold : told true s [(s.conn, 1, .riRsp rest.isEmpty tuples)] =
        [.riRsp rest.isEmpty (tuples.map NetworkTuple.onWire)] := by
      simp [told, onWire_one (k := isData) rfl (wire_riRsp rest.isEmpty hsay')]
    have hheld : ∀ m, rest.flatten.foldl .add ((tuples.map NetworkTuple.onWire).foldl .add m) =
        (x.foldl .add m : Replica) := fun m => by
      rw [Replica.foldl_add_onWire, ← List.foldl_append, hflat]
    have hview : ({ s with seq := 0, pages := rest }.posted o .waitRiRspAck).view
        (h.hear true [.riRsp rest.isEmpty (tuples.map NetworkTuple.onWire)]) =
        { s.view h with
          asked := true, latest := x.foldl .add .empty, ever := x.foldl .add h.ever } := by
      simp [view, held, Heard.hear, posted, Replica.told, hheld]
    rw [htold, hview]
    exact .exported h.ever
  | update _ o hs =>
    have hwire : (Cmd.riUpd s.pending).wire = some (.riUpd (s.pending.map EventTuple.onWire)) :=
      Cmd.parse_riUpd fun e he => (hsay.pending e he).bounds
    rw [told_next rfl hwire]
    have hnone : s.pages = [] := (hc.idle hs).2
    have hview : ({ s with pending := [] }.posted o .waitRiUpdAck).view
        (h.hear false [.riUpd (s.pending.map EventTuple.onWire)]) =
        { s.view h with
          latest := s.pending.foldl .follow (s.view h).latest
          ever := s.pending.foldl .follow (s.view h).ever
          pending := [] } := by
      simp [view, held, Heard.hear, posted, Replica.told, hnone,
        Replica.foldl_follow_onWire hsay.pending]
    rw [hview]
    exact .updated
  | down _ o =>
    rw [told_next rfl (show (Cmd.rd (-1)).wire = some (.rd (-1)) by decide)]
    exact hquiet _ (hpages (Or.inr rfl) rfl).symm rfl

end Sending

namespace View

/-- What waits: one event for each network, each saying something. -/
structure Tidy (v : View) : Prop where
  single : (v.pending.map Peer.startOf).Nodup
  known : ∀ e ∈ v.pending, e.Known

theorem tidy_blank : blank.Tidy := ⟨List.nodup_nil, by simp [blank]⟩

theorem Tidy.step {x : List NetworkTuple} {v v' : View} (h : v.Tidy) (hs : v.Step x v') :
    v'.Tidy := by
  cases hs with
  | same => exact h
  | exported => exact ⟨h.single, h.known⟩
  | updated => exact ⟨List.nodup_nil, by simp⟩

end View

namespace Core

variable {c : Core} {i : CoreIn × Instant} {ip : Ipv4Addr}

theorem fresh_eq {p q : Peer} {sent : List (UInt16 × UInt16 × Cmd)} {opens : List UInt16}
    {acks : List (UInt16 × UInt16)} (hs : c.subject i ip = some p)
    (hm : c.Moved i ip p q sent opens acks) :
    c.fresh i ip = p.sending.told (c.asked i ip) sent := by
  unfold fresh Sending.told
  rw [hm.data, hs]
  rfl

/-- On a connection that is not open nothing has been heard. -/
def Unheard (ip : Ipv4Addr) (s : Core × Heard) : Prop :=
  (∀ p, s.1.entry ip = some p → p.sender = .unconnected) → s.2 = .nothing

theorem unheard_listen (s : Core × Heard) : Unheard ip (listen ip s i) := by
  intro h
  refine if_neg fun hany => ?_
  obtain ⟨p, hp, hopen⟩ := (Option.any_eq_true _ _).1 hany
  exact of_decide_eq_true hopen (h p hp)

variable {good : Core × Heard → CoreIn × Instant → Prop} [∀ s i, Decidable (good s i)]

/-- **One input, as it is heard.** An input that leaves an address's connection whole finds it
whole or starts it blank, tells it what one move tells, and queues what it reports. -/
theorem Regular.listens {s : (Core × Heard) × Bool} (h : s.1.1.Regular) (hu : Unheard ip s.1)
    (hk : Keeps ip good s i) {q : Peer} (hq : (s.1.1.next i).entry ip = some q)
    (hwhole : q.Whole (lost ip good s i)) :
    ∃ v p', (v = .blank ∨
        ∃ p, s.1.1.entry ip = some p ∧ p.Whole s.2 ∧ v = p.sending.view s.1.2) ∧
      s.1.1.entryStep i ip = some p' ∧ good s.1 i ∧
      View.Step s.1.1.tables.export v (p'.sending.view (listen ip s.1 i).2) ∧
      q.sending.view (listen ip s.1 i).2 =
        (p'.sending.view (listen ip s.1 i).2).queued (s.1.1.reported i) := by
  obtain ⟨p, p', sent, opens, acks, hp, hp', hm, rfl⟩ := h.moved hq
  obtain ⟨hcoh, hsay⟩ := h.subject hp
  have hsame : (p'.hear (s.1.1.reported i)).sender = p'.sender := by
    unfold Peer.hear
    split_ifs <;> rfl
  have hopen' : p'.sender ≠ .unconnected := hsame ▸ hwhole.1
  have hgood : good s.1 i := hk.good_of_whole hp' hq hsame hwhole
  have hheard : (listen ip s.1 i).2 =
      s.1.2.hear (s.1.1.asked i ip) (p.sending.told (s.1.1.asked i ip) sent) := by
    rw [← fresh_eq hp hm]
    exact if_pos ((Option.any_eq_true _ _).2 ⟨_, hq, decide_eq_true hwhole.1⟩)
  have hqueued : (p'.hear (s.1.1.reported i)).sending.view (listen ip s.1 i).2 =
      (p'.sending.view (listen ip s.1 i).2).queued (s.1.1.reported i) := by
    unfold Peer.hear
    rw [if_neg hopen']
    rfl
  by_cases hopen : p.sender = .unconnected
  · -- A connection that is not open carries nothing, and an Open-Req opens it.
    obtain ⟨hout, hpages, hpending, -⟩ := hcoh.shut hopen
    have ht : s.1.2 = .nothing := hu fun p0 hp0 => by
      rcases subject_cases hp with he | ⟨hnone, -⟩
      · rwa [Option.some.inj (hp0.symm.trans he)]
      · rw [show s.1.1.entry ip = none from hnone] at hp0
        cases hp0
    have hblank : p.sending.view s.1.2 = .blank := by
      rw [ht]
      simp [Sending.view, Sending.held, hpages, hpending]
      rfl
    refine ⟨.blank, p', Or.inl rfl, hp', hgood, ?_, hqueued⟩
    rw [hheard, ← hblank]
    exact hm.sending.tells hcoh hsay s.1.1.tables.export_distance hopen' (fun _ _ => hpages) _
  · have he : s.1.1.entry ip = some p := (subject_cases hp).resolve_right fun hnew => hopen (by
      have := congrArg Sending.sender hnew.2
      exact this)
    obtain ⟨hup, hpages⟩ := hk.goesOn he hcoh hopen hp' hq hsame hwhole
    refine ⟨_, p', Or.inr ⟨p, he, hup, rfl⟩, hp', hgood, ?_, hqueued⟩
    rw [hheard]
    exact hm.sending.tells hcoh hsay s.1.1.tables.export_distance hopen' hpages _

end Core

/-! ### Runs -/

namespace Core

variable {ip : Ipv4Addr}

@[simp] theorem listen_fst (s : Core × Heard) (i : CoreIn × Instant) :
    (listen ip s i).1 = s.1.next i := rfl

theorem run_listen_fst (s : Core × Heard) (is : List (CoreIn × Instant)) :
    (Machine.run (listen ip) s is).1 = s.1.after is :=
  Machine.run_map (f := Prod.fst) listen_fst s is

variable {good : Core × Heard → CoreIn × Instant → Prop} [∀ s i, Decidable (good s i)]

theorem run_observe_fst (s : (Core × Heard) × Bool) (is : List (CoreIn × Instant)) :
    (Machine.run (observe ip good) s is).1 = Machine.run (listen ip) s.1 is :=
  Machine.run_map (f := Prod.fst) (fun _ _ => rfl) s is

/-- **The rule for a run that is listened to.** What the view of a whole connection keeps of the
tables, through what a good input tells and through the events it reports, it keeps over a run. -/
theorem Regular.heard_run {P : Tables → View → Prop} (hblank : ∀ t, P t .blank)
    (hstep : ∀ (s : Core × Heard) i v p, good s i → P s.1.tables v → v.Tidy →
      s.1.entryStep i ip = some p →
      v.Step s.1.tables.export (p.sending.view (listen ip s i).2) →
      P (s.1.next i).tables ((p.sending.view (listen ip s i).2).queued (s.1.reported i)))
    {c : Core} (h : c.Regular) (hnone : c.entry ip = none) {is : List (CoreIn × Instant)}
    (his : Machine.Guarded (observe ip good) (Keeps ip good) ((c, .nothing), false) is) {q : Peer}
    (hq : (c.after is).entry ip = some q) (hserv : q.sender.Serving) :
    P (c.after is).tables (q.sending.view (Machine.run (listen ip) (c, .nothing) is).2) ∧
      (q.sending.view (Machine.run (listen ip) (c, .nothing) is).2).Tidy := by
  have htidy : ∀ {c : Core} {p : Peer} (t : Heard), c.Regular → c.entry ip = some p →
      (p.sending.view t).Tidy := fun t hc hp =>
    ⟨(hc.reached.coherent ip _ hp).single, fun e he => ((hc.sayable ip _ hp).pending e he).1⟩
  have hinv := Machine.Guarded.invariant
    (I := fun s : (Core × Heard) × Bool => s.1.1.Regular ∧ Unheard ip s.1 ∧
      ∀ p, s.1.1.entry ip = some p → p.Whole s.2 → P s.1.1.tables (p.sending.view s.1.2))
    (fun s i hs hi => ?_) ⟨h, fun _ => rfl, fun p hp => by rw [hnone] at hp; cases hp⟩ his
  · obtain ⟨hreg, -, hP⟩ := hinv
    rw [run_observe_fst, run_listen_fst] at hreg hP
    exact ⟨hP q hq (Peer.whole_of_serving hserv _), htidy _ hreg hq⟩
  · obtain ⟨hreg, hu, hP⟩ := hs
    refine ⟨hreg.next i, unheard_listen s.1, fun q hq hwhole => ?_⟩
    obtain ⟨v, p, hv, hp, hgood, hmove, hview⟩ := hreg.listens hu hi hq hwhole
    show P _ (q.sending.view (listen ip s.1 i).2)
    rw [hview]
    rcases hv with rfl | ⟨p0, hp0, hwhole0, rfl⟩
    · exact hstep s.1 i _ p hgood (hblank _) View.tidy_blank hp hmove
    · exact hstep s.1 i _ p hgood (hP p0 hp0 hwhole0) (htidy _ hreg hp0) hp hmove

end Core

namespace Router

/-- What an address was told on the connection it has open, over a run. -/
def heard (host : Host) (ip : Ipv4Addr) (r : Router) (es : List (Event × Instant)) : Heard :=
  (Machine.run (Core.listen ip) (r.core, .nothing) (r.coreTrace host es)).2

end Router

end AppleTalk
