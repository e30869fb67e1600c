import AppleTalk.Router.CoreMoves
import AppleTalk.Properties.Provenance

/-!
# Connection IDs

Every connection we open to an address carries a non-zero ID that differs from the one before, in
every run that opens none from an entry that was made while the counter stood at the ID last used
for the address. Within the life of one entry the ID moves on with every close. An entry that comes
back after an eviction starts over from the counter, which knows nothing of those moves.
-/

namespace AppleTalk

/-- The last connection ID opened to an address, and whether the address's entry was made while the
counter stood there. -/
structure LastId where
  id : Option UInt16
  stale : Bool

/-- Nothing was opened yet. -/
def LastId.start : LastId := { id := none, stale := false }

/-- Only an Open-Req opens a connection to a peer that has none of ours. -/
theorem Peer.routing_unconnected {p : Peer} (hu : p.receiver = .unconnected) {conn seq : UInt16}
    {cmd : Cmd} {tables : Tables} {now : Instant}
    (h : (p.routing conn seq cmd tables now).peer.receiver ≠ .unconnected) :
    ∃ sui, cmd = .openReq sui 1 [] := by
  obtain ⟨opens, acks, hm, -⟩ := p.routing_receiving conn seq cmd tables now
  replace hu : p.receiving.receiver = .unconnected := hu
  replace h : (p.routing conn seq cmd tables now).peer.receiving.receiver ≠ .unconnected := h
  generalize p.receiving = r at hm hu
  generalize (p.routing conn seq cmd tables now).peer.receiving = r' at hm h
  cases hm with
  | keep | repeated => exact absurd hu h
  | tickle _ ho | apply _ _ ho | down _ _ ho => exact absurd hu ho.1
  | «open» _ hp => exact hp _ rfl
  | reopen hw | opened hw =>
    rw [hu] at hw
    cases hw
  | close hne => exact absurd hu hne

/-- A scan of the configured peers opens connections, and nothing else that a tick does. -/
theorem Peer.timed_unconnected {p : Peer} (hu : p.receiver = .unconnected) {scan : Bool}
    {now : Instant} (h : (p.timed scan now).receiver ≠ .unconnected) :
    scan = true ∧ p.configured ≠ none := by
  have hidle : (p.receiverTimers .new now).peer = p := by simp [receiverTimers, hu]
  unfold timed at h
  rw [(senderTimers_kept _ now).1] at h
  rcases p.scan_cases scan now with hscan | ⟨hconf, -, hscan⟩
  · rw [hscan, hidle] at h
    exact absurd hu h
  · refine ⟨?_, hconf⟩
    by_contra hno
    rw [if_neg hno] at h
    exact h (by rw [hidle]; exact hu)

namespace Core

variable {c : Core}

/-- The counter of connection IDs stays where it is or moves on by one. -/
theorem next_nextConn (c : Core) (i : CoreIn × Instant) :
    (c.next i).peers.nextConn = c.peers.nextConn ∨
      (c.next i).peers.nextConn = succ c.peers.nextConn := by
  have hreport : ∀ (c : Core) chs, (c.report chs).peers.nextConn = c.peers.nextConn := by
    intro c chs
    unfold report
    split_ifs <;> rfl
  obtain ⟨i, now⟩ := i
  cases i with
  | batch ops => exact Or.inl (hreport _ _)
  | packet «from» bytes =>
    simp only [next, step, hreport]
    have hdel : ∀ (s : Peers) p pkt,
        (s.deliver p «from» pkt c.tables now).peers.nextConn = s.nextConn := by
      intro s p pkt
      cases pkt <;> rfl
    unfold Peers.packet
    cases Aurp.parse bytes with
    | none => exact Or.inl rfl
    | some pkt =>
      cases c.peers.peers.get? «from» with
      | some p => exact Or.inl (hdel _ _ _)
      | none =>
        dsimp only
        split_ifs
        · simp [Peers.turnAway, Peers.logUnknown, apply_ite]
        · simp [Peers.turnAway, Peers.logUnknown, apply_ite]
        · exact Or.inr (hdel _ _ _)
  | tick => exact Or.inl (hreport _ _)
  | resolved name addr =>
    simp only [next, step, Peers.resolved]
    cases c.peers.peers.get? addr with
    | some p => exact Or.inl rfl
    | none => exact Or.inr rfl
  | _ => exact Or.inl rfl

/-- The IDs of the connections an input opens to an address. An Open-Req sent while the entry
waits for its Open-Rsp is the last one over again. -/
def opened (ip : Ipv4Addr) (c : Core) (i : CoreIn × Instant) : List UInt16 :=
  if (c.entry ip).any fun p => p.receiver = .waitOpenRsp then []
  else (sentOf isOpenReq ip (c.step i).2).map Prod.fst

/-- What opens a connection to an address that has none of ours: an Open-Req it sends, or a scan of
the configured peers. -/
def Opens (ip : Ipv4Addr) (c : Core) (i : CoreIn × Instant) : Prop :=
  (∃ conn seq sui, i.1.routing ip = some (conn, seq, .openReq sui 1 [])) ∨
    i.1 = .tick ∧ RECONNECT_SCAN ≤ since i.2 c.peers.lastScan ∧
      (c.entry ip).any fun p => p.configured.isSome

/-- Whether the entry an input acts on was made while the counter stood at the last ID. -/
def stale (ip : Ipv4Addr) (c : Core) (l : LastId) (i : CoreIn × Instant) : Bool :=
  match c.entry ip with
  | some _ => l.stale
  | none => (c.subject i ip).isSome && decide (l.id = some c.peers.nextConn)

/-- Nothing is opened from an entry that was made while the counter stood at the last ID. -/
def FreshId (ip : Ipv4Addr) (s : Core × LastId) (i : CoreIn × Instant) : Prop :=
  stale ip s.1 s.2 i → ¬Opens ip s.1 i

/-- One input, with the last connection ID opened to the address. -/
def watch (ip : Ipv4Addr) (s : Core × LastId) (i : CoreIn × Instant) : Core × LastId :=
  (s.1.next i,
    { id := (opened ip s.1 i).getLast?.or s.2.id, stale := stale ip s.1 s.2 i })

theorem not_opens {ip : Ipv4Addr} {i : CoreIn × Instant} (hr : i.1.routing ip = none)
    (ht : i.1 ≠ .tick) : ¬Opens ip c i := by
  rintro (⟨_, _, _, hr'⟩ | ⟨ht', -⟩)
  · rw [hr] at hr'
    cases hr'
  · exact ht ht'

/-- An entry that has no connection of ours comes to have one when something opens it. -/
theorem opens_of_receiver {ip : Ipv4Addr} {i : CoreIn × Instant} {p q : Peer}
    (hp : c.subject i ip = some p) (hu : p.receiver = .unconnected)
    (hq : c.entryStep i ip = some q) (hne : q.receiver ≠ .unconnected) : Opens ip c i := by
  have hkept : c.entry ip = some p → c.entry ip = some q → Opens ip c i := fun hp hq =>
    absurd hu (Option.some.inj (hp.symm.trans hq) ▸ hne)
  obtain ⟨i, now⟩ := i
  unfold subject at hp
  unfold entryStep at hq
  cases i with
  | batch ops => exact hkept hp hq
  | packet «from» bytes =>
    dsimp only at hp hq
    by_cases hip : «from» = ip
    swap
    · rw [if_neg hip] at hq
      exact hkept (by simpa [hip] using hp) hq
    subst hip
    cases hb : Aurp.parse bytes with
    | none =>
      rw [if_pos rfl, hb] at hq
      exact hkept (by simpa [hb] using hp) hq
    | some pkt =>
      have hrec : c.recipient «from» now = some p := by simpa [hb] using hp
      rw [if_pos rfl, hb, hrec] at hq
      obtain rfl := Option.some.inj hq
      cases pkt with
      | data dh ddp => exact absurd hu hne
      | routing dh conn seq cmd =>
        obtain ⟨sui, rfl⟩ := Peer.routing_unconnected (p := p.named dh «from») hu hne
        exact Or.inl ⟨conn, seq, sui, by simp [CoreIn.routing, hb]⟩
  | tick =>
    have hentry : c.entry ip = some p := hp
    obtain ⟨hq, -⟩ := Option.filter_eq_some_iff.1 hq
    rw [hentry] at hq
    obtain rfl := Option.some.inj hq
    obtain ⟨hscan, hconf⟩ := Peer.timed_unconnected hu hne
    refine Or.inr ⟨rfl, of_decide_eq_true hscan, ?_⟩
    rw [hentry]
    exact Option.isSome_iff_ne_none.2 hconf
  | resolved name addr =>
    dsimp only at hp hq
    cases ha : c.entry addr with
    | some p' =>
      rw [if_neg (by simp [ha])] at hp
      rw [ha] at hq
      dsimp only at hq
      split_ifs at hq with hip
      · subst hip
        obtain rfl := Option.some.inj (ha.symm.trans hp)
        obtain rfl := Option.some.inj hq
        exact absurd hu hne
      · exact hkept hp hq
    | none =>
      rw [ha] at hq
      dsimp only at hq
      split_ifs at hq with hip
      · obtain rfl := Option.some.inj hq
        exact absurd rfl hne
      · rw [if_neg (by simp [hip])] at hp
        exact hkept hp (Option.filter_eq_some_iff.1 hq).1
  | ping =>
    rw [show c.entry ip = some p from hp] at hq
    obtain rfl := Option.some.inj hq
    exact absurd (by simp [Peer.pinged, hu]) hne
  | pingReport =>
    rcases samePeers_pingReport c.peers ip with he | he
    · exact hkept hp (he.symm.trans hq)
    · obtain ⟨p', hp', rfl⟩ := Option.map_eq_some_iff.1 (he.symm.trans hq)
      obtain rfl := Option.some.inj (hp'.symm.trans hp)
      exact absurd hu hne
  | shutdown =>
    rw [show c.entry ip = some p from hp] at hq
    obtain rfl := Option.some.inj hq
    have hsame := congrArg Receiving.receiver (p.shut_receiving now).1
    exact absurd (hsame.trans hu) hne

/-- What holds of the connection ID of an address, with what was last opened to it. -/
structure IdOk (ip : Ipv4Addr) (c : Core) (l : LastId) : Prop where
  next : c.peers.nextConn ≠ 0
  ne_zero : ∀ p, c.entry ip = some p → p.connLocal ≠ 0
  /-- A closed connection's ID has moved on already, or was fresh. -/
  closed : ∀ p, c.entry ip = some p → p.receiver = .unconnected → l.stale = false →
    l.id ≠ some p.connLocal
  current : ∀ p, c.entry ip = some p → p.receiver ≠ .unconnected → l.id = some p.connLocal

/-- The entry an input acts on has the ID of its address's entry, or the counter's. -/
theorem IdOk.subject {ip : Ipv4Addr} {l : LastId} (h : IdOk ip c l) {i : CoreIn × Instant}
    {p : Peer} (hp : c.subject i ip = some p) :
    p.connLocal ≠ 0 ∧
      (p.receiver = .unconnected → stale ip c l i = false → l.id ≠ some p.connLocal) ∧
      (p.receiver ≠ .unconnected → l.id = some p.connLocal) ∧
      ((c.entry ip).any (fun p => p.receiver = .waitOpenRsp) = true ↔
        p.receiver = .waitOpenRsp) := by
  unfold stale
  rcases subject_new hp with he | ⟨he, configured, rfl⟩
  · rw [he]
    exact ⟨h.ne_zero p he, h.closed p he, h.current p he, by simp⟩
  · rw [he, hp]
    refine ⟨h.next, fun _ hs hl => ?_, fun hne => absurd rfl hne, by simp [Peer.new]⟩
    exact absurd hl (of_decide_eq_false hs)

/-- **One input** opens no connection, or one with a non-zero ID that is not the last one. -/
theorem IdOk.step {ip : Ipv4Addr} {l : LastId} (h : IdOk ip c l) (hf : c.Filed)
    (hok : c.Ok) {i : CoreIn × Instant} (hi : FreshId ip (c, l) i) :
    IdOk ip (watch ip (c, l) i).1 (watch ip (c, l) i).2 ∧
      (opened ip c i = [] ∨ ∃ id, opened ip c i = [id] ∧ id ≠ 0 ∧ l.id ≠ some id) := by
  have hnext : (c.next i).peers.nextConn ≠ 0 := by
    rcases c.next_nextConn i with hn | hn
    · rw [hn]
      exact h.next
    · rw [hn]
      exact succ_ne_zero _
  unfold watch
  dsimp only
  cases hs : c.subject i ip with
  | none =>
    obtain ⟨hstep, hsent⟩ := no_subject hf hs
    have hnone : (c.next i).entry ip = none := by rw [next_entry, hstep]; rfl
    have hopened : opened ip c i = [] := by
      unfold opened
      split_ifs
      · rfl
      · simp [sentOf, hsent]
    rw [hopened]
    exact ⟨⟨hnext, by simp [hnone], by simp [hnone], by simp [hnone]⟩, Or.inl rfl⟩
  | some p =>
    obtain ⟨hp0, hpc, hpo, hpw⟩ := h.subject hs
    obtain ⟨q, sent, opens, acks, hm, hq⟩ := exists_move hf hok hs
    have hopened : opened ip c i = if p.receiver = .waitOpenRsp then [] else opens := by
      unfold opened
      rw [hm.opens]
      split_ifs with h1 h2 h2 <;>
        first | rfl | exact absurd (hpw.1 h1) h2 | exact absurd (hpw.2 h2) h1
    -- Something opens the connection, so the entry's ID was fresh.
    have hfresh : p.receiver = .unconnected → q.receiver ≠ .unconnected →
        stale ip c l i = false := fun hu hne => by
      rcases hq with hq | ⟨-, hdrops⟩
      · exact Bool.eq_false_iff.2 fun hstale => hi hstale (opens_of_receiver hs hu hq hne)
      · obtain ⟨i, now⟩ := i
        cases i with
        | tick => simp [Drops, Peers.keeps, hne] at hdrops
        | resolved name addr => exact absurd hu (hdrops.1 ▸ hne)
        | _ => exact hdrops.elim
    -- The invariant after it, from the ID and the state the move leaves.
    have hmk : ∀ id, q.receiving.conn ≠ 0 →
        (q.receiving.receiver = .unconnected → stale ip c l i = false →
          id ≠ some q.receiving.conn) →
        (q.receiving.receiver ≠ .unconnected → id = some q.receiving.conn) →
        IdOk ip (c.next i) { id := id, stale := stale ip c l i } := by
      intro id h0 hc ho
      have hsame : ∀ p', (c.next i).entry ip = some p' →
          p'.receiver = q.receiver ∧ p'.connLocal = q.connLocal := by
        intro p' hp'
        rw [next_of_move hq hp']
        exact ⟨congrArg Receiving.receiver (q.hear_receiving _),
          congrArg Receiving.conn (q.hear_receiving _)⟩
      refine ⟨hnext, fun p' hp' => ?_, fun p' hp' => ?_, fun p' hp' => ?_⟩ <;>
        rw [(hsame p' hp').2]
      · exact h0
      · rw [(hsame p' hp').1]
        exact hc
      · rw [(hsame p' hp').1]
        exact ho
    rw [hopened]
    have hmove := hm.receiving
    replace hp0 : p.receiving.conn ≠ 0 := hp0
    replace hpc : p.receiving.receiver = .unconnected → stale ip c l i = false →
      l.id ≠ some p.receiving.conn := hpc
    replace hpo : p.receiving.receiver ≠ .unconnected → l.id = some p.receiving.conn := hpo
    replace hfresh : p.receiving.receiver = .unconnected → q.receiving.receiver ≠ .unconnected →
      stale ip c l i = false := hfresh
    rw [show p.receiver = p.receiving.receiver from rfl]
    generalize p.receiving = r at hmove hp0 hpc hpo hfresh ⊢
    generalize q.receiving = r' at hmove hmk hfresh ⊢
    cases hmove with
    | keep => exact ⟨by simpa using hmk l.id hp0 hpc hpo, by simp⟩
    | tickle receiver ho h' =>
      refine ⟨?_, by simp⟩
      simp only [ite_self, List.getLast?_nil, Option.none_or]
      refine hmk l.id hp0 (fun hu => ?_) fun _ => hpo ho.1
      rcases h' with rfl | rfl <;> cases hu
    | «open» hu =>
      rw [hu, if_neg (by simp)]
      refine ⟨hmk (some r.conn) hp0 (fun hu' => by cases hu') fun _ => rfl, Or.inr ?_⟩
      exact ⟨r.conn, rfl, hp0, hpc hu (hfresh hu (by simp))⟩
    | reopen hw =>
      rw [hw, if_pos rfl]
      exact ⟨hmk l.id hp0 hpc hpo, Or.inl rfl⟩
    | opened hw =>
      rw [ite_self]
      exact ⟨hmk l.id hp0 (fun hu => by cases hu) fun _ => hpo (by simp [hw]), Or.inl rfl⟩
    | close hne =>
      rw [ite_self]
      refine ⟨hmk l.id (succ_ne_zero _) (fun _ _ => ?_) fun hu => absurd rfl hu, Or.inl rfl⟩
      rw [hpo hne]
      exact fun he => succ_ne_self _ (Option.some.inj he).symm
    | apply cmd receiver ho _ _ _ h' =>
      rw [ite_self]
      refine ⟨hmk l.id hp0 (fun hu => ?_) fun _ => hpo ho.1, Or.inl rfl⟩
      rcases h' with rfl | rfl
      · exact absurd hu ho.1
      · cases hu
    | repeated cmd ho =>
      rw [ite_self]
      exact ⟨hmk l.id hp0 hpc hpo, Or.inl rfl⟩
    | down seq code ho =>
      rw [ite_self]
      refine ⟨hmk l.id (succ_ne_zero _) (fun _ _ => ?_) fun hu => absurd rfl hu, Or.inl rfl⟩
      rw [hpo ho.1]
      exact fun he => succ_ne_self _ (Option.some.inj he).symm

/-! ### Runs of the core -/

/-- The IDs of the connections a run opens to an address, in order. -/
def openings (ip : Ipv4Addr) : Core → List (CoreIn × Instant) → List UInt16
  | _, [] => []
  | c, i :: is => opened ip c i ++ openings ip (c.next i) is

theorem openings_append (ip : Ipv4Addr) (c : Core) (is js : List (CoreIn × Instant)) :
    openings ip c (is ++ js) = openings ip c is ++ openings ip (c.after is) js := by
  induction is generalizing c with
  | nil => rfl
  | cons i is ih => simp only [List.cons_append, openings, ih, List.append_assoc]; rfl

theorem watch_run (ip : Ipv4Addr) (s : Core × LastId) (is : List (CoreIn × Instant)) :
    (Machine.run (watch ip) s is).1 = s.1.after is ∧
      (Machine.run (watch ip) s is).2.id = (openings ip s.1 is).getLast?.or s.2.id := by
  induction is generalizing s with
  | nil => exact ⟨rfl, rfl⟩
  | cons i is ih =>
    obtain ⟨hcore, hid⟩ := ih (watch ip s i)
    rw [Machine.run_cons, hcore, hid]
    refine ⟨rfl, ?_⟩
    simp only [watch, openings, List.getLast?_append, Option.or_assoc]

/-- Connection IDs that are not zero and never repeat the one before. -/
def NeverReused (ids : List UInt16) : Prop := (∀ id ∈ ids, id ≠ 0) ∧ ids.IsChain (· ≠ ·)

/-- **Every run** that opens connections from entries with fresh IDs never reuses one. -/
theorem IdOk.run {ip : Ipv4Addr} {l : LastId} (h : IdOk ip c l) (hf : c.Filed) (hok : c.Ok)
    {is : List (CoreIn × Instant)} (his : Machine.Guarded (watch ip) (FreshId ip) (c, l) is) :
    (∀ id ∈ openings ip c is, id ≠ 0) ∧
      (l.id.toList ++ openings ip c is).IsChain (· ≠ ·) := by
  induction is generalizing c l with
  | nil => cases l.id <;> simp [openings]
  | cons i is ih =>
    obtain ⟨hnext, hopened⟩ := h.step hf hok his.1
    obtain ⟨ih0, ihc⟩ := ih hnext (hf.next i) (hok.next hf i) his.2
    rcases hopened with ho | ⟨id, ho, hid, hlast⟩
    · simpa [openings, watch, ho] using ⟨ih0, by simpa [watch, ho] using ihc⟩
    · simp only [openings, ho, List.singleton_append, List.forall_mem_cons]
      refine ⟨⟨hid, ih0⟩, ?_⟩
      have hc : (id :: openings ip (c.next i) is).IsChain (· ≠ ·) := by
        simpa [watch, ho] using ihc
      cases hl : l.id with
      | none => exact hc
      | some last => exact List.isChain_cons_cons.2 ⟨fun he => hlast (by rw [hl, he]), hc⟩

end Core

/-! ### Runs of the router -/

namespace Router

/-- The IDs of the connections an event opens to an address. An Open-Req sent while the entry
waits for its Open-Rsp is the last one over again. -/
def opened (host : Host) (ip : Ipv4Addr) (r : Router) (e : Event × Instant) : List UInt16 :=
  if (r.peers.peers.get? ip).any fun p => p.receiver = .waitOpenRsp then []
  else (sentOf isOpenReq ip (r.event host e).2).map Prod.fst

/-- The IDs of the connections a run opens to an address, in order. -/
def openings (host : Host) (ip : Ipv4Addr) : Router → List (Event × Instant) → List UInt16
  | _, [] => []
  | r, e :: es => opened host ip r e ++ openings host ip (r.event host e).1 es

/-- Whether the event makes an entry for the address: a packet that parses finds it without one and
room for it, or its name resolves. -/
def creates (ip : Ipv4Addr) (r : Router) (e : Event × Instant) : Bool :=
  (r.peers.peers.get? ip).isNone &&
    match e.1 with
    | .input (.aurp «from» bytes) =>
      decide («from» = ip) && (Aurp.parse bytes).isSome && r.peers.openPeering &&
        decide (r.peers.peers.size < MAX_OPEN_PEERS)
    | .resolved _ addr => decide (addr = ip)
    | _ => false

/-- Whether the address's entry, or the one the event makes, was made while the counter of
connection IDs stood at the last one opened to it. -/
def stale (ip : Ipv4Addr) (r : Router) (l : LastId) (e : Event × Instant) : Bool :=
  match r.peers.peers.get? ip with
  | some _ => l.stale
  | none => creates ip r e && decide (l.id = some r.peers.nextConn)

/-- The event opens a connection to the address, if it has none of ours: the address sends an
Open-Req, or the configured peers are scanned and it is one. -/
def Opens (ip : Ipv4Addr) (r : Router) (e : Event × Instant) : Prop :=
  match e.1 with
  | .input (.aurp «from» bytes) =>
    «from» = ip ∧ ∃ dh conn seq sui,
      Aurp.parse bytes = some (.routing dh conn seq (.openReq sui 1 []))
  | .input .tick =>
    RECONNECT_SCAN ≤ since e.2 r.peers.lastScan ∧
      (r.peers.peers.get? ip).any fun p => p.configured.isSome
  | _ => False

/-- One event, with what was last opened to the address. -/
def watch (host : Host) (ip : Ipv4Addr) (s : Router × LastId) (e : Event × Instant) :
    Router × LastId :=
  ((s.1.event host e).1,
    { id := (opened host ip s.1 e).getLast?.or s.2.id, stale := stale ip s.1 s.2 e })

/-- The event opens no connection to the address from an entry that was made while the counter stood
at the last ID, and has opened none since. -/
def FreshId (ip : Ipv4Addr) (s : Router × LastId) (e : Event × Instant) : Prop :=
  stale ip s.1 s.2 e → ¬Opens ip s.1 e

variable {host : Host} {ip : Ipv4Addr}

/-- Table operations open nothing and leave the receiver's state alone. -/
theorem openings_batch (c : Core) (ops : List TableOp) (now : Instant)
    (is : List (CoreIn × Instant)) :
    Core.openings ip c ((.batch ops, now) :: is) =
      Core.openings ip (c.next (.batch ops, now)) is := by
  have : Core.opened ip c (.batch ops, now) = [] := by
    unfold Core.opened
    split_ifs <;> rfl
  rw [Core.openings, this, List.nil_append]

/-- They leave alone what does not depend on the entry's pending events. -/
theorem any_batch (c : Core) (ops : List TableOp) (now : Instant) {f : Peer → Bool}
    (hf : ∀ p evs, f (Peer.hear p evs) = f p) :
    ((c.next (.batch ops, now)).entry ip).any f = (c.entry ip).any f := by
  rw [Core.next_entry]
  show ((c.entry ip).map _).any f = _
  cases c.entry ip with
  | none => rfl
  | some p => exact hf p _

theorem hear_waits (p : Peer) (evs : List EventTuple) :
    decide ((p.hear evs).receiver = .waitOpenRsp) = decide (p.receiver = .waitOpenRsp) := by
  rw [show (p.hear evs).receiver = p.receiver from
    congrArg Receiving.receiver (p.hear_receiving evs)]

theorem hear_configured (p : Peer) (evs : List EventTuple) :
    (p.hear evs).configured.isSome = p.configured.isSome := by
  unfold Peer.hear
  split_ifs <;> rfl

theorem lastScan_batch (c : Core) (ops : List TableOp) (now : Instant) :
    (c.next (.batch ops, now)).peers.lastScan = c.peers.lastScan := by
  simp only [Core.next, Core.step, Core.report]
  split_ifs <;> rfl

/-- A run of table operations opens nothing. -/
theorem openings_batches {c : Core} {is : List (CoreIn × Instant)}
    (h : ∀ i ∈ is, ∃ ops, i.1 = .batch ops) :
    Core.openings ip c is = [] ∧ Core.acts c is = [] := by
  induction is generalizing c with
  | nil => exact ⟨rfl, rfl⟩
  | cons i is ih =>
    obtain ⟨i, now⟩ := i
    obtain ⟨⟨ops, rfl⟩, his⟩ := List.forall_mem_cons.1 h
    rw [openings_batch]
    exact ⟨(ih his).1, (ih his).2⟩

/-- What a run of one input among table operations opens is what its actions open. -/
theorem openings_of_acts {c : Core} {i : CoreIn × Instant} {is : List (CoreIn × Instant)}
    (h : ∀ i ∈ is, ∃ ops, i.1 = .batch ops) :
    Core.openings ip c (i :: is) =
      if (c.entry ip).any fun p => p.receiver = .waitOpenRsp then []
      else (sentOf isOpenReq ip (Core.acts c (i :: is))).map Prod.fst := by
  obtain ⟨ho, ha⟩ : Core.openings ip (c.next i) is = [] ∧ Core.acts (c.next i) is = [] :=
    openings_batches h
  simp only [Core.openings, Core.acts, ho, ha, List.append_nil]
  rfl

/-- What a link brought in acts on the core as a run of table operations. -/
theorem inboundInputs_batch (r : Router) (id : PortId) (i : Inbound) (body : Ddp → Option DdpBody)
    (now : Instant) : ∀ j ∈ r.inboundInputs id i body now, ∃ ops, j.1 = CoreIn.batch ops := by
  intro j hj
  unfold inboundInputs at hj
  split at hj
  · split at hj
    · rw [List.mem_singleton.1 hj]
      exact ⟨_, rfl⟩
    · cases hj
  · cases hj

/-- An event opens what its core's inputs open. -/
theorem opened_eq (r : Router) (e : Event × Instant) :
    opened host ip r e = Core.openings ip r.core (r.coreInputs host e) := by
  have hsent : sentOf isOpenReq ip (r.event host e).2 =
      sentOf isOpenReq ip (Core.acts r.core (r.coreInputs host e)) := by
    simp only [sentOf, sentTo_event]
  have hbatches : (∀ i ∈ r.coreInputs host e, ∃ ops, i.1 = CoreIn.batch ops) →
      opened host ip r e = Core.openings ip r.core (r.coreInputs host e) := fun his => by
    obtain ⟨ho, ha⟩ : Core.openings ip r.core (r.coreInputs host e) = [] ∧
      Core.acts r.core (r.coreInputs host e) = [] := openings_batches his
    rw [opened, hsent, ho, ha]
    exact ite_self _
  have hone : ∀ i is, (∀ i ∈ is, ∃ ops, i.1 = CoreIn.batch ops) → r.coreInputs host e = i :: is →
      opened host ip r e = Core.openings ip r.core (r.coreInputs host e) := fun i is his hi => by
    rw [opened, hsent, hi, openings_of_acts his]
    rfl
  obtain ⟨e, now⟩ := e
  cases e with
  | input i =>
    cases i with
    | ether id packet =>
      cases hp : r.port id with
      | none => exact hbatches (by simp [coreInputs, hp])
      | some p =>
        refine hbatches ?_
        simp only [coreInputs, hp]
        exact inboundInputs_batch _ _ _ _ _
    | llap id l =>
      cases hp : r.port id with
      | none => exact hbatches (by simp [coreInputs, hp])
      | some p =>
        refine hbatches ?_
        simp only [coreInputs, hp]
        exact inboundInputs_batch _ _ _ _ _
    | aurp «from» bytes =>
      refine hone (.packet «from» bytes, now) _ (fun i hi => ?_) rfl
      split at hi
      · rw [List.mem_singleton.1 hi]
        exact ⟨_, rfl⟩
      · cases hi
    | tick =>
      rw [opened, hsent]
      simp only [coreInputs, openings_batch]
      rw [openings_of_acts (by simp), any_batch _ _ _ hear_waits]
      rfl
    | ping => exact hone _ [] (by simp) rfl
    | pingReport => exact hone _ [] (by simp) rfl
  | resolved name addr => exact hone _ [] (by simp) rfl
  | shutdown => exact hone _ [] (by simp) rfl

theorem openings_eq (r : Router) (es : List (Event × Instant)) :
    openings host ip r es = Core.openings ip r.core (r.coreTrace host es) := by
  induction es generalizing r with
  | nil => rfl
  | cons e es ih => rw [openings, coreTrace, Core.openings_append, opened_eq, ih, event_core]

/-- Only a packet or a resolved name makes an entry. -/
theorem stale_kept (ip : Ipv4Addr) {c : Core} {l : LastId} {i : CoreIn × Instant}
    (h : c.subject i ip = c.entry ip) (hs : Core.stale ip c l i = true) :
    l.stale = true ∧ (c.entry ip).isSome := by
  unfold Core.stale at hs
  rw [h] at hs
  cases he : c.entry ip with
  | some p =>
    rw [he] at hs
    exact ⟨hs, rfl⟩
  | none =>
    rw [he] at hs
    cases hs

/-- Table operations open nothing, and leave an entry what it was. -/
theorem fresh_batches (ip : Ipv4Addr) (s : Core × LastId) {is : List (CoreIn × Instant)}
    (h : ∀ i ∈ is, ∃ ops, i.1 = .batch ops) :
    Machine.Guarded (Core.watch ip) (Core.FreshId ip) s is ∧
      ((Machine.run (Core.watch ip) s is).2.stale = true →
        s.2.stale = true ∧ ((s.1.entry ip).isSome ∨ is = [])) := by
  induction is generalizing s with
  | nil => exact ⟨trivial, fun hs => ⟨hs, Or.inr rfl⟩⟩
  | cons i is ih =>
    obtain ⟨i, now⟩ := i
    obtain ⟨⟨ops, rfl⟩, his⟩ := List.forall_mem_cons.1 h
    obtain ⟨hguarded, hlast⟩ := ih (Core.watch ip s (.batch ops, now)) his
    refine ⟨⟨fun _ => Core.not_opens rfl (by simp), hguarded⟩, fun hs => ?_⟩
    obtain ⟨hstale, hsome⟩ := stale_kept ip rfl (hlast hs).1
    exact ⟨hstale, Or.inl hsome⟩

/-- What is known of the core's inputs follows what is known of the router's events. -/
structure Tracks (ip : Ipv4Addr) (r : Router) (l l' : LastId) : Prop where
  id : l'.id = l.id
  stale : (r.core.entry ip).isSome → l'.stale = true → l.stale = true

section

variable {r : Router} {l l' : LastId} {e : Event × Instant} {now : Instant}

theorem Tracks.kept (h : Tracks ip r l l') (hsome : (r.core.entry ip).isSome)
    (hl : l'.stale = true) : Router.stale ip r l e = true := by
  obtain ⟨p, hp⟩ := Option.isSome_iff_exists.1 hsome
  unfold Router.stale
  rw [show r.peers.peers.get? ip = some p from hp]
  exact h.stale hsome hl

/-- An input makes a stale entry only where the event does. -/
theorem Tracks.made (h : Tracks ip r l l') {i : CoreIn × Instant}
    (hmade : r.core.entry ip = none → (r.core.subject i ip).isSome → creates ip r e = true)
    (hs : Core.stale ip r.core l' i = true) : Router.stale ip r l e = true := by
  unfold Core.stale at hs
  cases hn : r.core.entry ip with
  | some p =>
    rw [hn] at hs
    exact h.kept (by rw [hn]; rfl) hs
  | none =>
    rw [hn, Bool.and_eq_true, h.id] at hs
    unfold Router.stale
    rw [show r.peers.peers.get? ip = none from hn, Bool.and_eq_true]
    exact ⟨hmade hn hs.1, hs.2⟩

theorem creates_of_packet {«from» : Ipv4Addr} {bytes : Bytes} (hnone : r.core.entry ip = none)
    (hmade : (r.core.subject (.packet «from» bytes, now) ip).isSome) :
    creates ip r (.input (.aurp «from» bytes), now) = true := by
  simp only [Core.subject, Core.recipient, hnone] at hmade
  split_ifs at hmade with hip hroom
  · obtain ⟨rfl, hparse⟩ := hip
    have hroom' : r.peers.openPeering = true ∧ r.peers.peers.size < MAX_OPEN_PEERS := hroom
    simp [creates, show r.peers.peers.get? «from» = none from hnone, hparse, hroom']
  all_goals cases hmade

theorem creates_of_resolved {name : Str} {addr : Ipv4Addr} (hnone : r.core.entry ip = none)
    (hmade : (r.core.subject (.resolved name addr, now) ip).isSome) :
    creates ip r (.resolved name addr, now) = true := by
  simp only [Core.subject, hnone] at hmade
  split_ifs at hmade with haddr
  · simp [creates, show r.peers.peers.get? ip = none from hnone, haddr]
  · cases hmade

theorem opens_of_packet {«from» : Ipv4Addr} {bytes : Bytes}
    (h : Core.Opens ip r.core (.packet «from» bytes, now)) :
    Opens ip r (.input (.aurp «from» bytes), now) := by
  rcases h with ⟨conn, seq, sui, hr⟩ | ⟨ht, -⟩
  · dsimp only [CoreIn.routing] at hr
    split_ifs at hr with hip
    split at hr
    · rename_i dh _ _ _ hb
      cases hr
      exact ⟨hip, dh, conn, seq, sui, hb⟩
    · cases hr
  · cases ht

/-- The aging before a scan leaves what the scan reads. -/
theorem opens_of_tick
    (h : Core.Opens ip (r.core.next (.batch [.age now], now)) (.tick, now)) :
    Opens ip r (.input .tick, now) := by
  rcases h with ⟨_, _, _, hr⟩ | ⟨-, hdue, hconf⟩
  · cases hr
  · rw [lastScan_batch] at hdue
    rw [any_batch _ _ _ hear_configured] at hconf
    exact ⟨hdue, hconf⟩

/-- An event that opens nothing from a stale entry acts on the core as inputs that do not. -/
theorem FreshId.core (host : Host) (h : FreshId ip (r, l) e) (hl : Tracks ip r l l') :
    Machine.Guarded (Core.watch ip) (Core.FreshId ip) (r.core, l') (r.coreInputs host e) ∧
      (((r.event host e).1.core.entry ip).isSome →
        (Machine.run (Core.watch ip) (r.core, l') (r.coreInputs host e)).2.stale = true →
          stale ip r l e = true) := by
  have hstays : ∀ i : CoreIn × Instant, r.core.subject i ip = r.core.entry ip →
      Core.stale ip r.core l' i = true → stale ip r l e = true := fun i hi hs =>
    hl.kept (stale_kept ip hi hs).2 (stale_kept ip hi hs).1
  have hbatches : ∀ is, (∀ i ∈ is, ∃ ops, i.1 = CoreIn.batch ops) → r.coreInputs host e = is →
      Machine.Guarded (Core.watch ip) (Core.FreshId ip) (r.core, l') (r.coreInputs host e) ∧
        (((r.event host e).1.core.entry ip).isSome →
          (Machine.run (Core.watch ip) (r.core, l') (r.coreInputs host e)).2.stale = true →
            stale ip r l e = true) := by
    intro is his hi
    obtain ⟨hguarded, hlast⟩ := fresh_batches ip (r.core, l') his
    rw [event_core, hi]
    refine ⟨hguarded, fun hsome hs => ?_⟩
    rcases hlast hs with ⟨hold, he | rfl⟩
    · exact hl.kept he hold
    · exact hl.kept hsome hold
  have hone : ∀ i is, (∀ i ∈ is, ∃ ops, i.1 = CoreIn.batch ops) → r.coreInputs host e = i :: is →
      (Core.stale ip r.core l' i = true → stale ip r l e = true) →
      (Core.Opens ip r.core i → Opens ip r e) →
      Machine.Guarded (Core.watch ip) (Core.FreshId ip) (r.core, l') (r.coreInputs host e) ∧
        (((r.event host e).1.core.entry ip).isSome →
          (Machine.run (Core.watch ip) (r.core, l') (r.coreInputs host e)).2.stale = true →
            stale ip r l e = true) := by
    intro i is his hi hs ho
    obtain ⟨hguarded, hlast⟩ := fresh_batches ip (Core.watch ip (r.core, l') i) his
    rw [hi]
    exact ⟨⟨fun hold hopen => h (hs hold) (ho hopen), hguarded⟩, fun _ hr => hs (hlast hr).1⟩
  have hnever : ∀ i : CoreIn × Instant, i.1.routing ip = none → i.1 ≠ .tick →
      Core.Opens ip r.core i → Opens ip r e := fun i hr ht ho => absurd ho (Core.not_opens hr ht)
  obtain ⟨e, now⟩ := e
  cases e with
  | input i =>
    cases i with
    | ether id packet =>
      refine hbatches _ ?_ rfl
      unfold coreInputs
      dsimp only
      cases r.port id with
      | none => simp
      | some p => exact inboundInputs_batch _ _ _ _ _
    | llap id l =>
      refine hbatches _ ?_ rfl
      unfold coreInputs
      dsimp only
      cases r.port id with
      | none => simp
      | some p => exact inboundInputs_batch _ _ _ _ _
    | aurp «from» bytes =>
      refine hone (.packet «from» bytes, now) _ (fun i hi => ?_) rfl (hl.made creates_of_packet)
        opens_of_packet
      split at hi
      · rw [List.mem_singleton.1 hi]
        exact ⟨_, rfl⟩
      · cases hi
    | tick =>
      have hbatch : Core.stale ip r.core l' (.batch [.age now], now) = true →
          stale ip r l (.input .tick, now) = true := hstays _ rfl
      refine ⟨⟨fun _ => Core.not_opens rfl (by simp), fun hs ho => ?_, trivial⟩, fun _ hs => ?_⟩
      · exact h (hbatch (stale_kept ip rfl hs).1) (opens_of_tick ho)
      · exact hbatch (stale_kept ip rfl hs).1
    | ping => exact hone _ [] (by simp) rfl (hstays _ rfl) (hnever _ rfl (by simp))
    | pingReport => exact hone _ [] (by simp) rfl (hstays _ rfl) (hnever _ rfl (by simp))
  | resolved name addr =>
    exact hone _ [] (by simp) rfl (hl.made creates_of_resolved) (hnever _ rfl (by simp))
  | shutdown => exact hone _ [] (by simp) rfl (hstays _ rfl) (hnever _ rfl (by simp))

end

/-- A run of events that opens nothing from a stale entry acts on the core as a run that does
not. -/
theorem fresh_coreTrace {r : Router} {l l' : LastId} {es : List (Event × Instant)}
    (h : Machine.Guarded (watch host ip) (FreshId ip) (r, l) es) (hl : Tracks ip r l l') :
    Machine.Guarded (Core.watch ip) (Core.FreshId ip) (r.core, l') (r.coreTrace host es) := by
  induction es generalizing r l l' with
  | nil => trivial
  | cons e es ih =>
    obtain ⟨hguarded, hstale⟩ := h.1.core host hl
    obtain ⟨hcore, hlast⟩ := Core.watch_run ip (r.core, l') (r.coreInputs host e)
    have hid : (Machine.run (Core.watch ip) (r.core, l') (r.coreInputs host e)).2.id =
        (watch host ip (r, l) e).2.id := by
      rw [hlast, ← opened_eq, hl.id]
      rfl
    have hrest := ih h.2 ⟨hid, hstale⟩
    rw [event_core, ← hcore] at hrest
    exact Machine.Guarded.append.2 ⟨hguarded, hrest⟩

/-- A router is built without peers' entries, and its counter is not zero. -/
theorem Built.idOk {r : Router} (h : Built host r) : Core.IdOk ip r.core .start := by
  obtain ⟨cfg, kinds, now, -, -, rfl⟩ := h
  exact ⟨succ_ne_zero _, fun p hp => (by cases hp), fun p hp => (by cases hp),
    fun p hp => (by cases hp)⟩

/-- **Connection IDs are never reused back to back.** In every run of a built router that opens no
connection to the address from an entry made while the counter stood at the ID last opened to it,
every connection opened to the address carries a non-zero ID, and none carries the ID of the one
before. -/
theorem conn_ids_never_reused {r0 : Router} (h : Built host r0) {es : List (Event × Instant)}
    (hes : Machine.Guarded (watch host ip) (FreshId ip) (r0, .start) es) :
    Core.NeverReused (openings host ip r0 es) := by
  rw [openings_eq]
  have hok : r0.core.Ok := by
    obtain ⟨cfg, kinds, now, -, -, rfl⟩ := h
    exact fun ip p hp => (by cases hp)
  have hid : Core.IdOk ip r0.core .start := h.idOk
  obtain ⟨h0, hc⟩ := hid.run h.reachable.filed hok (fresh_coreTrace hes ⟨rfl, fun _ => id⟩)
  exact ⟨h0, by simpa [LastId.start] using hc⟩

/-- A stranger opens its connection 7, answers our Open-Req on connection `id`, and goes down. -/
def visit (ip : Ipv4Addr) (id : UInt16) : List (Event × Instant) :=
  [(.input (.aurp ip (peerPacket 7 0 (.openReq Cmd.ALL_SUI 1 []))), 0),
    (.input (.aurp ip (peerPacket id 0 (.openRsp 0 1 []))), 0),
    (.input (.aurp ip (peerPacket id 1 (.rd (-1)))), 0)]

/-- Two visits open connections 1 and 2: after the first packet the entry is there. -/
theorem conn_ids_never_reused_twice :
    openings .lowest ⟨192, 0, 2, 1⟩ small (visit ⟨192, 0, 2, 1⟩ 1 ++ visit ⟨192, 0, 2, 1⟩ 2) =
        [1, 2] ∧
      Core.NeverReused (openings .lowest ⟨192, 0, 2, 1⟩ small
        (visit ⟨192, 0, 2, 1⟩ 1 ++ visit ⟨192, 0, 2, 1⟩ 2)) := by
  refine ⟨by decide +kernel, conn_ids_never_reused small_built ?_⟩
  refine ⟨fun h => ?_, fun h => ?_, fun h => ?_, fun h => ?_, fun h => ?_, fun h => ?_, trivial⟩
  all_goals exact absurd h (by decide +kernel)

/-- Two visits, an eviction, and a third: the entry starts over at the ID last used. -/
theorem eviction_reuses_conn_id :
    ∃ r es ip, Built Host.lowest r ∧ ¬Core.NeverReused (openings .lowest ip r es) := by
  refine ⟨small, visit ⟨192, 0, 2, 1⟩ 1 ++ visit ⟨192, 0, 2, 1⟩ 2 ++
    [(.input .tick, fromSecs 100),
      (.input (.aurp ⟨192, 0, 2, 1⟩ (peerPacket 7 0 (.openReq Cmd.ALL_SUI 1 []))), fromSecs 100)],
    ⟨192, 0, 2, 1⟩, small_built, fun h => ?_⟩
  have hids : openings .lowest ⟨192, 0, 2, 1⟩ small (visit ⟨192, 0, 2, 1⟩ 1 ++
      visit ⟨192, 0, 2, 1⟩ 2 ++ [(.input .tick, fromSecs 100),
        (.input (.aurp ⟨192, 0, 2, 1⟩ (peerPacket 7 0 (.openReq Cmd.ALL_SUI 1 []))),
          fromSecs 100)]) = [1, 2, 2] := by decide +kernel
  rw [hids] at h
  exact absurd h.2 (by decide)

end Router

end AppleTalk
