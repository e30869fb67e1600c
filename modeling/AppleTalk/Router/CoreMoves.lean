import AppleTalk.Router.Moves

/-!
# The moves of a core input

An input of the core moves the entry of an address by one move of each of its two connections, and
sends the address what those moves send and nothing else. An entry is dropped only by the eviction
of a tick or when its name resolves elsewhere.
-/

namespace AppleTalk

/-- The routing packet from an address that an input is, if it is one. -/
def CoreIn.routing (ip : Ipv4Addr) : CoreIn → Option (UInt16 × UInt16 × Cmd)
  | .packet «from» bytes =>
    if «from» = ip then
      match Aurp.parse bytes with
      | some (.routing _ conn seq cmd) => some (conn, seq, cmd)
      | _ => none
    else none
  | _ => none

namespace Core

/-- The entry an input acts on: the one an address has, or the one made for it. -/
def subject (c : Core) (i : CoreIn × Instant) (ip : Ipv4Addr) : Option Peer :=
  match i.1 with
  | .packet «from» bytes =>
    if «from» = ip ∧ (Aurp.parse bytes).isSome then c.recipient ip i.2 else c.entry ip
  | .resolved name addr =>
    if addr = ip ∧ c.entry addr = none then
      some (Peer.new ip (some name) c.peers.nextConn c.peers.local i.2)
    else c.entry ip
  | _ => c.entry ip

/-- The input is an RI-Req from the address that restarts the export to it. -/
def asked (c : Core) (i : CoreIn × Instant) (ip : Ipv4Addr) : Bool :=
  match c.subject i ip, i.1.routing ip with
  | some p, some (conn, _, cmd) => p.asks conn cmd
  | _, _ => false

/-- Every entry's outstanding packet is the last it was sent. -/
def Ok (c : Core) : Prop := ∀ ip p, c.entry ip = some p → p.sending.Ok

/-- What an input makes of the entry it acts on: a move of each connection, and the packets of
those moves. -/
structure Moved (c : Core) (i : CoreIn × Instant) (ip : Ipv4Addr) (p q : Peer)
    (sent : List (UInt16 × UInt16 × Cmd)) (opens : List UInt16)
    (acks : List (UInt16 × UInt16)) : Prop where
  sending : Sending.Move c.tables.export (c.asked i ip) p.sending q.sending sent
  receiving : Receiving.Move (i.1.routing ip) p.receiving q.receiving opens acks
  data : sentOf isData ip (c.step i).2 = onWire isData sent
  opens : (sentOf isOpenReq ip (c.step i).2).map Prod.fst = opens
  acks : (sentOf isAck ip (c.step i).2).map (fun x => (x.1, x.2.1)) = acks

/-- The entry is dropped: evicted by a tick, or its name resolved to another address. -/
def Drops (i : CoreIn × Instant) (p q : Peer) : Prop :=
  match i.1 with
  | .tick => Peers.keeps i.2 q = false
  | .resolved name _ => q = p ∧ p.configured = some name
  | _ => False

end Core

/-! ### What a traversal sends -/

/-- A traversal of the entries that collects what each is sent sends an address what its own entry
is sent. -/
theorem sentTo_mapAccum {α : Type} (m : SortedMap Ipv4Addr Peer)
    (f : α → Ipv4Addr → Peer → α × Peer) (acts : α → List Action) (out : α → Peer → List Action)
    (hf : ∀ a k p, acts (f a k p).1 = acts a ++ out a p)
    (hout : ∀ a k p, m.get? k = some p → ToOnly k (out a p)) {a : α} (ha : acts a = [])
    (ip : Ipv4Addr) :
    (m.get? ip = none → sentTo ip (acts (m.mapAccum f a).1) = []) ∧
      ∀ p, m.get? ip = some p →
        ∃ b, sentTo ip (acts (m.mapAccum f a).1) = sentTo ip (out b p) := by
  obtain ⟨l, hl⟩ := m
  have hout' : ∀ a, ∀ e ∈ l, ToOnly e.1 (out a e.2) := fun a e he =>
    hout a e.1 e.2 ((SortedMap.get?_eq_some_iff ⟨l, hl⟩ e.1 e.2).2 he)
  suffices ∀ a : α,
      (SortedMap.lookup l ip = none → sentTo ip (acts (SortedMap.mapAccumEntries f a l).1) =
        sentTo ip (acts a)) ∧
      ∀ p, SortedMap.lookup l ip = some p → ∃ b,
        sentTo ip (acts (SortedMap.mapAccumEntries f a l).1) =
          sentTo ip (acts a) ++ sentTo ip (out b p) by
    obtain ⟨h1, h2⟩ := this a
    rw [ha] at h1 h2
    exact ⟨h1, h2⟩
  clear ha hout
  induction l with
  | nil => exact fun a => ⟨fun _ => rfl, fun p hp => (by cases hp)⟩
  | cons e l ih =>
    intro a
    obtain ⟨hlt, hl'⟩ := List.pairwise_cons.1 hl
    obtain ⟨ih1, ih2⟩ := ih hl' (fun a e he => hout' a e (by simp [he])) (f a e.1 e.2).1
    rw [hf, sentTo_append] at ih1 ih2
    rw [SortedMap.lookup_cons]
    by_cases he : e.1 = ip
    · -- Its own entry: no later one is under the same address.
      have hlast : SortedMap.lookup l ip = none := by
        refine SortedMap.lookup_eq_none fun e' he' heq => ?_
        have := hlt e' he'
        rw [he, heq] at this
        exact lt_irrefl _ this
      rw [if_pos he]
      refine ⟨fun h => (by cases h), fun p hp => ⟨a, ?_⟩⟩
      cases hp
      exact ih1 hlast
    · have hnil : sentTo ip (out a e.2) = [] :=
        (hout' a e (by simp)).sentTo_eq_nil (Ne.symm he)
      rw [if_neg he]
      rw [hnil, List.append_nil] at ih1 ih2
      exact ⟨ih1, ih2⟩

theorem sentTo_report (ip : Ipv4Addr) (p : Peer) (was : Receiver × Sender) (out : Out) :
    sentTo ip (p.report was out).acts = sentTo ip out.acts := by
  unfold Peer.report
  dsimp only
  split_ifs <;> simp [sentTo, routingOf]

namespace Core

variable {c : Core}

theorem sentTo_turnAway (s : Peers) («from» ip : Ipv4Addr) (line : String) (tables : Tables)
    (now : Instant) : sentTo ip (s.turnAway «from» line tables now).acts = [] := by
  unfold Peers.turnAway
  dsimp only
  split_ifs <;> rfl

theorem Filed.toOnly_deliver (s : Peers) {p : Peer} {«from» : Ipv4Addr} (hp : p.addr = «from»)
    (pkt : Aurp) (tables : Tables) (now : Instant) :
    ToOnly «from» (s.deliver p «from» pkt tables now).acts := by
  cases pkt with
  | data dh ddp => exact toOnly_nil
  | routing dh conn seq cmd =>
    have := (p.named dh «from»).routing_toOnly conn seq cmd tables now
    simp only [Peers.deliver, Peer.report, toOnly_append]
    refine ⟨⟨?_, ?_⟩, ?_⟩
    · rw [← hp]
      rw [← hp] at this
      exact this
    · split_ifs <;> simp
    · split_ifs <;> simp

/-- What an entry does with a packet that is handed to it. -/
def deliveredActs (p : Peer) (ip : Ipv4Addr) (tables : Tables) (now : Instant) : Aurp → List Action
  | .routing dh conn seq cmd => ((p.named dh ip).routing conn seq cmd tables now).out.acts
  | .data .. => []

/-- What a packet sends: its recipient's answer, to the recipient. -/
theorem sentTo_packet (hf : c.Filed) («from» ip : Ipv4Addr) (bytes : Bytes) (now : Instant) :
    sentTo ip (c.step (.packet «from» bytes, now)).2 =
      match c.subject (.packet «from» bytes, now) ip, Aurp.parse bytes with
      | some p, some (.routing dh conn seq cmd) =>
        if «from» = ip then
          sentTo ip ((p.named dh ip).routing conn seq cmd c.tables now).out.acts
        else []
      | _, _ => [] := by
  simp only [step, subject, Peers.packet, recipient]
  cases hb : Aurp.parse bytes with
  | none => cases c.entry ip <;> simp
  | some pkt =>
    by_cases hip : «from» = ip
    · subst hip
      simp only [Option.isSome_some, and_self, if_true]
      have hdel : ∀ (s : Peers) (p : Peer),
          sentTo «from» (s.deliver p «from» pkt c.tables now).acts =
          sentTo «from» (deliveredActs p «from» c.tables now pkt) := by
        intro s p
        cases pkt with
        | data dh ddp => rfl
        | routing dh conn seq cmd => exact sentTo_report _ _ _ _
      cases hg : c.entry «from» with
      | some p =>
        simp only [entry] at hg
        simp only [hg, hdel]
        cases pkt <;> rfl
      | none =>
        simp only [entry] at hg
        simp only [hg]
        cases ho : c.peers.openPeering with
        | false => simp [sentTo_turnAway]
        | true =>
          by_cases hm : MAX_OPEN_PEERS ≤ c.peers.peers.size
          · simp [sentTo_turnAway, hm, Nat.not_lt.2 hm]
          · simp only [hm, Nat.lt_of_not_le hm, Bool.not_true, Bool.false_eq_true, if_false, hdel,
              and_self, if_true]
            cases pkt <;> rfl
    · simp only [hip, false_and, if_false]
      have hnil : sentTo ip (c.peers.packet «from» bytes c.tables now).acts = [] := by
        unfold Peers.packet
        rw [hb]
        dsimp only
        cases hg : c.peers.peers.get? «from» with
        | some p =>
          exact (Filed.toOnly_deliver _ (hf «from» p hg) _ _ _).sentTo_eq_nil (Ne.symm hip)
        | none =>
          dsimp only
          split_ifs
          · exact sentTo_turnAway _ _ _ _ _ _
          · exact sentTo_turnAway _ _ _ _ _ _
          · exact (Filed.toOnly_deliver _ rfl _ _ _).sentTo_eq_nil (Ne.symm hip)
      simp only [Peers.packet, hb] at hnil
      rw [hnil]
      cases c.entry ip <;> cases pkt <;> rfl

/-- What a tick sends an address: what its entry's timers send. -/
theorem sentTo_tick (hf : c.Filed) (ip : Ipv4Addr) (now : Instant) :
    (c.entry ip = none → sentTo ip (c.step (.tick, now)).2 = []) ∧
      ∀ p, c.entry ip = some p → ∃ t, sentTo ip (c.step (.tick, now)).2 =
        sentTo ip (p.timers (RECONNECT_SCAN ≤ since now c.peers.lastScan)
          (ZI_REREQUEST ≤ since now c.peers.lastZi) t now).out.acts := by
  have h := sentTo_mapAccum c.peers.peers
    (fun (a : Tables × List Action × List RouteChange) _ p =>
      let h := p.timers (RECONNECT_SCAN ≤ since now c.peers.lastScan)
        (ZI_REREQUEST ≤ since now c.peers.lastZi) a.1 now
      ((h.tables, a.2.1 ++ h.out.acts, a.2.2 ++ h.out.chs), h.peer))
    (fun a => a.2.1)
    (fun a p => (p.timers (RECONNECT_SCAN ≤ since now c.peers.lastScan)
      (ZI_REREQUEST ≤ since now c.peers.lastZi) a.1 now).out.acts)
    (fun _ _ _ => rfl) (fun a k p hp => hf k p hp ▸ p.timers_toOnly _ _ _ _)
    (a := (c.tables, [], [])) rfl ip
  exact ⟨h.1, fun p hp => (h.2 p hp).elim fun b hb => ⟨b.1, hb⟩⟩

theorem shutActs_toOnly (p : Peer) (now : Instant) : ToOnly p.addr (p.shutActs now) := by
  unfold Peer.shutActs
  split_ifs
  · exact toOnly_nil
  · exact Peer.sendSequenced_toOnly { p with outstanding := none, pages := [] } _ _ now

theorem sentTo_shutdown (hf : c.Filed) (ip : Ipv4Addr) (now : Instant) :
    (c.entry ip = none → sentTo ip (c.step (.shutdown, now)).2 = []) ∧
      ∀ p, c.entry ip = some p →
        sentTo ip (c.step (.shutdown, now)).2 = sentTo ip (p.shutActs now) := by
  have h := sentTo_mapAccum c.peers.peers
    (fun (acts : List Action) _ p =>
      if p.sender = .unconnected ∨ p.sender = .waitRdAck then (acts, p)
      else
        let r := { p with outstanding := none, pages := [] }.sendSequenced (.rd (-1)) [] now
        (acts ++ r.2.acts, { r.1 with sender := .waitRdAck }))
    id (fun _ p => p.shutActs now)
    (fun a k p => by
      unfold Peer.shutActs
      dsimp only
      split_ifs <;> simp)
    (fun a k p hp => hf k p hp ▸ shutActs_toOnly p now) (a := []) rfl ip
  exact ⟨h.1, fun p hp => (h.2 p hp).choose_spec⟩

theorem sentTo_ping (hf : c.Filed) (ip : Ipv4Addr) (now : Instant) :
    (c.entry ip = none → sentTo ip (c.step (.ping, now)).2 = []) ∧
      ∀ p, c.entry ip = some p → sentTo ip (c.step (.ping, now)).2 = sentTo ip p.pingActs := by
  have h : (c.entry ip = none → sentTo ip (c.peers.ping now).2 = []) ∧
      ∀ p, c.entry ip = some p →
        ∃ b : List Action, sentTo ip (c.peers.ping now).2 = sentTo ip p.pingActs := by
    unfold Peers.ping
    refine sentTo_mapAccum c.peers.peers _ id (fun _ p => p.pingActs) (fun a k p => ?_)
      (fun a k p hp => ?_) rfl ip
    · cases hr : p.receiver <;> simp [Peer.pingActs, hr]
    · rw [← hf k p hp]
      unfold Peer.pingActs
      split_ifs <;> simp
  exact ⟨h.1, fun p hp => (h.2 p hp).choose_spec⟩

/-! ### The moves -/

/-- An input acts on the entry an address has. -/
theorem subject_of_entry {i : CoreIn × Instant} {ip : Ipv4Addr} {p : Peer}
    (hp : c.entry ip = some p) : c.subject i ip = some p := by
  obtain ⟨i, now⟩ := i
  unfold subject
  cases i with
  | packet «from» bytes =>
    dsimp only
    split_ifs
    · unfold recipient
      rw [hp]
    · exact hp
  | resolved name addr =>
    dsimp only
    split_ifs with h
    · obtain ⟨rfl, hnone⟩ := h
      rw [hp] at hnone
      cases hnone
    · exact hp
  | _ => exact hp

/-- The entry an input acts on is the one of the address or a new one. -/
theorem subject_new {i : CoreIn × Instant} {ip : Ipv4Addr} {p : Peer}
    (h : c.subject i ip = some p) :
    c.entry ip = some p ∨ c.entry ip = none ∧ ∃ configured,
      p = Peer.new ip configured c.peers.nextConn c.peers.local i.2 := by
  obtain ⟨i, now⟩ := i
  unfold subject at h
  cases i with
  | packet «from» bytes =>
    dsimp only at h
    split_ifs at h
    · unfold recipient at h
      cases he : c.entry ip with
      | some p' => exact Or.inl (by rwa [he] at h)
      | none =>
        rw [he] at h
        dsimp only at h
        split_ifs at h
        exact Or.inr ⟨rfl, none, (Option.some.inj h).symm⟩
    · exact Or.inl h
  | resolved name addr =>
    dsimp only at h
    split_ifs at h with hnew
    · obtain ⟨rfl, hnone⟩ := hnew
      exact Or.inr ⟨hnone, some name, (Option.some.inj h).symm⟩
    · exact Or.inl h
  | _ => exact Or.inl h

theorem subject_addr (hf : c.Filed) {i : CoreIn × Instant} {ip : Ipv4Addr} {p : Peer}
    (h : c.subject i ip = some p) : p.addr = ip := by
  rcases subject_new h with h | ⟨-, configured, rfl⟩
  · exact hf ip p h
  · rfl

/-- A new entry has sent nothing. -/
theorem Ok.subject (hok : c.Ok) {i : CoreIn × Instant} {ip : Ipv4Addr} {p : Peer}
    (h : c.subject i ip = some p) : p.sending.Ok := by
  rcases subject_new h with h | ⟨-, configured, rfl⟩
  · exact hok ip p h
  · exact Sending.Ok.none rfl

/-- The moves of an input, from the actions it sends the entry. -/
theorem Moved.of_acts {i : CoreIn × Instant} {ip : Ipv4Addr} {p q : Peer} (haddr : p.addr = ip)
    {acts : List Action} (ha : sentTo ip (c.step i).2 = sentTo ip acts)
    {sent : List (UInt16 × UInt16 × Cmd)} {opens : List UInt16} {acks : List (UInt16 × UInt16)}
    (hs : Sending.Move c.tables.export (c.asked i ip) p.sending q.sending sent)
    (hsent : sentOf isData p.addr acts = onWire isData sent)
    (hr : Receiving.Move (i.1.routing ip) p.receiving q.receiving opens acks)
    (hrep : p.Reports acts opens acks) : c.Moved i ip p q sent opens acks := by
  subst haddr
  have hof : ∀ k, sentOf k p.addr (c.step i).2 = sentOf k p.addr acts := fun k => by
    simp only [sentOf, ha]
  exact ⟨hs, hr, by rw [hof, hsent], by rw [hof]; exact hrep.1, by rw [hof]; exact hrep.2⟩

/-- Nothing happens to the entry's connections and nothing is sent. -/
theorem Moved.idle {i : CoreIn × Instant} {ip : Ipv4Addr} {p q : Peer} (haddr : p.addr = ip)
    (ha : sentTo ip (c.step i).2 = []) (hasked : c.asked i ip = false)
    (hs : q.sending = p.sending) (hr : q.receiving = p.receiving) :
    c.Moved i ip p q [] [] [] :=
  .of_acts haddr (show _ = sentTo ip [] from ha) (by rw [hs, hasked]; exact .keep _) rfl
    (by rw [hr]; exact .keep _)
    (.nil p)

theorem asked_of_routing_none {i : CoreIn × Instant} {ip : Ipv4Addr} (h : i.1.routing ip = none) :
    c.asked i ip = false := by
  unfold asked
  rw [h]
  cases c.subject i ip <;> rfl

/-- An input whose address has no entry leaves it without one and sends it nothing. -/
theorem no_subject (hf : c.Filed) {i : CoreIn × Instant} {ip : Ipv4Addr}
    (h : c.subject i ip = none) : c.entryStep i ip = none ∧ sentTo ip (c.step i).2 = [] := by
  obtain ⟨i, now⟩ := i
  cases i with
  | batch ops => exact ⟨h, rfl⟩
  | packet «from» bytes =>
    refine ⟨?_, by rw [sentTo_packet hf, h]⟩
    unfold entryStep
    unfold subject at h
    by_cases hip : «from» = ip
    · cases hb : Aurp.parse bytes with
      | none => simpa [hip, hb] using h
      | some pkt =>
        have hr : c.recipient ip now = none := by simpa [hip, hb] using h
        simp [hip, hb, hr]
    · simpa [hip] using h
  | tick => exact ⟨by simp [entryStep, show c.entry ip = none from h], (sentTo_tick hf ip now).1 h⟩
  | resolved name addr =>
    refine ⟨?_, rfl⟩
    unfold entryStep
    unfold subject at h
    dsimp only at h ⊢
    split_ifs at h with h1
    cases ha : c.entry addr with
    | none =>
      have hne : addr ≠ ip := fun he => h1 ⟨he, ha⟩
      simp [hne, h]
    | some p =>
      have hne : addr ≠ ip := fun he => by simp [← he, ha] at h
      simp [hne, h]
  | ping => exact ⟨by simp [entryStep, show c.entry ip = none from h], (sentTo_ping hf ip now).1 h⟩
  | pingReport =>
    refine ⟨?_, rfl⟩
    have hn : c.peers.peers.get? ip = none := h
    rcases samePeers_pingReport c.peers ip with he | he <;> simp [entryStep, he, hn]
  | shutdown =>
    exact ⟨by simp [entryStep, show c.entry ip = none from h], (sentTo_shutdown hf ip now).1 h⟩

/-- **The moves of an input.** The entry it acts on makes one move of each connection, sends what
those moves send, and stays unless it is evicted or its name has moved. -/
theorem exists_move (hf : c.Filed) (hok : c.Ok) {i : CoreIn × Instant} {ip : Ipv4Addr} {p : Peer}
    (hp : c.subject i ip = some p) :
    ∃ q sent opens acks, c.Moved i ip p q sent opens acks ∧
      (c.entryStep i ip = some q ∨ c.entryStep i ip = none ∧ Drops i p q) := by
  have haddr := subject_addr hf hp
  have hsok := hok.subject hp
  obtain ⟨i, now⟩ := i
  cases i with
  | batch ops =>
    exact ⟨p, [], [], [], .idle haddr rfl (asked_of_routing_none rfl) rfl rfl, Or.inl hp⟩
  | packet «from» bytes =>
    have hsent := sentTo_packet hf «from» ip bytes now
    rw [hp] at hsent
    by_cases hip : «from» = ip
    swap
    · refine ⟨p, [], [], [], .idle haddr ?_ (asked_of_routing_none ?_) rfl rfl, Or.inl ?_⟩
      · rw [hsent]
        cases Aurp.parse bytes with
        | none => rfl
        | some pkt => cases pkt <;> simp [hip]
      · simp [CoreIn.routing, hip]
      · simpa [subject, entryStep, hip] using hp
    subst hip
    cases hb : Aurp.parse bytes with
    | none =>
      rw [hb] at hsent
      refine ⟨p, [], [], [], .idle haddr hsent (asked_of_routing_none ?_) rfl rfl, Or.inl ?_⟩
      · simp [CoreIn.routing, hb]
      · simpa [subject, entryStep, hb] using hp
    | some pkt =>
      rw [hb] at hsent
      have hrec : c.recipient «from» now = some p := by simpa [subject, hb] using hp
      have hstep : c.entryStep (.packet «from» bytes, now) «from» =
          some (p.received «from» pkt c.tables now) := by simp [entryStep, hb, hrec]
      cases pkt with
      | data dh ddp =>
        exact ⟨p.received «from» (.data dh ddp) c.tables now, [], [], [], .idle haddr hsent
          (asked_of_routing_none (by simp [CoreIn.routing, hb])) rfl rfl, Or.inl hstep⟩
      | routing dh conn seq cmd =>
        have hrt : CoreIn.routing «from» (.packet «from» bytes) = some (conn, seq, cmd) := by
          simp [CoreIn.routing, hb]
        have hask : c.asked (.packet «from» bytes, now) «from» = p.asks conn cmd := by
          simp [asked, hp, hrt]
        simp only [if_true] at hsent
        obtain ⟨sent, hs, hd⟩ := (p.named dh «from»).routing_sending conn seq cmd c.tables now
        obtain ⟨opens, acks, hr, hrep⟩ :=
          (p.named dh «from»).routing_receiving conn seq cmd c.tables now
        refine ⟨_, sent, opens, acks, .of_acts haddr hsent ?_ hd ?_ hrep, Or.inl hstep⟩
        · rw [hask]
          exact hs
        · rw [hrt]
          exact hr
  | tick =>
    obtain ⟨t, ht⟩ := (sentTo_tick hf ip now).2 p hp
    obtain ⟨sent, hs, hd⟩ := Peer.timers_sending c.tables.export hsok
      (RECONNECT_SCAN ≤ since now c.peers.lastScan) (ZI_REREQUEST ≤ since now c.peers.lastZi) t now
    obtain ⟨opens, hr, hrep⟩ := Peer.timers_receiving hsok
      (RECONNECT_SCAN ≤ since now c.peers.lastScan) (ZI_REREQUEST ≤ since now c.peers.lastZi) t now
    refine ⟨_, sent, opens, [], .of_acts haddr ht ?_ hd hr hrep, ?_⟩
    · rw [asked_of_routing_none rfl]
      exact hs
    · have hentry : c.entry ip = some p := hp
      simp only [entryStep, hentry, Option.map_some, Drops, Option.filter_some]
      split_ifs with hk
      · exact Or.inl rfl
      · exact Or.inr ⟨rfl, by simpa using hk⟩
  | resolved name addr =>
    have hask : c.asked (.resolved name addr, now) ip = false := asked_of_routing_none rfl
    unfold subject at hp
    unfold entryStep
    dsimp only at hp ⊢
    split_ifs at hp with h1
    · obtain ⟨rfl, ha⟩ := h1
      cases hp
      refine ⟨_, [], [], [], .idle haddr rfl hask rfl rfl, Or.inl ?_⟩
      simp [ha]
    · cases ha : c.entry addr with
      | none =>
        have hne : addr ≠ ip := fun he => h1 ⟨he, ha⟩
        simp only [hne, if_false, hp, Option.filter_some]
        refine ⟨p, [], [], [], .idle haddr rfl hask rfl rfl, ?_⟩
        by_cases hc : p.configured = some name
        · exact Or.inr ⟨by simp [hc], rfl, hc⟩
        · exact Or.inl (by simp [hc])
      | some p' =>
        dsimp only
        split_ifs with he
        · subst he
          obtain rfl : p' = p := Option.some.inj (ha.symm.trans hp)
          exact ⟨{ p' with configured := some name }, [], [], [],
            .idle haddr rfl hask rfl rfl, Or.inl rfl⟩
        · exact ⟨p, [], [], [], .idle haddr rfl hask rfl rfl, Or.inl hp⟩
  | ping =>
    have hentry : c.entry ip = some p := hp
    refine ⟨p.pinged now, [], [], [], .of_acts haddr ((sentTo_ping hf ip now).2 p hp) ?_ ?_
      (p.pinged_receiving now) ?_, Or.inl (by simp [entryStep, hentry])⟩
    · rw [asked_of_routing_none rfl, p.pinged_sending]
      exact .keep _
    · unfold Peer.pingActs
      split_ifs
      · exact p.sentOf_send_nil p.connLocal 0 rfl
      · rfl
    · unfold Peer.pingActs
      split_ifs
      · exact p.reports_send p.connLocal 0 ⟨rfl, rfl⟩
      · exact .nil p
  | pingReport =>
    have hask : c.asked (.pingReport, now) ip = false := asked_of_routing_none rfl
    have hn : c.peers.peers.get? ip = some p := hp
    rcases samePeers_pingReport c.peers ip with he | he
    · exact ⟨p, [], [], [], .idle haddr rfl hask rfl rfl, Or.inl (he.trans hn)⟩
    · exact ⟨_, [], [], [], .idle (q := Peers.pingTaken p) haddr rfl hask rfl rfl,
        Or.inl (he.trans (by rw [hn]; rfl))⟩
  | shutdown =>
    have hentry : c.entry ip = some p := hp
    obtain ⟨sent, hs, hd⟩ := p.shut_sending c.tables.export now
    obtain ⟨hr, hrep⟩ := p.shut_receiving now
    refine ⟨p.shut now, sent, [], [], .of_acts haddr ((sentTo_shutdown hf ip now).2 p hp) ?_ hd ?_
      hrep, Or.inl (by simp [entryStep, hentry])⟩
    · rw [asked_of_routing_none rfl]
      exact hs
    · rw [hr]
      exact .keep _

/-- The next entry is what the moves left, with the reported events queued. -/
theorem next_of_move {i : CoreIn × Instant} {ip : Ipv4Addr} {p p' q : Peer}
    (hq : c.entryStep i ip = some q ∨ c.entryStep i ip = none ∧ Drops i p q)
    (hp' : (c.next i).entry ip = some p') : p' = q.hear (c.reported i) := by
  rw [next_entry] at hp'
  obtain ⟨q', hq', rfl⟩ := Option.map_eq_some_iff.1 hp'
  rcases hq with hq | hq
  · rw [Option.some.inj (hq.symm.trans hq')]
  · exact absurd (hq.1.symm.trans hq') (by simp)

/-- In every run the outstanding packet of an entry is the last it was sent. -/
theorem Ok.next (hok : c.Ok) (hf : c.Filed) (i : CoreIn × Instant) : (c.next i).Ok := by
  intro ip p hp
  cases hs : c.subject i ip with
  | none => simp [next_entry, (no_subject hf hs).1] at hp
  | some p' =>
    obtain ⟨q, sent, opens, acks, hm, hq⟩ := exists_move hf hok hs
    rw [next_of_move hq hp]
    have hqok := (hok.subject hs).move hm.sending
    unfold Peer.hear
    split_ifs
    · exact hqok
    · exact hqok

end Core

end AppleTalk
