import AppleTalk.Properties.Provenance

/-!
# Tunnel routes and their peers

A route through a tunnel names a peer with an entry, in every run that drops no entry while routes
through it remain. Two places drop an entry without a look at the table: a configured name that
resolves to another address, and the eviction of an idle peer.
-/

namespace AppleTalk

open TableOp

/-- No route is through a peer that has no entry. -/
def NoOrphans (c : Core) : Prop :=
  ∀ q ∈ c.tables.routes, ∀ ip, q.target = .peer ip → (c.entry ip).isSome

/-- No route is through this peer. -/
def Unrouted (ip : Ipv4Addr) (rs : List Route) : Prop := ∀ q ∈ rs, q.target ≠ .peer ip

/-! ### Where routes come from -/

namespace TableOp

/-- The target an operation may add a route through. -/
def adds : TableOp → Option Target
  | .learn _ g _ _ => some g
  | _ => none

theorem target_mem_routes {op : TableOp} {rs : List Route} {r : Route} (h : r ∈ op.routes rs) :
    (∃ q ∈ rs, q.target = r.target) ∨ op.adds = some r.target := by
  by_cases hl : ∃ x g next now, op = .learn x g next now
  · obtain ⟨x, g, next, now, rfl⟩ := hl
    simp only [TableOp.routes] at h
    split_ifs at h
    · exact Or.inl ⟨r, h, rfl⟩
    · rcases Tables.mem_learnRoutes h with h | ⟨q, hq, -, -, rfl⟩ | ⟨-, -, rfl⟩
      · exact Or.inl ⟨r, h, rfl⟩
      · exact Or.inl ⟨q, hq, rfl⟩
      · exact Or.inr rfl
  · push Not at hl
    rw [routes_eq_filterMap hl] at h
    obtain ⟨q, hq, hqr⟩ := List.mem_filterMap.1 h
    exact Or.inl ⟨q, hq, (onRoute_same hqr).2.1.symm⟩

/-- A peer without routes has none after operations that learn nothing from it. -/
theorem Unrouted.after {ip : Ipv4Addr} {t : Tables} {ops : List TableOp}
    (h : Unrouted ip t.routes) (hops : ∀ op ∈ ops, op.adds ≠ some (.peer ip)) :
    Unrouted ip (TableOp.after t ops).routes := by
  induction ops generalizing t with
  | nil => exact h
  | cons op ops ih =>
    refine ih (t := (op.apply t).1) (fun r hr he => ?_) fun op hop => hops op (by simp [hop])
    rw [apply_routes] at hr
    rcases target_mem_routes hr with ⟨q, hq, hqr⟩ | hadd
    · exact h q hq (hqr.trans he)
    · exact hops op (by simp) (he ▸ hadd)

/-- A peer whose routes are removed has none at the end. -/
theorem unrouted_of_removed {ip : Ipv4Addr} {t : Tables} {ops : List TableOp}
    (hrem : .removeTarget (.peer ip) ∈ ops) (hops : ∀ op ∈ ops, op.adds ≠ some (.peer ip)) :
    Unrouted ip (TableOp.after t ops).routes := by
  induction ops generalizing t with
  | nil => cases hrem
  | cons op ops ih =>
    rcases List.mem_cons.1 hrem with rfl | hrem
    · refine Unrouted.after (t := (apply t (.removeTarget (.peer ip))).1) (fun q hq => ?_)
        fun op hop => hops op (by simp [hop])
      rw [apply_routes] at hq
      simpa using (List.mem_filter.1 hq).2
    · exact ih (t := (op.apply t).1) hrem fun op hop => hops op (by simp [hop])

end TableOp

/-! ### Who is evicted -/

namespace Peer

/-- The tick closes both connections of this entry, if they are not closed already, and nobody
configured it: it is evicted, and nothing removes its routes. -/
def expires (p : Peer) (now : Instant) : Bool :=
  p.configured = none ∧ LAST_HEARD ≤ since now p.lastHeard ∧
    (p.receiver = .unconnected ∨
      (p.receiver = .waitOpenRsp ∨ p.receiver = .waitRiRsp) ∧ RETRY ≤ since now p.recvAt ∧
        RETRIES ≤ p.recvTries) ∧
    (p.sender = .unconnected ∨
      p.outstanding.any fun o => decide (RETRY ≤ since now o.at ∧ RETRIES ≤ o.tries))

theorem senderTimers_unconnected {p : Peer} {now : Instant}
    (h : (p.senderTimers now).1.sender = .unconnected) :
    p.sender = .unconnected ∨
      p.outstanding.any fun o => decide (RETRY ≤ since now o.at ∧ RETRIES ≤ o.tries) := by
  have ht := p.senderTimers_timed now
  generalize p.senderTimers now = r at ht h
  cases ht with
  | spent ho hdue htries => exact Or.inr (by simp [ho, hdue, htries])
  | updated => cases h
  | _ => exact Or.inl h

theorem receiverTimers_heard (p : Peer) (tables : Tables) (now : Instant) :
    (p.receiverTimers tables now).peer.lastHeard = p.lastHeard := by
  have h := p.receiverTimers_timed tables now
  generalize p.receiverTimers tables now = r at h ⊢
  cases h <;> rfl

/-- The connection we opened ends in a tick because it was closed, because nobody answered its
Open-Req or RI-Req, or because nobody answered its tickles. -/
theorem receiverTimers_unconnected {p : Peer} {tables : Tables} {now : Instant}
    (h : (p.receiverTimers tables now).peer.receiver = .unconnected)
    (ht : p.ticklesOut now = false) :
    (p.receiver = .unconnected ∨
      (p.receiver = .waitOpenRsp ∨ p.receiver = .waitRiRsp) ∧ RETRY ≤ since now p.recvAt ∧
        RETRIES ≤ p.recvTries) ∧
      (p.receiverTimers tables now).peer.sender = p.sender ∧
      (p.receiverTimers tables now).peer.outstanding = p.outstanding := by
  have htimed := p.receiverTimers_timed tables now
  generalize p.receiverTimers tables now = r at htimed h ⊢
  have hno : p.receiver = .waitTickleAck → RETRY ≤ since now p.recvAt →
      ¬TICKLE_RETRIES ≤ p.recvTries := by
    intro hr hdue htries
    simp [ticklesOut, hr, hdue, htries] at ht
  cases htimed with
  | idle => exact ⟨Or.inl h, rfl, rfl⟩
  | unanswered hr hdue htries => exact ⟨Or.inr ⟨hr, hdue, htries⟩, rfl, rfl⟩
  | reopened hr | asked hr | retested hr => cases hr.symm.trans h
  | tested => cases h
  | lost hr hdue htries | probed hr hdue htries => exact absurd htries (hno hr hdue)

/-- An entry a tick evicts has expired, or its tickles went unanswered. -/
theorem expires_of_evicted {p : Peer} {scan : Bool} {now : Instant}
    (h : Peers.keeps now (p.timed scan now) = false) (ht : p.ticklesOut now = false) :
    p.expires now := by
  simp only [Peers.keeps, decide_eq_false_iff_not, not_or, not_not, not_lt] at h
  obtain ⟨hc, hr, hs, hh⟩ := h
  simp only [timed] at hc hr hs hh
  rw [configured_eq (senderTimers_identity _ now),
    configured_eq (receiverTimers_identity _ _ now)] at hc
  have hre : (if scan then p.reconnect now else (p, .nil)).1 = p := by
    rcases p.scan_cases scan now with hscan | ⟨hconf, -, hscan⟩
    · rw [hscan]
    · rw [hscan] at hc
      exact absurd hc hconf
  rw [hre] at hc hr hs hh
  rw [(senderTimers_kept _ now).1] at hr
  obtain ⟨hr1, hr2, hr3⟩ := receiverTimers_unconnected hr ht
  rw [(senderTimers_kept _ now).2, receiverTimers_heard] at hh
  have hs1 := senderTimers_unconnected hs
  rw [hr2, hr3] at hs1
  simp only [expires, decide_eq_true_eq]
  exact ⟨hc, hh, hr1, hs1⟩

end Peer

/-! ### One input of the core -/

/-- The input drops no entry that routes go through. A batch of the services learns through ports
only. -/
def CoreIn.KeepsRouted (c : Core) (i : CoreIn × Instant) : Prop :=
  match i.1 with
  | .batch ops => ∀ op ∈ ops, ∀ ip, op.adds ≠ some (.peer ip)
  | .tick => ∀ ip p, c.entry ip = some p → p.expires i.2 → Unrouted ip c.tables.routes
  | .resolved name addr => c.entry addr = none → ∀ ip p, c.entry ip = some p →
    p.configured = some name → Unrouted ip c.tables.routes
  | _ => True

/-- A packet makes operations that learn from its sender alone, and only if it has an entry. -/
theorem packetOps_adds {c : Core} (h : c.Filed) {«from» ip : Ipv4Addr} {bytes : Bytes}
    {now : Instant} {op : TableOp} (hop : op ∈ c.ops (.packet «from» bytes, now))
    (hadd : op.adds = some (.peer ip)) : «from» = ip ∧ (c.entry ip).isSome := by
  obtain ⟨_, conn, seq, cmd, p, -, hp, hop⟩ := Peers.mem_packetOps hop
  have hvia := p.routingOps_onlyVia conn seq cmd _ now op hop
  rw [h «from» p hp] at hvia
  cases op with
  | learn x g next now =>
    obtain rfl : g = .peer «from» := hvia
    obtain rfl : «from» = ip := by simpa [adds] using hadd
    exact ⟨rfl, by simp [Core.entry, hp]⟩
  | _ => cases hadd

theorem tickOps_eq_removeTarget {c : Core} (h : c.Filed) {now : Instant} {op : TableOp}
    (hop : op ∈ c.ops (.tick, now)) :
    ∃ ip p, c.entry ip = some p ∧ p.ticklesOut now ∧ op = .removeTarget (.peer ip) := by
  obtain ⟨ip, p, hp, ht, rfl⟩ := Peers.mem_tickOps.1 hop
  exact ⟨ip, p, hp, ht, by rw [h ip p hp]⟩

/-- An entry that an input drops has no route left. -/
theorem unrouted_of_dropped {c : Core} (hf : c.Filed) {i : CoreIn × Instant}
    (hi : CoreIn.KeepsRouted c i) {ip : Ipv4Addr} {p : Peer} (hp : c.entry ip = some p)
    (hdrop : c.entryStep i ip = none) : Unrouted ip (c.next i).tables.routes := by
  obtain ⟨i, now⟩ := i
  rw [Core.next_tables]
  unfold Core.entryStep at hdrop
  cases i with
  | batch ops => simp [hp] at hdrop
  | packet «from» bytes =>
    dsimp only at hdrop
    split_ifs at hdrop
    · split at hdrop
      · simp [hp] at hdrop
      · simp [Core.recipient, hp] at hdrop
    · simp [hp] at hdrop
  | tick =>
    have hno : ∀ op ∈ c.ops (.tick, now), op.adds ≠ some (.peer ip) := fun op hop => by
      obtain ⟨_, _, -, -, rfl⟩ := tickOps_eq_removeTarget hf hop
      simp [adds]
    simp only [hp, Option.map_some, Option.filter_eq_none_iff, Option.some.injEq,
      forall_eq', Bool.not_eq_true] at hdrop
    by_cases ht : p.ticklesOut now
    · refine unrouted_of_removed (Peers.mem_tickOps.2 ⟨ip, p, hp, ht, ?_⟩) hno
      rw [hf ip p hp]
    · exact Unrouted.after (hi ip p hp (Peer.expires_of_evicted hdrop (by simpa using ht))) hno
  | resolved name addr =>
    dsimp only at hdrop
    split at hdrop
    · split_ifs at hdrop
      simp [hp] at hdrop
    · rename_i ha
      split_ifs at hdrop with he
      refine hi ha ip p hp ?_
      by_contra hne
      simp [hp, hne] at hdrop
  | ping => simp [hp] at hdrop
  | pingReport =>
    rcases Core.samePeers_pingReport c.peers ip with he | he
    · rw [he] at hdrop
      exact absurd (hp.symm.trans hdrop) (by simp)
    · rw [he, Option.map_eq_none_iff] at hdrop
      exact absurd (hp.symm.trans hdrop) (by simp)
  | shutdown => simp [hp] at hdrop

/-- **One input** that drops no routed entry leaves no orphan. -/
theorem NoOrphans.next {c : Core} (h : NoOrphans c) (hf : c.Filed) {i : CoreIn × Instant}
    (hi : CoreIn.KeepsRouted c i) : NoOrphans (c.next i) := by
  intro r hr ip hrip
  by_contra hnone
  have hstep : c.entryStep i ip = none := by
    rw [Core.next_entry, Option.isSome_map, Option.not_isSome_iff_eq_none] at hnone
    exact hnone
  cases hp : c.entry ip with
  | some p => exact unrouted_of_dropped hf hi hp hstep r hr hrip
  | none =>
    -- Without an entry there was no route, and only a packet from the peer could add one.
    have hun : Unrouted ip c.tables.routes := fun q hq he => by
      simpa [hp] using h q hq ip he
    rw [Core.next_tables] at hr
    refine Unrouted.after hun (fun op hop hadd => ?_) r hr hrip
    obtain ⟨i, now⟩ := i
    cases i with
    | batch ops => exact hi op hop ip hadd
    | packet «from» bytes => simpa [hp] using (packetOps_adds hf hop hadd).2
    | tick =>
      obtain ⟨_, _, -, -, rfl⟩ := tickOps_eq_removeTarget hf hop
      simp [adds] at hadd
    | _ => cases hop

/-! ### Runs of the router -/

theorem serviceOps_adds (r : Router) (origin : Origin) (ddp : Ddp) (body : DdpBody)
    (now : Instant) : ∀ op ∈ r.serviceOps origin ddp body now, ∀ ip,
      op.adds ≠ some (.peer ip) := by
  intro op hop ip hadd
  rcases Router.mem_serviceOps hop with ⟨id, x, sender, -, rfl⟩ | ⟨_, _, _, rfl⟩
  · simp [adds] at hadd
  · cases hadd

namespace Router

variable {host : Host}

/-- The event drops no entry while routes go through it: no idle peer that this tick evicts has a
route left, and no configured name moves away from an address with routes. -/
def KeepsRouted (r : Router) (e : Event × Instant) : Prop :=
  match e.1 with
  | .input .tick => ∀ ip p, r.peers.peers.get? ip = some p → p.expires e.2 →
    Unrouted ip r.tables.routes
  | .resolved name addr => r.peers.peers.get? addr = none → ∀ ip p,
    r.peers.peers.get? ip = some p → p.configured = some name → Unrouted ip r.tables.routes
  | _ => True

theorem batch_keepsRouted (c : Core) (r : Router) (origin : Origin) (ddp : Ddp) (body : DdpBody)
    (now : Instant) : CoreIn.KeepsRouted c (.batch (r.serviceOps origin ddp body now), now) :=
  serviceOps_adds r origin ddp body now

theorem inboundInputs_keepsRouted (r : Router) (id : PortId) (i : Inbound)
    (body : Ddp → Option DdpBody) (now : Instant) (c : Core) :
    Machine.Guarded Core.next CoreIn.KeepsRouted c (r.inboundInputs id i body now) := by
  unfold inboundInputs
  cases i with
  | ddp d =>
    dsimp only
    cases body d with
    | none => trivial
    | some b => exact ⟨batch_keepsRouted c r _ d b now, trivial⟩
  | _ => trivial

/-- The core's inputs of such an event drop no routed entry either. -/
theorem KeepsRouted.coreInputs {r : Router} {e : Event × Instant} (h : r.KeepsRouted e) :
    Machine.Guarded Core.next CoreIn.KeepsRouted r.core (r.coreInputs host e) := by
  obtain ⟨e, now⟩ := e
  cases e with
  | input i =>
    cases i with
    | ether id packet =>
      simp only [Router.coreInputs]
      cases r.port id with
      | none => trivial
      | some p => exact inboundInputs_keepsRouted _ _ _ _ _ _
    | llap id l =>
      simp only [Router.coreInputs]
      cases r.port id with
      | none => trivial
      | some p => exact inboundInputs_keepsRouted _ _ _ _ _ _
    | aurp «from» bytes =>
      simp only [Router.coreInputs]
      refine ⟨trivial, ?_⟩
      cases (r.peers.packet «from» bytes r.tables now).ddp.bind Ddp.parse with
      | none => trivial
      | some d => exact ⟨batch_keepsRouted _ r _ d _ now, trivial⟩
    | tick =>
      refine ⟨fun op hop ip => ?_, fun ip p hp hex => ?_, trivial⟩
      · rw [List.mem_singleton.1 hop]
        simp [adds]
      · -- Aging touches no route through a peer and no entry.
        rw [Core.next_entry] at hp
        obtain ⟨q, hq, rfl⟩ := Option.map_eq_some_iff.1 hp
        rw [Core.next_tables]
        refine Unrouted.after (h ip q hq ?_) fun op hop => ?_
        · unfold Peer.hear Peer.expires at hex
          unfold Peer.expires
          split_ifs at hex <;> exact hex
        · rw [List.mem_singleton.1 hop]
          simp [adds]
    | ping => exact ⟨trivial, trivial⟩
    | pingReport => exact ⟨trivial, trivial⟩
  | resolved name addr => exact ⟨h, trivial⟩
  | shutdown => exact ⟨trivial, trivial⟩

theorem Built.noOrphans {r : Router} (h : Built host r) : NoOrphans r.core := by
  obtain ⟨cfg, kinds, now, -, -, rfl⟩ := h
  have hadd : ∀ (specs : List ((String × Kind) × (UInt16 × UInt16) × List Str)) (id : ℕ)
      (t : Tables), (∀ q ∈ t.routes, q.target.isPort) →
      ∀ q ∈ (addPorts host now id specs t).2.routes, q.target.isPort := by
    intro specs
    induction specs with
    | nil => exact fun _ _ ht => ht
    | cons s specs ih =>
      intro id t ht
      refine ih _ _ fun q hq => ?_
      rcases List.mem_append.1 hq with hq | hq
      · exact ht q hq
      · rw [List.mem_singleton.1 hq]
        rfl
  intro q hq ip hqip
  have := hadd _ 0 Tables.new (by simp [Tables.new]) q hq
  simp [hqip, Target.isPort] at this

/-- **No orphaned tunnel routes.** In every run of a built router that drops no entry while routes
go through it, every route through a peer is through one with an entry. -/
theorem no_orphaned_routes {r0 : Router} (h : Built host r0) {es : List (Event × Instant)}
    (hes : Machine.Guarded (fun r e => (event host r e).1) KeepsRouted r0 es) :
    ∀ q ∈ (r0.after host es).tables.routes, ∀ ip, q.target = .peer ip →
      ((r0.after host es).peers.peers.get? ip).isSome := by
  have := Machine.Guarded.invariant (I := fun r : Router => NoOrphans r.core ∧ r.core.Filed)
    (fun r e hr he => ?_) ⟨h.noOrphans, h.reachable.filed⟩ hes
  · exact this.1
  · rw [event_core]
    exact Machine.Guarded.invariant (I := fun c : Core => NoOrphans c ∧ c.Filed)
      (fun c i hc hi => ⟨hc.1.next hc.2 hi, hc.2.next i⟩) hr he.coreInputs

theorem no_orphaned_routes_small :
    ((small.after .lowest (learnedFrom ⟨192, 0, 2, 1⟩)).peers.peers.get?
      ⟨192, 0, 2, 1⟩).isSome := by
  have hroute : ((small.after .lowest (learnedFrom ⟨192, 0, 2, 1⟩)).tables.routes.any
      fun q => q.target = .peer ⟨192, 0, 2, 1⟩) = true := by decide +kernel
  obtain ⟨q, hq, htarget⟩ := List.any_eq_true.1 hroute
  refine @no_orphaned_routes _ _ small_built (learnedFrom ⟨192, 0, 2, 1⟩)
    ⟨fun _ ip p hp _ q hq => ?_, fun ip p _ _ q hq => ?_, trivial, trivial, trivial⟩ q hq _
    (by simpa using htarget)
  · cases hp
  · obtain rfl := List.mem_singleton.1 hq
    simp

/-- The name resolves to another address: the entry goes and the route through it stays. -/
theorem moved_name_orphans_route :
    ∃ r es, Built Host.lowest r ∧ ∃ q ∈ (r.after .lowest es).tables.routes, ∃ ip,
      q.target = .peer ip ∧ (r.after .lowest es).peers.peers.get? ip = none := by
  refine ⟨small, learnedFrom ⟨192, 0, 2, 1⟩ ++ [(.resolved ['P'] ⟨192, 0, 2, 2⟩, fromSecs 20)],
    small_built, ?_⟩
  have hroute : ((small.after .lowest (learnedFrom ⟨192, 0, 2, 1⟩ ++
      [(.resolved ['P'] ⟨192, 0, 2, 2⟩, fromSecs 20)])).tables.routes.any
        fun q => q.target = .peer ⟨192, 0, 2, 1⟩) = true := by decide +kernel
  obtain ⟨q, hq, htarget⟩ := List.any_eq_true.1 hroute
  exact ⟨q, hq, ⟨192, 0, 2, 1⟩, by simpa using htarget, by decide +kernel⟩

end Router

end AppleTalk
