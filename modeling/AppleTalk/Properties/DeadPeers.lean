import AppleTalk.Properties.Lifetimes
import AppleTalk.Properties.Orphans
import AppleTalk.Properties.Pings

/-!
# How long a dead peer is believed

The test of a connection is a watchdog, and a watchdog climbs a ladder whose first rung is its
silence and whose others are its probes. So once nothing comes from a connected peer any more, its
routes are gone after that silence and a retry and a gap between ticks for each Tickle, whatever the
other peers and the cables bring, and whatever the operator asks.
-/

namespace AppleTalk

open TableOp

/-- The ladder of the test of a connection. -/
def tickleLadder : Ladder := liveness.ladder (by decide)

namespace Peer

variable {p : Peer}

theorem hear_watch (p : Peer) (evs : List EventTuple) : (p.hear evs).watch = p.watch := by
  unfold hear
  split_ifs <;> rfl

theorem shut_watch (p : Peer) (now : Instant) : (p.shut now).watch = p.watch := by
  unfold shut
  split_ifs <;> rfl

/-- The connection to the peer is open, and its test climbs. -/
def Fading (gap start last : ℕ) (p : Peer) : Prop :=
  ∃ w, p.watch = some w ∧ w.Begun ∧ tickleLadder.Climbing gap start last w.rung

variable {gap start last now : ℕ}

theorem Fading.of_watch {q : Peer} (h : p.Fading gap start last) (hq : q.watch = p.watch) :
    q.Fading gap start last := by
  obtain ⟨w, hw, hrest⟩ := h
  exact ⟨w, hq.trans hw, hrest⟩

theorem Fading.pinged (h : p.Fading gap start last) (hgap : now ≤ last + gap) :
    (p.pinged now).Fading gap start last := by
  obtain ⟨w, hw, hbegun, hclimb⟩ := h
  refine ⟨Watchdog.poke now w, ?_, hbegun.poke, Watchdog.climbing_poke hclimb hgap⟩
  rw [pinged_watch, hw]
  rfl

/-- A tick moves the test on, or withdraws the routes of the peer. -/
theorem Fading.timed (h : p.Fading gap start last) (hgap : now ≤ last + gap) (scan : Bool) :
    p.ticklesOut now ∨ (p.timed scan now).Fading gap start now := by
  obtain ⟨w, hw, hbegun, hclimb⟩ := h
  cases ht : (Watchdog.tick liveness now w).1 with
  | none =>
    refine Or.inl ?_
    rw [ticklesOut_eq, hw, Option.any_some, ht]
    rfl
  | some w' =>
    refine Or.inr ⟨w', ?_, hbegun.tick ht, hclimb.tick hgap ?_⟩
    · rw [timed_watch, hw, Option.bind_some, ht]
    · rw [tickleLadder, ← Watchdog.tick_rung hbegun, ht]
      rfl

/-- A tick keeps a peer whose connection is open. -/
theorem Fading.keeps (h : p.Fading gap start last) : Peers.keeps now p := by
  obtain ⟨w, hw, -, -⟩ := h
  by_contra hk
  simp only [Peers.keeps, decide_eq_true_eq] at hk
  push Not at hk
  rw [watch, hk.2.1] at hw
  cases hw

/-- A connected peer that was last heard by the start. -/
theorem fading_of_connected (hr : p.receiver = .connected) (hheard : p.lastHeard ≤ start) :
    p.Fading gap start start := by
  refine ⟨.trusted p.lastHeard, ?_, trivial, Ladder.climbing_of_le (Nat.zero_le _) hheard⟩
  unfold watch
  rw [hr]

end Peer

/-! ### One input of the core -/

/-- The input is no packet from an address. -/
def CoreIn.NotFrom (ip : Ipv4Addr) (i : CoreIn) : Prop := ∀ bytes, i ≠ .packet ip bytes

namespace Core

variable {c : Core} {ip : Ipv4Addr} {gap start last : ℕ}

/-- A peer has no routes, or is about to lose them. -/
def FadingFrom (ip : Ipv4Addr) (gap start last : ℕ) (c : Core) : Prop :=
  Unrouted ip c.tables.routes ∨ ∃ p, c.entry ip = some p ∧ p.Fading gap start last

/-- The input learns nothing from the peer but by its packets, and moves no name away from it. -/
def Spares (ip : Ipv4Addr) (c : Core) (i : CoreIn × Instant) : Prop :=
  match i.1 with
  | .batch ops => ∀ op ∈ ops, op.adds ≠ some (.peer ip)
  | .resolved name addr => c.entry addr = none → ∀ p, c.entry ip = some p →
    p.configured ≠ some name
  | _ => True

/-- Only a packet from a peer adds routes through it. -/
theorem adds_of_notFrom (hf : c.Filed) {i : CoreIn × Instant} (hi : c.Spares ip i)
    (hq : i.1.NotFrom ip) : ∀ op ∈ c.ops i, op.adds ≠ some (.peer ip) := by
  intro op hop hadd
  obtain ⟨i, now⟩ := i
  cases i with
  | batch ops => exact hi op hop hadd
  | packet «from» bytes =>
    obtain ⟨rfl, -⟩ := packetOps_adds hf hop hadd
    exact hq bytes rfl
  | tick =>
    obtain ⟨_, _, -, -, rfl⟩ := tickOps_eq_removeTarget hf hop
    cases hadd
  | _ => cases hop

/-- The time of the last tick, after an input. -/
def ticked (last : Instant) (i : CoreIn × Instant) : Instant :=
  match i.1 with
  | .tick => i.2
  | _ => last

theorem ticked_of_ne {i : CoreIn × Instant} (h : i.1 ≠ .tick) : ticked last i = last := by
  obtain ⟨i, now⟩ := i
  cases i with
  | tick => exact absurd rfl h
  | _ => rfl

/-- What one input makes of a fading entry: it fades on, or this is the tick that gives it up. -/
theorem entryStep_fading {i : CoreIn × Instant} {p : Peer} (hp : c.entry ip = some p)
    (h : p.Fading gap start last) (hi : c.Spares ip i) (hq : i.1.NotFrom ip)
    (ht : i.2 ≤ last + gap) :
    (i.1 = .tick ∧ p.ticklesOut i.2) ∨
      ∃ q, c.entryStep i ip = some q ∧ q.Fading gap start (ticked last i) := by
  obtain ⟨i, now⟩ := i
  unfold entryStep
  cases i with
  | batch ops => exact Or.inr ⟨p, hp, h⟩
  | packet «from» bytes =>
    have hne : «from» ≠ ip := fun he => hq bytes (by rw [he])
    exact Or.inr ⟨p, (if_neg hne).trans hp, h⟩
  | tick =>
    dsimp only
    rw [hp, Option.map_some]
    rcases h.timed ht (RECONNECT_SCAN ≤ since now c.peers.lastScan) with hout | hfade
    · exact Or.inl ⟨rfl, hout⟩
    · exact Or.inr ⟨_, Option.filter_eq_some_iff.2 ⟨rfl, hfade.keeps⟩, hfade⟩
  | resolved name addr =>
    dsimp only
    by_cases haddr : addr = ip
    · subst haddr
      rw [hp]
      exact Or.inr ⟨_, if_pos rfl, h.of_watch rfl⟩
    · cases ha : c.entry addr with
      | some q => exact Or.inr ⟨p, (if_neg haddr).trans hp, h⟩
      | none =>
        rw [if_neg haddr, hp]
        exact Or.inr ⟨p, by simp [hi ha p hp], h⟩
  | ping => exact Or.inr ⟨_, congrArg (Option.map _) hp, h.pinged ht⟩
  | pingReport =>
    rcases samePeers_pingReport c.peers ip with he | he
    · exact Or.inr ⟨p, he.trans hp, h⟩
    · exact Or.inr ⟨_, he.trans (congrArg (Option.map _) hp), h.of_watch rfl⟩
  | shutdown => exact Or.inr ⟨_, congrArg (Option.map _) hp, h.of_watch (p.shut_watch now)⟩

/-- **One input** that is no packet from the peer. -/
theorem FadingFrom.next (h : c.FadingFrom ip gap start last) (hf : c.Filed)
    {i : CoreIn × Instant} (hi : c.Spares ip i) (hq : i.1.NotFrom ip)
    (ht : i.2 ≤ last + gap) : (c.next i).FadingFrom ip gap start (ticked last i) := by
  have hadds := adds_of_notFrom hf hi hq
  rcases h with hun | ⟨p, hp, hfade⟩
  · refine Or.inl ?_
    rw [next_tables]
    exact Unrouted.after hun hadds
  · rcases entryStep_fading hp hfade hi hq ht with ⟨hi', hout⟩ | ⟨q, hstep, hq'⟩
    · refine Or.inl ?_
      obtain ⟨i, now⟩ := i
      obtain rfl : i = .tick := hi'
      rw [next_tables]
      refine unrouted_of_removed (Peers.mem_tickOps.2 ⟨ip, p, hp, hout, ?_⟩) hadds
      rw [hf ip p hp]
    · refine Or.inr ⟨q.hear (c.reported i), ?_, hq'.of_watch (q.hear_watch _)⟩
      rw [next_entry, hstep]
      rfl

/-- **A run of inputs** before the next tick. -/
theorem FadingFrom.after {is : List (CoreIn × Instant)} (h : c.FadingFrom ip gap start last)
    (hf : c.Filed)
    (hq : ∀ i ∈ is, i.1.NotFrom ip ∧ i.1 ≠ .tick ∧ i.2 ≤ last + gap ∧ ∀ c, Spares ip c i) :
    (c.after is).FadingFrom ip gap start last := by
  induction is generalizing c with
  | nil => exact h
  | cons i is ih =>
    obtain ⟨⟨hnot, htick, ht, hi⟩, hrest⟩ := List.forall_mem_cons.1 hq
    have hstep := h.next hf (hi c) hnot ht
    rw [ticked_of_ne htick] at hstep
    exact ih hstep (hf.next i) hrest

end Core

/-! ### Runs -/

namespace Router

variable {host : Host} {r : Router} {ip : Ipv4Addr} {gap start last : ℕ}

/-- The event is no datagram from an address. -/
def Event.NotFrom (ip : Ipv4Addr) (e : Event) : Prop := ∀ bytes, e ≠ .input (.aurp ip bytes)

/-- The event moves no configured name away from the address. -/
def KeepsName (ip : Ipv4Addr) (r : Router) (e : Event × Instant) : Prop :=
  ∀ name addr, e.1 = .resolved name addr → r.peers.peers.get? addr = none →
    ∀ p, r.peers.peers.get? ip = some p → p.configured ≠ some name

theorem input_of_mem_inboundInputs {q : Router} {id : PortId} {inb : Inbound}
    {body : Ddp → Option DdpBody} {now : Instant} {i : CoreIn × Instant}
    (hi : i ∈ q.inboundInputs id inb body now) (ip : Ipv4Addr) :
    i.2 = now ∧ i.1.NotFrom ip ∧ i.1 ≠ .tick ∧ ∀ c, Core.Spares ip c i := by
  unfold inboundInputs at hi
  split at hi
  · split at hi
    · rw [List.mem_singleton.1 hi]
      exact ⟨rfl, by simp [CoreIn.NotFrom], by simp,
        fun c op hop => serviceOps_adds q _ _ _ now op hop ip⟩
    · cases hi
  · cases hi

/-- The inputs of an event that is no tick and resolves no name. -/
theorem input_of_mem_coreInputs {e : Event × Instant} {i : CoreIn × Instant}
    (hi : i ∈ r.coreInputs host e) (hq : e.1.NotFrom ip) (htick : e.1.isTick = false)
    (hres : ∀ name addr, e.1 ≠ .resolved name addr) :
    i.2 = e.2 ∧ i.1.NotFrom ip ∧ i.1 ≠ .tick ∧ ∀ c, Core.Spares ip c i := by
  obtain ⟨e, now⟩ := e
  unfold coreInputs at hi
  cases e with
  | input j =>
    cases j with
    | ether id packet =>
      dsimp only at hi
      split at hi
      · cases hi
      · exact input_of_mem_inboundInputs hi ip
    | llap id l =>
      dsimp only at hi
      split at hi
      · cases hi
      · exact input_of_mem_inboundInputs hi ip
    | aurp «from» bytes =>
      rcases List.mem_cons.1 hi with rfl | hi
      · refine ⟨rfl, fun bytes' he => ?_, by simp, fun c => trivial⟩
        cases he
        exact hq bytes rfl
      · split at hi
        · rw [List.mem_singleton.1 hi]
          exact ⟨rfl, by simp [CoreIn.NotFrom], by simp,
            fun c op hop => serviceOps_adds r _ _ _ now op hop ip⟩
        · cases hi
    | tick => cases htick
    | ping | pingReport =>
      rw [List.mem_singleton.1 hi]
      exact ⟨rfl, by simp [CoreIn.NotFrom], by simp, fun c => trivial⟩
  | resolved name addr => exact absurd rfl (hres name addr)
  | shutdown =>
    rw [List.mem_singleton.1 hi]
    exact ⟨rfl, by simp [CoreIn.NotFrom], by simp, fun c => trivial⟩

/-- **One event** that is no datagram from the peer. -/
theorem fadingFrom_event {e : Event × Instant} (h : r.core.FadingFrom ip gap start last)
    (hf : r.core.Filed) (hk : r.KeepsName ip e) (hq : e.1.NotFrom ip) (ht : e.2 ≤ last + gap) :
    (r.event host e).1.core.FadingFrom ip gap start (ticked last e) := by
  rw [event_core]
  obtain ⟨e, now⟩ := e
  by_cases htick : e.isTick
  · obtain rfl := Event.isTick_iff.1 htick
    have hage : (r.core.next (.batch [.age now], now)).FadingFrom ip gap start last :=
      h.next hf (by simp [Core.Spares, adds]) (by simp [CoreIn.NotFrom]) ht
    exact Core.FadingFrom.next hage (hf.next _) trivial (by simp [CoreIn.NotFrom]) ht
  · rw [show ticked last (e, now) = last from if_neg htick]
    by_cases hres : ∃ name addr, e = .resolved name addr
    · obtain ⟨name, addr, rfl⟩ := hres
      exact h.next hf (hk name addr rfl) (by simp [CoreIn.NotFrom]) ht
    · push Not at hres
      refine h.after hf fun i hi => ?_
      obtain ⟨hnow, hnot, hno, hspares⟩ :=
        input_of_mem_coreInputs hi hq (by simpa using htick) hres
      exact ⟨hnot, hno, hnow ▸ ht, hspares⟩

/-- **A run** in which nothing comes from the peer. -/
theorem fadingFrom_after {es : List (Event × Instant)} (h : r.core.FadingFrom ip gap start last)
    (hf : r.core.Filed)
    (hk : Machine.Guarded (fun r e => (event host r e).1) (KeepsName ip) r es)
    (hq : ∀ e ∈ es, e.1.NotFrom ip) (ht : Paced gap last es) :
    (r.after host es).core.FadingFrom ip gap start (lastTick last es) := by
  induction es generalizing r last with
  | nil => exact h
  | cons e es ih =>
    obtain ⟨he, hes⟩ := List.forall_mem_cons.1 hq
    have hf' : (r.event host e).1.core.Filed := by
      rw [event_core]
      exact Machine.run_invariant (fun c i hc => hc.next i) hf _
    exact ih (fadingFrom_event h hf hk.1 he ht.1) hf' hk.2 hes ht.2

/-- **A dead peer is given up.** Once nothing has come from a connected peer for its silence, and a
retry and a gap between ticks for each Tickle, no route through it is left. -/
theorem dead_peer_given_up (h : Reachable host r) {p : Peer}
    (hp : r.peers.peers.get? ip = some p) (hr : p.receiver = .connected)
    (hheard : p.lastHeard ≤ start) {es : List (Event × Instant)}
    (hk : Machine.Guarded (fun r e => (event host r e).1) (KeepsName ip) r es)
    (hq : ∀ e ∈ es, e.1.NotFrom ip) (ht : Paced gap start es)
    (hlong : start + LAST_HEARD + 1 + TICKLE_RETRIES * (RETRY + gap) ≤ lastTick start es) :
    ∀ q ∈ (r.after host es).tables.routes, q.target ≠ .peer ip := by
  have hstart : r.core.FadingFrom ip gap start start :=
    Or.inr ⟨p, hp, Peer.fading_of_connected hr hheard⟩
  rcases fadingFrom_after hstart h.filed hk hq ht with hun | ⟨p', -, w, -, -, hclimb⟩
  · exact hun
  · have hlt := hclimb.lt_ends
    rw [tickleLadder, Watchdog.ends_ladder] at hlt
    exact absurd hlong (Nat.not_le.2 hlt)

/-- The small router after a peer has told it of network 20. -/
def taught : Router := small.after .lowest (learnedFrom ⟨192, 0, 2, 1⟩)

/-- The entry of that peer. -/
def teacher : Peer := (taught.peers.peers.get? ⟨192, 0, 2, 1⟩).get (by decide +kernel)

/-- A tick every ten seconds from then on. -/
def thirtyTicks : List (Event × Instant) :=
  (List.range 30).map fun k => (.input .tick, fromSecs 20 + (k + 1) * RETRY)

theorem dead_peer_given_up_taught :
    (∃ q ∈ taught.tables.routes, q.target = .peer ⟨192, 0, 2, 1⟩) ∧
      ∀ q ∈ (taught.after .lowest thirtyTicks).tables.routes, q.target ≠ .peer ⟨192, 0, 2, 1⟩ := by
  have hreach : Reachable .lowest taught := ⟨small, learnedFrom ⟨192, 0, 2, 1⟩, small_built, rfl⟩
  have hentry : taught.peers.peers.get? ⟨192, 0, 2, 1⟩ = some teacher := (Option.some_get _).symm
  have hconnected : teacher.receiver = .connected := by decide +kernel
  have hheard : teacher.lastHeard ≤ fromSecs 20 := by decide +kernel
  have htick : ∀ e ∈ thirtyTicks, e.1 = .input .tick := fun e he => by
    obtain ⟨k, -, rfl⟩ := List.mem_map.1 he
    rfl
  have hnames : Machine.Guarded (fun r e => (event .lowest r e).1) (KeepsName ⟨192, 0, 2, 1⟩)
      taught thirtyTicks :=
    (Machine.guarded_of_forall htick).mono fun r e he name addr hres => by
      rw [he] at hres
      cases hres
  have hquiet : ∀ e ∈ thirtyTicks, e.1.NotFrom ⟨192, 0, 2, 1⟩ := fun e he bytes hfrom => by
    rw [htick e he] at hfrom
    cases hfrom
  have hpaced : Paced RETRY (fromSecs 20) thirtyTicks := by decide +kernel
  have hlong : fromSecs 20 + LAST_HEARD + 1 + TICKLE_RETRIES * (RETRY + RETRY) ≤
      lastTick (fromSecs 20) thirtyTicks := by decide +kernel
  have hknown : ∃ q ∈ taught.tables.routes, q.target = .peer ⟨192, 0, 2, 1⟩ := by decide +kernel
  exact ⟨hknown, dead_peer_given_up hreach hentry hconnected hheard hnames hquiet hpaced hlong⟩

end Router

end AppleTalk
