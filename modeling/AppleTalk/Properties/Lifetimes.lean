import AppleTalk.Lib.Ladder
import AppleTalk.Properties.BadNews
import AppleTalk.Properties.Provenance
import AppleTalk.Router.Arrivals

/-!
# How long a silent router is remembered

A route learned off a cable is soft state on a ladder of four rungs, each held for a validity: only
RTMP Data from its next router confirms it, and a tick that finds it on a rung for longer moves it
on. So once a neighbour router falls silent on a cable, whatever else arrives there, on the other
cables and through the tunnels, no route through it outlives four validities and three gaps between
ticks.
-/

namespace AppleTalk

/-- The validity timer: good, suspect, bad and worst, each for a validity. -/
def validity : Ladder where
  hold _ := VALIDITY
  top := 3
  hold_pos _ := by decide

namespace Route

/-- The rung of a route. -/
def rung (r : Route) : Ladder.State := ⟨r.state.stage, r.seen⟩

/-- The route is the word of a router on a cable. -/
def Via (id : PortId) (next : Addr) (r : Route) : Prop :=
  r.target = .port id ∧ r.next = next ∧ r.direct = false

instance (id : PortId) (next : Addr) (r : Route) : Decidable (r.Via id next) :=
  inferInstanceAs (Decidable (_ ∧ _ ∧ _))

end Route

theorem State.stage_le (s : State) : s.stage ≤ validity.top := by
  cases s <;> decide

theorem State.aged_stage {s s' : State} (h : s.aged = some s') :
    s.stage < validity.top ∧ s'.stage = s.stage + 1 := by
  cases s <;> cases h <;> decide

theorem State.stage_eq_top_of_aged {s : State} (h : s.aged = none) : ¬s.stage < validity.top := by
  cases s
  case worst => exact lt_irrefl _
  all_goals cases h

/-- A tick of the router is a tick of the ladder. -/
theorem Route.ageRoute_rung {id : PortId} {next : Addr} {r : Route} (h : r.Via id next)
    (now : Instant) : (Tables.ageRoute now r).map Route.rung = validity.tick now r.rung := by
  unfold Tables.ageRoute Ladder.tick
  rw [if_neg (by simp [h.1, h.2.2, Target.isPeer])]
  show _ = if since now r.seen < VALIDITY then _ else _
  split_ifs with hfresh htop
  · rfl
  · cases ha : r.state.aged with
    | none => exact absurd htop (State.stage_eq_top_of_aged ha)
    | some s =>
      show some (Route.rung _) = _
      simp only [Route.rung, (State.aged_stage ha).2]
  · cases ha : r.state.aged with
    | none => rfl
    | some s => exact absurd (State.aged_stage ha).1 htop

/-! ### One operation -/

namespace TableOp

/-- An operation is not the word of a router on a cable. -/
def QuietOf (id : PortId) (next : Addr) : TableOp → Prop
  | .learn _ g n _ => (g, n) ≠ (.port id, next)
  | .setDistance g .. => g.isPeer
  | _ => True

variable {id : PortId} {next : Addr} {op : TableOp} {rs : List Route} {r : Route}

/-- Away from the tunnels an operation that is not the word of a router moves nothing, but an
expiry the age. -/
theorem QuietOf.onRoute_eq (h : op.QuietOf id next) {q : Route} (hg : q.target = .port id)
    (ho : op.onRoute q = some r) :
    r = q ∨ ∃ now, op = .age now ∧ r = { q with state := r.state, seen := r.seen } := by
  cases op with
  | age now =>
    refine Or.inr ⟨now, rfl, ?_⟩
    simp only [onRoute, Tables.ageRoute] at ho
    split_ifs at ho
    · obtain rfl := Option.some.inj ho
      rfl
    · obtain rfl := Option.some.inj ho
      rfl
    · obtain ⟨s, -, rfl⟩ := Option.map_eq_some_iff.1 ho
      rfl
  | setDistance g start distance now =>
    have hne : ¬(q.target = g ∧ q.range.1 = start) := by
      rintro ⟨rfl, -⟩
      rw [hg] at h
      cases h
    simp only [onRoute, if_neg hne] at ho
    exact Or.inl (Option.some.inj ho).symm
  | learn | addZones => exact Or.inl (Option.some.inj ho).symm
  | removeTarget | remove =>
    simp only [onRoute] at ho
    split_ifs at ho
    exact Or.inl (Option.some.inj ho).symm

/-- What is stored for a silent router was stored before, or has aged. -/
theorem QuietOf.mem_routes (h : op.QuietOf id next) (hr : r ∈ op.routes rs)
    (hv : r.Via id next) : ∃ q ∈ rs, q.Via id next ∧ op.onRoute q = some r := by
  cases op with
  | learn x g n now =>
    simp only [routes] at hr
    split_ifs at hr
    · exact ⟨r, hr, hv, rfl⟩
    · rcases Tables.mem_learnRoutes hr with hr | ⟨q, -, hq, -, rfl⟩ | ⟨-, -, rfl⟩
      · exact ⟨r, hr, hv, rfl⟩
      · have hpath := entryOf_iff_path.1 hq
        refine absurd ?_ h
        rw [← hv.1, ← hv.2.1]
        exact (congrArg Prod.snd hpath).symm
      · exact absurd (Prod.ext hv.1 hv.2.1) h
  | _ =>
    rw [routes_eq_filterMap (by simp)] at hr
    obtain ⟨q, hq, ho⟩ := List.mem_filterMap.1 hr
    have hg : q.target = .port id := (onRoute_same ho).2.1 ▸ hv.1
    refine ⟨q, hq, ?_, ho⟩
    rcases h.onRoute_eq hg ho with rfl | ⟨-, -, he⟩
    · exact hv
    · rw [he] at hv
      exact hv

/-- The time of the last expiry, after an operation. -/
def lastAge (last : Instant) : TableOp → Instant
  | .age now => now
  | _ => last

theorem lastAge_of_not_age (h : ¬∃ now, op = .age now) (last : Instant) :
    op.lastAge last = last := by
  cases op with
  | age now => exact absurd ⟨now, rfl⟩ h
  | _ => rfl

/-- Expiries come at most a gap after the last. -/
def Timely (gap : ℕ) (last : Instant) : TableOp → Prop
  | .age now => now ≤ last + gap
  | _ => True

theorem timely_of_not_age (h : ¬∃ now, op = .age now) (gap : ℕ) (last : Instant) :
    op.Timely gap last := by
  cases op with
  | age now => exact absurd ⟨now, rfl⟩ h
  | _ => trivial

/-- What an operation says of a router on a cable, it says by a time. -/
def Before (start : Instant) : TableOp → Prop
  | .learn _ (.port _) _ now | .age now => now ≤ start
  | .setDistance g .. => g.isPeer
  | _ => True

theorem Before.quietOf {start : Instant} (h : op.Before start)
    (hlearn : ∀ x g n now, op ≠ .learn x g n now) : op.QuietOf id next := by
  cases op with
  | learn x g n now => exact absurd rfl (hlearn x g n now)
  | setDistance => exact h
  | _ => trivial

end TableOp

namespace Tables

variable {id : PortId} {next : Addr} {gap start last : ℕ}

theorem ageRoute_seen {now : Instant} {q r : Route} (h : ageRoute now q = some r) :
    r.seen = q.seen ∨ r.seen = now := by
  unfold ageRoute at h
  split_ifs at h
  · exact Or.inl (congrArg Route.seen (Option.some.inj h)).symm
  · exact Or.inl (congrArg Route.seen (Option.some.inj h)).symm
  · obtain ⟨s, -, rfl⟩ := Option.map_eq_some_iff.1 h
    exact Or.inr rfl

/-- Nothing is remembered of a router on a cable but what climbs. -/
def Fading (id : PortId) (next : Addr) (gap start last : ℕ) (t : Tables) : Prop :=
  ∀ r ∈ t.routes, r.Via id next → validity.Climbing gap start last r.rung

/-- **One operation** that is not the word of the router. -/
theorem Fading.apply {t : Tables} (h : t.Fading id next gap start last) {op : TableOp}
    (hq : op.QuietOf id next) (ht : op.Timely gap last) :
    (op.apply t).1.Fading id next gap start (op.lastAge last) := by
  intro r hr hv
  rw [TableOp.apply_routes] at hr
  obtain ⟨q, hq', hvq, ho⟩ := hq.mem_routes hr hv
  have hclimb := h q hq' hvq
  by_cases hage : ∃ now, op = .age now
  · obtain ⟨now, rfl⟩ := hage
    refine hclimb.tick ht ?_
    rw [← Route.ageRoute_rung hvq]
    exact congrArg (Option.map Route.rung) ho
  · rw [TableOp.lastAge_of_not_age hage]
    rcases hq.onRoute_eq hvq.1 ho with rfl | ⟨now, he, -⟩
    · exact hclimb
    · exact absurd ⟨now, he⟩ hage

/-- What is no expiry, and not the word of the router, leaves the last expiry the last. -/
theorem Fading.after {t : Tables} (h : t.Fading id next gap start last) {ops : List TableOp}
    (hops : ∀ op ∈ ops, op.QuietOf id next ∧ ¬∃ now, op = .age now) :
    (TableOp.after t ops).Fading id next gap start last := by
  induction ops generalizing t with
  | nil => exact h
  | cons op ops ih =>
    obtain ⟨⟨hq, hage⟩, hrest⟩ := List.forall_mem_cons.1 hops
    have hstep := h.apply hq (TableOp.timely_of_not_age hage gap last)
    rw [TableOp.lastAge_of_not_age hage] at hstep
    exact ih hstep hrest

/-- Every route of the router was seen by a time. -/
def SeenBy (id : PortId) (next : Addr) (start : Instant) (t : Tables) : Prop :=
  ∀ r ∈ t.routes, r.Via id next → r.seen ≤ start

theorem SeenBy.apply {t : Tables} (h : t.SeenBy id next start) {op : TableOp}
    (hb : op.Before start) : (op.apply t).1.SeenBy id next start := by
  intro r hr hv
  rw [TableOp.apply_routes] at hr
  have hquiet : (∀ x g n now, op ≠ .learn x g n now) → op.QuietOf id next := hb.quietOf
  cases op with
  | learn x g n now =>
    simp only [TableOp.routes] at hr
    split_ifs at hr
    · exact h r hr hv
    · rcases mem_learnRoutes hr with hr | ⟨q, -, hq, -, rfl⟩ | ⟨-, -, rfl⟩
      · exact h r hr hv
      · have hg : g = .port id := by
          rw [← hv.1]
          exact (congrArg (fun k => k.2.1) (TableOp.entryOf_iff_path.1 hq)).symm
        subst hg
        exact hb
      · obtain rfl : g = .port id := hv.1
        exact hb
  | age now =>
    obtain ⟨q, hq, hvq, ho⟩ := (hquiet (by simp)).mem_routes hr hv
    rcases ageRoute_seen ho with hs | hs
    · rw [hs]
      exact h q hq hvq
    · rw [hs]
      exact hb
  | _ =>
    obtain ⟨q, hq, hvq, ho⟩ := (hquiet (by simp)).mem_routes hr hv
    rcases (hquiet (by simp)).onRoute_eq hvq.1 ho with rfl | ⟨_, he, -⟩
    · exact h r hq hv
    · cases he

end Tables

/-! ### The operations of an event -/

/-- What the services learn, they learn of RTMP Data. -/
theorem Local.body_of_learn {arrivedOn : Option Port} {q : Port} {ddp : Ddp} {body : DdpBody}
    {now t : Instant} {x : NetworkTuple} {g : Target} {sender : Addr}
    (h : .learn x g sender t ∈ Local.handleOps arrivedOn q ddp body now) :
    ∃ range tuples, body = .rtmp (.data sender range tuples) := by
  unfold Local.handleOps at h
  cases body with
  | rtmp m =>
    dsimp only at h
    split_ifs at h
    · cases hp : arrivedOn.filter fun p => p.id = q.id with
      | none => simp [hp] at h
      | some p =>
        rw [hp] at h
        cases m with
        | data sender' range tuples =>
          simp only [rtmpOps] at h
          split_ifs at h
          · cases h
          · obtain ⟨y, -, he⟩ := List.mem_map.1 h
            cases he
            exact ⟨range, tuples, rfl⟩
        | _ => simp [rtmpOps] at h
    · cases h
  | zip z =>
    dsimp only at h
    split_ifs at h
    · cases z with
      | reply zones total =>
        obtain ⟨y, -, he⟩ := List.mem_map.1 h
        cases he
      | _ => cases h
    · cases h
  | _ => cases h

namespace Router

/-- The event is RTMP Data of a router, off a cable. -/
def Event.RtmpFrom (id : PortId) (next : Addr) : Event → Prop
  | .input (.ether i packet) =>
    i = id ∧ ∃ d range tuples, packet.body = .ddp d (.rtmp (.data next range tuples))
  | .input (.llap i l) =>
    i = id ∧ ∃ net d range tuples, l.datagram net = some d ∧
      decodeDdpBody d = .rtmp (.data next range tuples)
  | _ => False

/-- What an event can do to the tables: RTMP Data brings tuples, a tick the expiry, a peer what
concerns its own routes, and ZIP the names of zones. -/
inductive Causes (e : Event × Instant) : TableOp → Prop
  | learn {id : PortId} {sender : Addr} (h : e.1.RtmpFrom id sender) (x : NetworkTuple) :
      Causes e (.learn x (.port id) sender e.2)
  | age (h : e.1 = .input .tick) : Causes e (.age e.2)
  | peer {p : Peer} {op : TableOp} (h : p.Causes op) : Causes e op
  | addZones (start : UInt16) (names : List Str) (expected : Option ℕ) :
      Causes e (.addZones start names expected)

variable {host : Host} {id : PortId} {next : Addr} {r : Router} {e : Event × Instant}

theorem causes_of_mem_serviceOps {q : Router} {origin : Origin} {ddp : Ddp} {body : DdpBody}
    (hbody : ∀ id sender range tuples, origin = .port id →
      body = .rtmp (.data sender range tuples) → e.1.RtmpFrom id sender) :
    ∀ op ∈ q.serviceOps origin ddp body e.2, Causes e op := by
  intro op hop
  rcases mem_serviceOps hop with ⟨id, x, sender, ho, rfl⟩ | ⟨start, names, expected, rfl⟩
  · unfold serviceOps at hop
    dsimp only at hop
    split_ifs at hop
    · cases hop
    · split at hop
      · cases hop
      · split_ifs at hop
        · obtain ⟨range, tuples, hb⟩ := Local.body_of_learn hop
          exact .learn (hbody id sender range tuples ho hb) x
        · cases hop
  · exact .addZones start names expected

theorem causes_of_mem_inboundInputs {q : Router} {inb : Inbound} {body : Ddp → Option DdpBody}
    (hbody : ∀ d sender range tuples, inb = .ddp d →
      body d = some (.rtmp (.data sender range tuples)) → e.1.RtmpFrom id sender)
    {i : CoreIn × Instant} (hi : i ∈ q.inboundInputs id inb body e.2) (c : Core) :
    ∀ op ∈ c.ops i, Causes e op := by
  unfold inboundInputs at hi
  cases inb with
  | ddp d =>
    dsimp only at hi
    cases hb : body d with
    | some b =>
      rw [hb] at hi
      rw [List.mem_singleton.1 hi]
      refine causes_of_mem_serviceOps fun id' sender range tuples ho he => ?_
      cases ho
      exact hbody d sender range tuples rfl (hb.trans (congrArg some he))
    | none =>
      rw [hb] at hi
      cases hi
  | _ => cases hi

/-- **What an event can do to the tables.** -/
theorem causes_of_mem_coreInputs {i : CoreIn × Instant} (hi : i ∈ r.coreInputs host e) (c : Core) :
    ∀ op ∈ c.ops i, Causes e op := by
  obtain ⟨e, now⟩ := e
  unfold coreInputs at hi
  cases e with
  | input j =>
    cases j with
    | ether id packet =>
      dsimp only at hi
      cases hp : r.port id with
      | none =>
        rw [hp] at hi
        cases hi
      | some p =>
        rw [hp] at hi
        refine causes_of_mem_inboundInputs (e := (.input (.ether id packet), now))
          (fun d sender range tuples hd hb => ?_) hi c
        obtain ⟨body, hpb, -⟩ := Port.inboundEther_ddp hd
        rw [hpb] at hb
        obtain rfl := Option.some.inj hb
        exact ⟨rfl, d, range, tuples, hpb⟩
    | llap id l =>
      dsimp only at hi
      cases hp : r.port id with
      | none =>
        rw [hp] at hi
        cases hi
      | some p =>
        rw [hp] at hi
        refine causes_of_mem_inboundInputs (e := (.input (.llap id l), now))
          (fun d sender range tuples hd hb => ?_) hi c
        refine ⟨rfl, p.range.1, d, range, tuples, ?_, Option.some.inj hb⟩
        unfold Llap.datagram
        rcases Port.inboundLlap_reads hd with ⟨ht, hread⟩ | ⟨ht, hread⟩
        · rw [if_pos ht]
          exact hread
        · rw [if_neg (by rw [ht]; decide), if_pos ht]
          exact hread
    | aurp «from» bytes =>
      rcases List.mem_cons.1 hi with rfl | hi
      · intro op hop
        obtain ⟨_, _, _, _, p, -, -, hop⟩ := Peers.mem_packetOps hop
        exact .peer (Peer.causes_of_mem_routingOps op hop)
      · dsimp only at hi
        cases hd : (r.peers.packet «from» bytes r.tables now).ddp.bind Ddp.parse with
        | none =>
          rw [hd] at hi
          cases hi
        | some d =>
          rw [hd] at hi
          rw [List.mem_singleton.1 hi]
          refine causes_of_mem_serviceOps (e := (.input (.aurp «from» bytes), now))
            fun id sender range tuples ho => ?_
          cases ho
    | tick =>
      intro op hop
      rcases List.mem_cons.1 hi with rfl | hi
      · rw [List.mem_singleton.1 hop]
        exact .age rfl
      · rw [List.mem_singleton.1 hi] at hop
        obtain ⟨_, p, -, -, rfl⟩ := Peers.mem_tickOps.1 hop
        exact .peer (p := p) .removeTarget
    | ping | pingReport =>
      rw [List.mem_singleton.1 hi]
      simp [Core.ops]
  | resolved | shutdown =>
    rw [List.mem_singleton.1 hi]
    simp [Core.ops]

/-- **The event rule.** What the operations an event can cause preserve, it preserves. -/
theorem event_of_causes {I : Tables → Prop} (hI : ∀ t op, I t → Causes e op → I (op.apply t).1)
    (h : I r.tables) : I (r.event host e).1.tables := by
  have hops : ∀ (ops : List TableOp) (t : Tables), I t → (∀ op ∈ ops, Causes e op) →
      I (TableOp.after t ops) := by
    intro ops t ht hc
    exact (Machine.guarded_of_forall hc).invariant hI ht
  have hcore : ∀ (is : List (CoreIn × Instant)) (c : Core), I c.tables →
      (∀ i ∈ is, ∀ c : Core, ∀ op ∈ c.ops i, Causes e op) → I (c.after is).tables := by
    intro is
    induction is with
    | nil => exact fun c hc _ => hc
    | cons i is ih =>
      intro c hc his
      obtain ⟨hi, his⟩ := List.forall_mem_cons.1 his
      refine ih (c.next i) ?_ his
      rw [Core.next_tables]
      exact hops _ _ hc (hi c)
  rw [event_routes]
  exact hcore _ _ h fun i hi c => causes_of_mem_coreInputs hi c

theorem Causes.quietOf {op : TableOp} (h : Causes e op) (hq : ¬e.1.RtmpFrom id next) :
    op.QuietOf id next := by
  cases h with
  | learn h x =>
    intro he
    obtain ⟨hg, rfl⟩ := Prod.mk.inj he
    cases hg
    exact hq h
  | age | addZones => trivial
  | peer h =>
    cases h with
    | learn x now =>
      intro he
      cases (Prod.mk.inj he).1
    | setDistance => rfl
    | _ => trivial

theorem Causes.before {op : TableOp} (h : Causes e op) {start : Instant} (ht : e.2 ≤ start) :
    op.Before start := by
  cases h with
  | learn | age => exact ht
  | addZones => trivial
  | peer h =>
    cases h with
    | setDistance => rfl
    | _ => trivial

/-! ### Runs -/

def Event.isTick : Event → Bool
  | .input .tick => true
  | _ => false

theorem Event.isTick_iff {e : Event} : e.isTick ↔ e = .input .tick := by
  constructor
  · intro h
    unfold isTick at h
    split at h
    · rfl
    · cases h
  · rintro rfl
    rfl

/-- The time of the last tick, after an event. -/
def ticked (last : Instant) (e : Event × Instant) : Instant := if e.1.isTick then e.2 else last

/-- The time of the last tick of a run, or the time it started. -/
def lastTick (start : Instant) (es : List (Event × Instant)) : Instant :=
  Machine.run ticked start es

/-- The ticks of a run come at most a gap apart: nothing happens later than that after one. -/
def Paced (gap : ℕ) : Instant → List (Event × Instant) → Prop :=
  Machine.Guarded ticked fun last e => e.2 ≤ last + gap

instance (gap : ℕ) (last : Instant) (es : List (Event × Instant)) :
    Decidable (Paced gap last es) :=
  inferInstanceAs (Decidable (Machine.Guarded ticked _ last es))

variable {gap start last : ℕ}

/-- **One event** that is not RTMP Data of the router. -/
theorem fading_event (h : r.tables.Fading id next gap start last) (hq : ¬e.1.RtmpFrom id next)
    (ht : e.2 ≤ last + gap) :
    (r.event host e).1.tables.Fading id next gap start (ticked last e) := by
  obtain ⟨e, now⟩ := e
  by_cases htick : e.isTick
  · obtain rfl := Event.isTick_iff.1 htick
    rw [event_routes]
    show ((r.core.next (.batch [.age now], now)).next (.tick, now)).tables.Fading ..
    rw [Core.next_tables, Core.next_tables]
    have hage : (TableOp.after r.tables [.age now]).Fading id next gap start now :=
      h.apply (show (TableOp.age now).QuietOf id next from trivial) ht
    refine hage.after fun op hop => ?_
    obtain ⟨_, _, -, -, rfl⟩ := Peers.mem_tickOps.1 hop
    exact ⟨trivial, by simp⟩
  · rw [show ticked last (e, now) = last from if_neg htick]
    refine event_of_causes (fun t op hI hc => ?_) h
    have hage : ¬∃ t, op = .age t := by
      rintro ⟨t, rfl⟩
      cases hc with
      | age he => exact htick (Event.isTick_iff.2 he)
      | peer hp => cases hp
    have hstep := hI.apply (hc.quietOf hq) (TableOp.timely_of_not_age hage gap last)
    rwa [TableOp.lastAge_of_not_age hage] at hstep

/-- **A run** in which the router is silent. -/
theorem fading_after {es : List (Event × Instant)} (h : r.tables.Fading id next gap start last)
    (hq : ∀ e ∈ es, ¬e.1.RtmpFrom id next) (ht : Paced gap last es) :
    (r.after host es).tables.Fading id next gap start (lastTick last es) := by
  induction es generalizing r last with
  | nil => exact h
  | cons e es ih =>
    obtain ⟨he, hes⟩ := List.forall_mem_cons.1 hq
    exact ih (fading_event h he ht.1) hes ht.2

theorem seenBy_after {es : List (Event × Instant)} (h : r.tables.SeenBy id next start)
    (ht : ∀ e ∈ es, e.2 ≤ start) : (r.after host es).tables.SeenBy id next start := by
  induction es generalizing r with
  | nil => exact h
  | cons e es ih =>
    obtain ⟨he, hes⟩ := List.forall_mem_cons.1 ht
    exact ih (event_of_causes (fun t op hI hc => hI.apply (hc.before he)) h) hes

/-- A router starts out knowing its own networks alone. -/
theorem Built.no_route_via (h : Built host r) (id : PortId) (next : Addr) :
    ∀ q ∈ r.tables.routes, ¬q.Via id next := by
  obtain ⟨cfg, kinds, now, -, -, rfl⟩ := h
  rintro q hq ⟨htarget, -, hdirect⟩
  rcases addPorts_direct now 0 (kinds.zip cfg.portSpecs) Tables.new q hq with h0 | ⟨p, -, hd⟩
  · cases h0
  · simp [Route.direct, hd.distance, htarget, Target.isPort] at hdirect

/-- **A silent router is forgotten.** Once a neighbour router has said nothing on a cable for four
validities and three of the gaps between ticks, no route through it is left. -/
theorem silent_router_forgotten (h : Built host r) {past es : List (Event × Instant)}
    (hpast : ∀ e ∈ past, e.2 ≤ start) (hq : ∀ e ∈ es, ¬e.1.RtmpFrom id next)
    (ht : Paced gap start es) (hlong : start + 4 * VALIDITY + 3 * gap ≤ lastTick start es) :
    ∀ q ∈ (r.after host (past ++ es)).tables.routes, ¬q.Via id next := by
  have hseen : (r.after host past).tables.SeenBy id next start :=
    seenBy_after (fun q hq hv => absurd hv (h.no_route_via id next q hq)) hpast
  have hstart : (r.after host past).tables.Fading id next gap start start := fun q hq hv =>
    Ladder.climbing_of_le (State.stage_le q.state) (hseen q hq hv)
  have hend : ((r.after host past).after host es).tables.Fading id next gap start
      (lastTick start es) := fading_after hstart hq ht
  intro q hmem hv
  rw [show r.after host (past ++ es) = (r.after host past).after host es from
    Machine.run_append _ _ _ _] at hmem
  have hlt := (hend q hmem hv).lt_ends
  have hends : validity.ends gap start = start + 4 * VALIDITY + 3 * gap := by
    show start + VALIDITY + gap + VALIDITY + gap + VALIDITY + gap + VALIDITY = _
    omega
  omega

/-- Router 10.7 announces network 20 once. -/
def heardOnce : List (Event × Instant) :=
  [(.input (.llap 0 ⟨255, 7, LLAP_SHORT_DDP, [0, 15, 1, 1, 1, 0, 10, 8, 7, 0, 0, 0x82, 0, 20, 0]⟩),
    0)]

/-- A tick every validity. -/
def sevenTicks : List (Event × Instant) :=
  (List.range 7).map fun k => (.input .tick, (k + 1) * VALIDITY)

theorem silent_router_forgotten_heard :
    (∃ q ∈ (small.after .lowest heardOnce).tables.routes, q.Via 0 ⟨10, 7⟩) ∧
      ∀ q ∈ (small.after .lowest (heardOnce ++ sevenTicks)).tables.routes, ¬q.Via 0 ⟨10, 7⟩ := by
  have hpast : ∀ e ∈ heardOnce, e.2 ≤ 0 := by simp [heardOnce]
  have hquiet : ∀ e ∈ sevenTicks, ¬Event.RtmpFrom 0 ⟨10, 7⟩ e.1 := fun e he => by
    obtain ⟨k, -, rfl⟩ := List.mem_map.1 he
    exact id
  have hpaced : Paced VALIDITY 0 sevenTicks := by decide +kernel
  have hlong : 0 + 4 * VALIDITY + 3 * VALIDITY ≤ lastTick 0 sevenTicks := by decide +kernel
  have hknown : ∃ q ∈ (small.after .lowest heardOnce).tables.routes, q.Via 0 ⟨10, 7⟩ := by
    decide +kernel
  exact ⟨hknown, silent_router_forgotten small_built hpast hquiet hpaced hlong⟩

end Router

end AppleTalk
