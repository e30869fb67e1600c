import AppleTalk.Router.Reach
import AppleTalk.Properties.Provenance

/-!
# Our own networks

The route of a network of our own is refused to every tuple, never ages and is never removed, in
any run. Its zone list is only safe from AURP: a ZIP Reply delivered to the router is taken for
any network in the table, our own included.
-/

namespace AppleTalk

open TableOp

/-- The one route of a network of our own. -/
def IsOwnRoute (n : Net) (r : Route) : Prop :=
  r.range = n.range ∧ r.target = .port n.port ∧ r.distance = 0 ∧ r.state = .good

/-- The network keeps exactly one route, its own, and exactly its configured zones. -/
def Untouched (n : Net) (t : Tables) : Prop :=
  (∃ r, (t.routes.filter fun r => r.range = n.range) = [r] ∧ IsOwnRoute n r) ∧
    ∃ z, t.zones n.range.1 = some z ∧ z.names = n.zones ∧ z.complete

/-- What holds of the routes to our own networks, whatever is received. -/
structure OwnRoutes (nets : List Net) (rs : List Route) : Prop where
  kept : ∀ n ∈ nets, ∃ r, (rs.filter fun r => r.range = n.range) = [r] ∧ IsOwnRoute n r
  /-- Distance 0 is for our own cables only. -/
  zero : ∀ r ∈ rs, r.distance = 0 → ∃ n ∈ nets, IsOwnRoute n r

theorem OwnRoutes.mem {nets : List Net} {rs : List Route} (h : OwnRoutes nets rs) {n : Net}
    (hn : n ∈ nets) : ∃ r ∈ rs, IsOwnRoute n r := by
  obtain ⟨r, hr, hown⟩ := h.kept n hn
  exact ⟨r, (List.mem_filter.1 (hr ▸ List.mem_singleton_self r)).1, hown⟩

theorem IsOwnRoute.direct {n : Net} {r : Route} (h : IsOwnRoute n r) : r.direct := by
  simp [Route.direct, h.2.1, h.2.2.1, Target.isPort]

namespace TableOp

/-- An operation removes or changes by target only what came over a tunnel, never stores a
distance of 0, and names no zone of our own networks that they do not have. -/
def Spares (nets : List Net) : TableOp → Prop
  | .learn .. | .age _ => True
  | .removeTarget g | .remove g _ => g.isPeer
  | .setDistance g _ d _ => g.isPeer ∧ d ≠ 0
  | .addZones start names expected => ∀ n ∈ nets, n.range.1 = start →
    (∀ z ∈ names, ∃ own ∈ n.zones, eqIgnoreAsciiCase own z) ∧ ∀ e ∈ expected, e ≤ n.zones.length

end TableOp

/-- A tuple off the wire never stores a distance of 0. -/
theorem learn_distance {x : NetworkTuple} (h1 : Tables.unreachable x = false)
    (h2 : Tables.bad x = false) : x.distance + 1 ≠ 0 := by
  simp only [Tables.unreachable, h2, Bool.not_false, and_true, decide_eq_false_iff_not] at h1
  grind

/-- Zone names aside, sparing our own networks asks nothing about which they are. -/
theorem Spares.nil {nets : List Net} {op : TableOp} (h : op.Spares nets) : op.Spares [] := by
  cases op with
  | addZones => simp [Spares]
  | _ => exact h

/-- An own route is what an operation that spares it leaves of it. -/
theorem onRoute_own {op : TableOp} (hop : op.Spares []) {n : Net} {r : Route}
    (h : IsOwnRoute n r) : op.onRoute r = some r := by
  have hg : ∀ g : Target, g.isPeer → r.target ≠ g := by
    rintro g hg rfl
    simp [h.2.1, Target.isPeer] at hg
  cases op with
  | age now => simp [onRoute, Tables.ageRoute, h.direct]
  | removeTarget g => simp [onRoute, hg g hop]
  | remove g start => simp [onRoute, hg g hop]
  | setDistance g start d now => simp [onRoute, hg g hop.1]
  | _ => rfl

/-- No operation but a tuple's brings a distance down to 0. -/
theorem onRoute_distance {op : TableOp} (hop : op.Spares []) {r r' : Route}
    (h : op.onRoute r = some r') (h0 : r'.distance = 0) : r.distance = 0 := by
  cases op with
  | age now =>
    simp only [onRoute, Tables.ageRoute] at h
    split_ifs at h
    · simpa [← Option.some.inj h] using h0
    · simpa [← Option.some.inj h] using h0
    · obtain ⟨s, -, rfl⟩ := Option.map_eq_some_iff.1 h
      exact h0
  | removeTarget g =>
    simp only [onRoute] at h
    split_ifs at h
    simpa [← Option.some.inj h] using h0
  | remove g start =>
    simp only [onRoute] at h
    split_ifs at h
    simpa [← Option.some.inj h] using h0
  | setDistance g start d now =>
    simp only [onRoute] at h
    split_ifs at h
    · exact absurd (by simpa [← Option.some.inj h] using h0) hop.2
    · simpa [← Option.some.inj h] using h0
  | _ => simpa [← Option.some.inj h] using h0

/-- A tuple off the wire leaves the routes to our own networks alone. -/
theorem OwnRoutes.learn {nets : List Net} {rs : List Route} (h : OwnRoutes nets rs)
    (x : NetworkTuple) (g : Target) (next : Addr) (now : Instant)
    (href : ¬Tables.refuses rs x.range) : OwnRoutes nets (Tables.learnRoutes rs x g next now) := by
  refine ⟨fun n hn => ?_, fun r hr h0 => ?_⟩
  · obtain ⟨r, hr, hown⟩ := h.kept n hn
    obtain ⟨r', hr', hown'⟩ := h.mem hn
    -- The tuple is not for this network: it would have been refused.
    have hne : x.range ≠ n.range := by
      intro he
      refine href (List.any_eq_true.2 ⟨r', hr', ?_⟩)
      simp [hown'.1, he, hown'.direct]
    refine ⟨r, ?_, hown⟩
    rw [← hr]
    have hentry : ∀ q : Route, Tables.entryOf x g next q → decide (q.range = n.range) = false :=
      fun q hq => by
        simp only [Tables.entryOf, decide_eq_true_eq] at hq
        simp [hq.1, hne]
    unfold Tables.learnRoutes
    split_ifs
    · exact filter_eraseP hentry rs
    · refine filter_modifyFirst (fun q hq => ⟨hentry q hq, ?_⟩) rs
      exact hentry q hq
    · rfl
    all_goals simp [List.filter_append, hne]
  · rcases Tables.mem_learnRoutes hr with hr | ⟨q, hq, hent, hu, rfl⟩ | ⟨hu, hb, rfl⟩
    · exact h.zero r hr h0
    · unfold Tables.replaceEntry at h0
      dsimp only at h0
      split_ifs at h0 with hb
      · -- A network of ours marked bad: the tuple would have been refused.
        obtain ⟨n, hn, hown⟩ := h.zero q hq h0
        refine absurd (List.any_eq_true.2 ⟨q, hq, ?_⟩) href
        simp only [Tables.entryOf, decide_eq_true_eq] at hent
        simp [hent.1, hown.direct]
      · exact absurd h0 (learn_distance hu (by simpa using hb))
    · exact absurd h0 (learn_distance hu hb)

/-- **One operation** that spares our own networks keeps the routes to them. -/
theorem OwnRoutes.step {nets : List Net} {rs : List Route} (h : OwnRoutes nets rs) {op : TableOp}
    (hop : op.Spares []) : OwnRoutes nets (op.routes rs) := by
  by_cases hl : ∃ x g next now, op = .learn x g next now
  · obtain ⟨x, g, next, now, rfl⟩ := hl
    simp only [TableOp.routes]
    split_ifs with href
    · exact h
    · exact h.learn x g next now href
  · push Not at hl
    rw [routes_eq_filterMap hl]
    refine ⟨fun n hn => ?_, fun r hr h0 => ?_⟩
    · obtain ⟨r, hr, hown⟩ := h.kept n hn
      refine ⟨r, (filter_filterMap_eq (fun a ha hq => ?_) fun a b hab => ?_).trans hr, hown⟩
      · obtain rfl : a = r := List.mem_singleton.1 (hr ▸ List.mem_filter.2 ⟨ha, hq⟩)
        exact onRoute_own hop hown
      · rw [(onRoute_same hab).1]
    · obtain ⟨q, hq, hqr⟩ := List.mem_filterMap.1 hr
      obtain ⟨n, hn, hown⟩ := h.zero q hq (onRoute_distance hop hqr h0)
      obtain rfl : q = r := Option.some.inj ((onRoute_own hop hown).symm.trans hqr)
      exact ⟨n, hn, hown⟩

/-! ### The zone lists -/

/-- What holds of our own networks while nothing names foreign zones on them. -/
structure OwnNetworks (nets : List Net) (t : Tables) : Prop where
  routes : OwnRoutes nets t.routes
  zones : ∀ n ∈ nets, ∃ z, t.zones n.range.1 = some z ∧ z.names = n.zones ∧
    ∀ e ∈ z.expected, e ≤ n.zones.length

theorem OwnNetworks.untouched {nets : List Net} {t : Tables} (h : OwnNetworks nets t) {n : Net}
    (hn : n ∈ nets) (hz : n.zones ≠ []) : Untouched n t := by
  obtain ⟨z, hz1, hz2, hz3⟩ := h.zones n hn
  refine ⟨h.routes.kept n hn, z, hz1, hz2, ?_⟩
  rw [ZoneList.complete, hz2]
  cases he : z.expected with
  | none => simpa using hz
  | some e => simpa [hz] using hz3 e (by simp [he])

/-- Names a list holds already add nothing to it. -/
theorem extendNames_eq {held names : List Str}
    (h : ∀ z ∈ names, ∃ own ∈ held, eqIgnoreAsciiCase own z) :
    Tables.extendNames held names = held := by
  unfold Tables.extendNames
  induction names with
  | nil => rfl
  | cons z names ih =>
    rw [List.foldl_cons, if_pos (List.any_eq_true.2 (h z (by simp)))]
    exact ih fun z hz => h z (by simp [hz])

/-- Zone names keep the list of a network that holds them all. -/
theorem OwnNetworks.addZones {nets : List Net} {t : Tables} (h : OwnNetworks nets t) {n : Net}
    (hn : n ∈ nets) {names : List Str} {expected : Option ℕ}
    (hnames : ∀ z ∈ names, ∃ own ∈ n.zones, eqIgnoreAsciiCase own z)
    (hexp : ∀ e ∈ expected, e ≤ n.zones.length) :
    ∃ z, (t.addZones n.range.1 names expected).1.zones n.range.1 = some z ∧ z.names = n.zones ∧
      ∀ e ∈ z.expected, e ≤ n.zones.length := by
  obtain ⟨z, hz1, hz2, hz3⟩ := h.zones n hn
  unfold Tables.addZones
  simp only [hz1, Option.getD_some]
  split
  · exact ⟨z, hz1, hz2, hz3⟩
  · refine ⟨{ names := Tables.extendNames z.names names, expected := expected.or z.expected },
      by simp [Tables.zones], ?_, ?_⟩
    · rw [hz2, extendNames_eq hnames]
    · cases expected with
      | none => simpa using hz3
      | some e => simpa using hexp

/-- **One operation** that spares our own networks keeps them whole. -/
theorem OwnNetworks.step {nets : List Net} {t : Tables} (h : OwnNetworks nets t) {op : TableOp}
    (hop : op.Spares nets) : OwnNetworks nets (op.apply t).1 := by
  have hroutes : OwnRoutes nets (op.routes t.routes) := h.routes.step (Spares.nil hop)
  refine ⟨by rw [apply_routes]; exact hroutes, fun n hn => ?_⟩
  by_cases hz : ∃ names expected, op = .addZones n.range.1 names expected
  · obtain ⟨names, expected, rfl⟩ := hz
    obtain ⟨h1, h2⟩ := hop n hn rfl
    exact h.addZones hn h1 h2
  · push Not at hz
    obtain ⟨r, hr, hown⟩ := hroutes.mem hn
    simp only [Tables.zones, apply_zoneTable ⟨r, hr, by rw [hown.1]⟩ hz]
    exact h.zones n hn

theorem OwnNetworks.after {nets : List Net} {t : Tables} (h : OwnNetworks nets t)
    {ops : List TableOp} (hops : ∀ op ∈ ops, op.Spares nets) :
    OwnNetworks nets (TableOp.after t ops) := by
  induction ops generalizing t with
  | nil => exact h
  | cons op ops ih =>
    exact ih (h.step (hops op (by simp))) fun op hop => hops op (by simp [hop])

/-! ### What each input does -/

/-- The best route to a network number of our own is at distance 0. -/
theorem OwnRoutes.best {nets : List Net} {t : Tables} (h : OwnRoutes nets t.routes) {n : Net}
    (hn : n ∈ nets) {net : UInt16} (hnet : n.range.1 ≤ net ∧ net ≤ n.range.2) :
    ∃ b m, t.best net = some b ∧ m ∈ nets ∧ IsOwnRoute m b ∧ m.range.1 ≤ net ∧ net ≤ m.range.2 := by
  obtain ⟨r, hmem, hown⟩ := h.mem hn
  have hc : r.contains net := by simpa [Route.contains, hown.1] using hnet
  have hu : r.state.usable := by
    rw [hown.2.2.2]
    rfl
  cases hb : t.best net with
  | none => exact absurd (Tables.pick_eq_none.1 hb r hmem hu) (by simp [hc])
  | some b =>
    have hle : b.distance ≤ 0 := hown.2.2.1 ▸ Tables.pick_le hb hmem hu hc
    obtain ⟨hbmem, -, hbc⟩ := Tables.pick_eq_some hb
    obtain ⟨m, hm, hmown⟩ := h.zero b hbmem (by grind)
    exact ⟨b, m, rfl, hm, hmown, by simpa [Route.contains, hmown.1] using hbc⟩

/-- AURP never names the zones of our own networks: the best route to one is on its port. -/
theorem OwnRoutes.best_isPort {nets : List Net} {t : Tables} (h : OwnRoutes nets t.routes) {n : Net}
    (hn : n ∈ nets) (hr : n.range.1 ≤ n.range.2) :
    ((t.best n.range.1).any fun r => r.target.isPort) = true := by
  have hin : n.range.1 ≤ n.range.1 ∧ n.range.1 ≤ n.range.2 := ⟨by simp, hr⟩
  obtain ⟨b, m, hb, -, hown, -⟩ := h.best hn hin
  simp [hb, hown.2.1, Target.isPort]

namespace Peer

/-- A routing packet spares our own networks, as long as the best routes to them are on ports. -/
theorem routingOps_spares {nets : List Net} {I : Tables → Prop}
    (hbest : ∀ t, I t → ∀ n ∈ nets, ((t.best n.range.1).any fun r => r.target.isPort) = true)
    (hstep : ∀ t (op : TableOp), I t → op.Spares nets → I (op.apply t).1) (p : Peer)
    (conn seq : UInt16) (cmd : Cmd) {tables : Tables} (h : I tables)
    (now : Instant) : ∀ op ∈ p.routingOps conn seq cmd tables now, op.Spares nets := by
  refine forall_mem_routingOps (fun _ _ _ => trivial) (fun x _ hd => ⟨rfl, ?_⟩) (fun _ => rfl) rfl
    (fun t ht start names expected hport n hn he => ?_) hstep h
  · have hlt : x.distance.toNat < 15 := UInt8.lt_iff_toNat_lt.1 hd
    grind
  · exact absurd (he ▸ hbest t ht n hn) hport

end Peer

/-- A batch of the services spares our own networks. The AURP side always does. -/
def CoreIn.Spares (nets : List Net) : CoreIn → Prop
  | .batch ops => ∀ op ∈ ops, op.Spares nets
  | _ => True

/-- The operations of an input spare our own networks. -/
theorem Core.ops_spares {nets : List Net} {I : Tables → Prop}
    (hbest : ∀ t, I t → ∀ n ∈ nets, ((t.best n.range.1).any fun r => r.target.isPort) = true)
    (hstep : ∀ t (op : TableOp), I t → op.Spares nets → I (op.apply t).1) {c : Core}
    (h : I c.tables)
    {i : CoreIn × Instant} (hi : i.1.Spares nets) : ∀ op ∈ c.ops i, op.Spares nets := by
  obtain ⟨i, now⟩ := i
  cases i with
  | batch ops => exact hi
  | packet «from» bytes =>
    intro op hop
    obtain ⟨_, conn, seq, cmd, p, -, -, hop⟩ := Peers.mem_packetOps hop
    exact p.routingOps_spares hbest hstep conn seq cmd h now op hop
  | tick =>
    intro op hop
    obtain ⟨_, _, -, -, rfl⟩ := Peers.mem_tickOps.1 hop
    rfl
  | _ => simp [Core.ops]

/-- Whatever zones a batch names, the routes to our own networks stay. -/
theorem OwnRoutes.next {nets : List Net} {c : Core} (h : OwnRoutes nets c.tables.routes)
    {i : CoreIn × Instant} (hi : i.1.Spares []) : OwnRoutes nets (c.next i).tables.routes := by
  rw [Core.next_tables]
  have hops := Core.ops_spares (I := fun _ => True) (fun _ _ n hn => (by cases hn))
    (fun _ _ _ _ => trivial) trivial hi (c := c)
  generalize c.ops i = ops at hops
  generalize c.tables = t at h
  induction ops generalizing t with
  | nil => exact h
  | cons op ops ih =>
    refine ih (fun op hop => hops op (by simp [hop])) _ ?_
    rw [apply_routes]
    exact h.step (hops op (by simp))

theorem OwnNetworks.next {nets : List Net} (hr : ∀ n ∈ nets, n.range.1 ≤ n.range.2) {c : Core}
    (h : OwnNetworks nets c.tables) {i : CoreIn × Instant} (hi : i.1.Spares nets) :
    OwnNetworks nets (c.next i).tables := by
  rw [Core.next_tables]
  exact h.after (Core.ops_spares (I := OwnNetworks nets)
    (fun t ht n hn => ht.routes.best_isPort hn (hr n hn)) (fun t op ht hop => ht.step hop) h hi)

/-! ### The tables a router starts with -/

/-- Adding a port whose range is free puts its network beside those there are. -/
theorem OwnNetworks.addPort {nets : List Net} {t : Tables} (h : OwnNetworks nets t)
    (hall : ∀ r ∈ t.routes, ∃ n ∈ nets, r.range = n.range) (n : Net) (extended : Bool)
    (now : Instant) (hr : n.range.1 ≤ n.range.2) (hnets : ∀ m ∈ nets, m.range.1 ≤ m.range.2)
    (hfree : ∀ m ∈ nets, ¬overlaps m.range n.range) :
    OwnNetworks (nets ++ [n]) (t.addPort n.port n.range extended n.zones now) := by
  have hne : ∀ m ∈ nets, m.range.1 ≠ n.range.1 := fun m hm he => by
    have h1 := hnets m hm
    refine hfree m hm ?_
    simp only [overlaps, decide_eq_true_eq]
    exact ⟨he ▸ hr, he ▸ h1⟩
  have hold : (t.routes.filter fun r => r.range = n.range) = [] := by
    refine List.filter_eq_nil_iff.2 fun r hmem => ?_
    obtain ⟨m, hm, he⟩ := hall r hmem
    simpa [he] using fun h => hne m hm (congrArg Prod.fst h)
  refine ⟨⟨fun m hm => ?_, fun r hmem h0 => ?_⟩, fun m hm => ?_⟩
  · rcases List.mem_append.1 hm with hm | hm
    · obtain ⟨r, hr, hown⟩ := h.routes.kept m hm
      refine ⟨r, ?_, hown⟩
      have : n.range ≠ m.range := fun he => hne m hm (congrArg Prod.fst he).symm
      simp [Tables.addPort, List.filter_append, hr, this]
    · obtain rfl := List.mem_singleton.1 hm
      refine ⟨{ range := m.range, extended := extended, distance := 0, target := .port m.port
                next := Tables.NO_NEXT, state := .good, seen := now }, ?_, rfl, rfl, rfl, rfl⟩
      simp [Tables.addPort, List.filter_append, hold]
  · rcases List.mem_append.1 hmem with hmem | hmem
    · obtain ⟨m, hm, hown⟩ := h.routes.zero r hmem h0
      exact ⟨m, by simp [hm], hown⟩
    · obtain rfl := List.mem_singleton.1 hmem
      exact ⟨n, by simp, rfl, rfl, rfl, rfl⟩
  · rcases List.mem_append.1 hm with hm | hm
    · obtain ⟨z, hz⟩ := h.zones m hm
      refine ⟨z, ?_, hz.2⟩
      simpa [Tables.zones, Tables.addPort, Function.update_of_ne (hne m hm)] using hz.1
    · obtain rfl := List.mem_singleton.1 hm
      exact ⟨{ names := m.zones, expected := none }, by simp [Tables.zones, Tables.addPort], rfl,
        by simp⟩

/-- Every port that is opened gets its network, if the ranges are legal and no two overlap. -/
theorem addPorts_own (host : Host) (now : Instant)
    (specs : List ((String × Kind) × (UInt16 × UInt16) × List Str)) (id : ℕ) {nets : List Net}
    {t : Tables} (h : OwnNetworks nets t) (hall : ∀ r ∈ t.routes, ∃ n ∈ nets, r.range = n.range)
    (hnets : ∀ m ∈ nets, m.range.1 ≤ m.range.2)
    (hs : ∀ s ∈ specs.map Prod.snd, Config.Sound s)
    (hpw : (specs.map Prod.snd).Pairwise fun a b => ¬overlaps a.1 b.1)
    (hfree : ∀ m ∈ nets, ∀ s ∈ specs.map Prod.snd, ¬overlaps m.range s.1) :
    OwnNetworks (nets ++ Config.netsFrom id (specs.map Prod.snd))
      (Router.addPorts host now id specs t).2 := by
  induction specs generalizing id nets t with
  | nil => simpa [Config.netsFrom, Router.addPorts] using h
  | cons s specs ih =>
    obtain ⟨⟨name, kind⟩, range, zones⟩ := s
    simp only [List.map_cons, List.pairwise_cons, List.forall_mem_cons] at hs hpw hfree
    let n : Net := { port := UInt8.ofNat id, range := range, zones := zones }
    let p := Port.new host (UInt8.ofNat id) name kind range zones now
    have := ih (id + 1) (h.addPort hall n p.extended now hs.1.2.2.1 hnets
      fun m hm => (hfree m hm).1) ?_ ?_ hs.2 hpw.2 ?_
    · rw [List.append_assoc] at this
      exact this
    · intro r hr
      rcases List.mem_append.1 hr with hr | hr
      · obtain ⟨m, hm, he⟩ := hall r hr
        exact ⟨m, by simp [hm], he⟩
      · exact ⟨n, by simp, by rw [List.mem_singleton.1 hr]⟩
    · intro m hm
      rcases List.mem_append.1 hm with hm | hm
      · exact hnets m hm
      · rw [List.mem_singleton.1 hm]
        exact hs.1.2.2.1
    · intro m hm s hmem
      rcases List.mem_append.1 hm with hm | hm
      · exact (hfree m hm).2 s hmem
      · rw [List.mem_singleton.1 hm]
        exact hpw.1 s hmem

namespace Router

variable {host : Host}

/-- A router starts with every configured network whole. -/
theorem new_own {cfg : Config} {kinds : List (String × Kind)}
    (hv : cfg.validate host = .ok ()) (ho : cfg.Opened kinds) (now : Instant) :
    OwnNetworks cfg.nets (new host cfg kinds now).tables := by
  obtain ⟨hs, hpw⟩ := Config.validate_ok hv
  have hempty : OwnNetworks [] Tables.new := ⟨⟨by simp, by simp [Tables.new]⟩, by simp⟩
  have := addPorts_own host now (kinds.zip cfg.portSpecs) 0 hempty
    (by simp [Tables.new]) (by simp) (by rwa [zip_snd ho]) (by rwa [zip_snd ho]) (by simp)
  rwa [zip_snd ho] at this

theorem mem_netsFrom {specs : List ((UInt16 × UInt16) × List Str)} {id : ℕ} {n : Net}
    (h : n ∈ Config.netsFrom id specs) : ∃ s ∈ specs, (n.range, n.zones) = s := by
  induction specs generalizing id with
  | nil => cases h
  | cons s specs ih =>
    rcases List.mem_cons.1 h with rfl | h
    · exact ⟨s, by simp, rfl⟩
    · obtain ⟨s', hs', he⟩ := ih h
      exact ⟨s', by simp [hs'], he⟩

theorem netsFrom_sound {specs : List ((UInt16 × UInt16) × List Str)}
    (h : ∀ s ∈ specs, Config.Sound s) (id : ℕ) :
    ∀ n ∈ Config.netsFrom id specs, Config.Sound (n.range, n.zones) := by
  intro n hn
  obtain ⟨s, hs, he⟩ := mem_netsFrom hn
  exact he ▸ h s hs

theorem netsFrom_apart {specs : List ((UInt16 × UInt16) × List Str)}
    (h : specs.Pairwise fun a b => ¬overlaps a.1 b.1) (id : ℕ) :
    (Config.netsFrom id specs).Pairwise fun a b => ¬overlaps a.range b.range := by
  induction specs generalizing id with
  | nil => simp [Config.netsFrom]
  | cons s specs ih =>
    obtain ⟨h1, h2⟩ := List.pairwise_cons.1 h
    refine List.pairwise_cons.2 ⟨fun n hn => ?_, ih h2 _⟩
    obtain ⟨s', hs', rfl⟩ := mem_netsFrom hn
    exact h1 _ hs'

/-- Whatever an event delivers, the routes to our own networks stay. -/
theorem coreInputs_spares_nil {r : Router} {e : Event × Instant} :
    ∀ i ∈ r.coreInputs host e, i.1.Spares [] := by
  intro i hi
  rcases mem_coreInputs host hi with ⟨q, origin, d, b, hb⟩ | hb | hb
  · rw [hb]
    intro op hop
    rcases mem_serviceOps hop with ⟨id, x, sender, -, rfl⟩ | ⟨_, _, _, rfl⟩
    · trivial
    · simp [TableOp.Spares]
  · rw [hb]
    intro op hop
    obtain rfl := List.mem_singleton.1 hop
    trivial
  · cases he : i.1 with
    | batch ops => exact absurd he (hb ops)
    | _ => trivial

/-- The ports' networks are legal ranges apart from each other, and the routes to them are
whole. -/
structure OwnRouted (r : Router) : Prop where
  legal : ∀ p ∈ r.ports, p.range.1 ≤ p.range.2
  apart : (r.ports.map Port.net).Pairwise fun a b => ¬overlaps a.range b.range
  routes : OwnRoutes (r.ports.map Port.net) r.tables.routes

/-- **In every reachable state** the routes to our own networks are whole, whatever the router
has received. -/
theorem Reachable.ownRouted {r : Router} (h : Reachable host r) : r.OwnRouted := by
  obtain ⟨r0, es, ⟨cfg, kinds, now, hv, ho, rfl⟩, rfl⟩ := h
  obtain ⟨hs, hpw⟩ := Config.validate_ok hv
  have hnets := after_nets host ho now es
  refine ⟨fun p hp => ?_, hnets ▸ netsFrom_apart hpw 0, hnets ▸ ?_⟩
  · have hmem : p.net ∈ cfg.nets := hnets ▸ List.mem_map_of_mem hp
    exact (netsFrom_sound hs 0 p.net hmem).2.2.1
  · refine Machine.run_invariant (I := fun r : Router => OwnRoutes cfg.nets r.tables.routes)
      (fun r e h => ?_) (new_own hv ho now).routes es
    rw [event_routes]
    have hspares : Machine.Guarded Core.next (fun _ i => i.1.Spares []) r.core
        (r.coreInputs host e) := Machine.guarded_of_forall coreInputs_spares_nil
    exact hspares.invariant (I := fun c : Core => OwnRoutes cfg.nets c.tables.routes)
      (fun c i h hi => h.next hi) h

/-- The best route to a network number of a port's is through that port, at distance 0. -/
theorem OwnRouted.best {r : Router} (h : r.OwnRouted) {q : Port} (hq : q ∈ r.ports) {net : UInt16}
    (hnet : q.owns net) :
    ∃ b, r.tables.best net = some b ∧ b.target = .port q.id ∧ b.distance = 0 := by
  have hnet : q.range.1 ≤ net ∧ net ≤ q.range.2 := by simpa [Port.owns] using hnet
  have hmem : q.net ∈ r.ports.map Port.net := List.mem_map_of_mem hq
  obtain ⟨b, m, hb, hm, hown, hmnet⟩ := h.routes.best hmem hnet
  have : Std.Symm fun a b : Net => ¬overlaps a.range b.range :=
    ⟨fun a b hab hba => hab (by simpa [overlaps, and_comm] using hba)⟩
  obtain rfl : m = q.net := by
    by_contra hne
    refine h.apart.forall hm hmem hne ?_
    simp only [overlaps, decide_eq_true_eq]
    exact ⟨UInt16.le_trans hmnet.1 hnet.2, UInt16.le_trans hnet.1 hmnet.2⟩
  exact ⟨b, hb, hown.2.1, hown.2.2.1⟩

/-- Whether the routes to our own networks are whole depends on the networks and the routes. -/
theorem OwnRouted.congr {r r' : Router} (h : r.OwnRouted) (hf : r'.fixed = r.fixed)
    (ht : r'.tables.routes = r.tables.routes) : r'.OwnRouted := by
  have hnets := nets_of_fixed hf
  refine ⟨fun q hq => ?_, hnets ▸ h.apart, hnets ▸ ht ▸ h.routes⟩
  obtain ⟨q', hq', he⟩ := List.mem_map.1 (hnets ▸ List.mem_map_of_mem hq)
  have := h.legal q' hq'
  rwa [show q'.range = q.range from congrArg Net.range he] at this

/-- No ZIP Reply the event delivers to this router names a zone of our own networks that they do
not have, or more zones than they have. -/
def NamesNoForeignZone (host : Host) (nets : List Net) (r : Router) (e : Event × Instant) : Prop :=
  ∀ i ∈ r.coreInputs host e, i.1.Spares nets

/-- **Our own networks are untouchable, but for a ZIP Reply.** In every run none of whose events
delivers a ZIP Reply with foreign zones for a network of our own, every configured network keeps
exactly its one route and exactly its configured zones. -/
theorem own_networks_untouched {cfg : Config} {kinds : List (String × Kind)}
    (hv : cfg.validate host = .ok ()) (ho : cfg.Opened kinds) (now : Instant)
    {es : List (Event × Instant)}
    (hes : Machine.Guarded (fun r e => (event host r e).1) (NamesNoForeignZone host cfg.nets)
      (new host cfg kinds now) es) :
    ∀ n ∈ cfg.nets, Untouched n ((new host cfg kinds now).after host es).tables := by
  have hsound := netsFrom_sound (Config.validate_ok hv).1 0
  have hown : OwnNetworks cfg.nets ((new host cfg kinds now).after host es).tables := by
    refine Machine.Guarded.invariant (I := fun r : Router => OwnNetworks cfg.nets r.tables)
      (fun r e h he => ?_) (new_own hv ho now) hes
    rw [show (r.event host e).1.tables = (r.core.after (r.coreInputs host e)).tables from
      event_routes host r e]
    have hspares : Machine.Guarded Core.next (fun _ i => i.1.Spares cfg.nets) r.core
        (r.coreInputs host e) := Machine.guarded_of_forall he
    exact hspares.invariant (I := fun c : Core => OwnNetworks cfg.nets c.tables)
      (fun c i h hi => h.next (fun n hn => (hsound n hn).2.2.1) hi) h
  exact fun n hn => hown.untouched hn (hsound n hn).2.2.2

/-- A ZIP Reply that names one zone of network 10, broadcast on its cable. -/
def zoneReply (zone : UInt8) : Llap :=
  { dst := 255, src := 1, typ := LLAP_SHORT_DDP
    data := [0, 11, ZIP_SOCKET, ZIP_SOCKET, DDP_ZIP, 2, 1, 0, 10, 1, zone] }

theorem own_networks_untouched_small :
    Untouched { port := 0, range := (10, 10), zones := [['A']] }
      (small.after .lowest [(.input (.llap 0 (zoneReply 97)), 0), (.input .tick, 1)]).tables := by
  refine @own_networks_untouched .lowest .small [("ltoudp", .ltoudp)] rfl Config.small_opened 0
    [(.input (.llap 0 (zoneReply 97)), 0), (.input .tick, 1)] ⟨?_, ?_, trivial⟩ _
    (List.mem_singleton.2 rfl)
  · have hin : small.coreInputs .lowest (.input (.llap 0 (zoneReply 97)), 0) =
        [(.batch [.addZones 10 [['a']] none], 0)] := rfl
    intro i hi
    rw [show Router.new .lowest .small [("ltoudp", .ltoudp)] 0 = small from rfl, hin] at hi
    obtain rfl := List.mem_singleton.1 hi
    intro op hop
    obtain rfl := List.mem_singleton.1 hop
    intro n hn _
    obtain rfl : n = { port := 0, range := (10, 10), zones := [['A']] } := List.mem_singleton.1 hn
    exact ⟨fun z hz => ⟨['A'], by simp, by rw [List.mem_singleton.1 hz]; decide⟩, by simp⟩
  · rintro i (_ | ⟨_, _ | ⟨_, hi⟩⟩)
    · intro op hop
      obtain rfl := List.mem_singleton.1 hop
      trivial
    · trivial
    · cases hi

/-- A ZIP Reply broadcast on the cable of network 10 puts its zone `B` on that network. -/
theorem zip_reply_pollutes :
    ∃ cfg kinds, cfg.validate Host.lowest = .ok () ∧ cfg.Opened kinds ∧
      ∃ n ∈ cfg.nets, ¬Untouched n
        ((new .lowest cfg kinds 0).after .lowest
          [(.input (.llap 0 (zoneReply 66)), 0)]).tables := by
  refine ⟨.small, _, rfl, Config.small_opened, { port := 0, range := (10, 10), zones := [['A']] },
    by decide, ?_⟩
  have hz : (small.after .lowest [(.input (.llap 0 (zoneReply 66)), 0)]).tables.zones 10 =
      some { names := [['A'], ['B']], expected := none } := by decide +kernel
  rintro ⟨-, z, hz', hnames, -⟩
  obtain rfl := Option.some.inj (hz.symm.trans hz')
  exact absurd hnames (by decide)

end Router

end AppleTalk
