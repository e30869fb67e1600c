import AppleTalk.Properties.OwnNetworks
import AppleTalk.Router.Settling

/-!
# The books of the tables

The three maps of the tables agree with each other in every run: zone lists belong to stored
ranges, the incumbent of a range start is its best route, and no entry is there twice. Distance 0
is for our own networks, and no distance is above 15.
-/

namespace AppleTalk

open TableOp

/-! ### The operations the router calls -/

namespace TableOp

/-- An operation as the services and the tunnel peers call it: what is removed, or changed by
target, came over a tunnel, and a distance is set to the peer's plus the tunnel hop. -/
def Called : TableOp → Prop
  | .learn .. | .age _ | .addZones .. => True
  | .removeTarget g | .remove g _ => g.isPeer
  | .setDistance g _ d _ => g.isPeer ∧ 1 ≤ d ∧ d ≤ 15

theorem Called.spares {op : TableOp} (h : op.Called) : op.Spares [] := by
  cases op with
  | setDistance g start d now =>
    refine ⟨h.1, fun h0 => ?_⟩
    have := h.2.1
    rw [h0] at this
    exact absurd this (by decide)
  | addZones => simp [Spares]
  | _ => exact h

/-- One more hop to a distance below 15 is 1 to 15. -/
theorem succ_distance {d : UInt8} (h : d < 15) : 1 ≤ d + 1 ∧ d + 1 ≤ 15 := by
  have hd : d.toNat < 15 := UInt8.lt_iff_toNat_lt.1 h
  simp only [UInt8.le_iff_toNat_le, UInt8.toNat_add]
  simp
  omega

end TableOp

/-- Whatever a routing packet causes is called so. -/
theorem Peer.Causes.called {p : Peer} {op : TableOp} (h : p.Causes op) : op.Called := by
  cases h with
  | setDistance start hd now => exact ⟨rfl, succ_distance hd⟩
  | learn | addZones => trivial
  | _ => rfl

namespace Router

variable {host : Host}

/-- Every operation of an event is called so. -/
theorem ops_called {r : Router} {e : Event × Instant} {i : CoreIn × Instant}
    (hi : i ∈ r.coreInputs host e) (c : Core) : ∀ op ∈ c.ops i, op.Called := by
  intro op hop
  obtain ⟨i, now⟩ := i
  rcases mem_coreInputs host hi with ⟨q, origin, d, b, hb⟩ | hb | hb
  · obtain rfl : i = _ := hb
    rcases mem_serviceOps hop with ⟨id, x, sender, -, rfl⟩ | ⟨_, _, _, rfl⟩ <;> trivial
  · obtain rfl : i = _ := hb
    obtain rfl := List.mem_singleton.1 hop
    trivial
  · cases i with
    | batch ops => exact absurd rfl (hb ops)
    | packet «from» bytes =>
      obtain ⟨_, _, _, _, _, -, -, hop⟩ := Peers.mem_packetOps hop
      exact (Peer.causes_of_mem_routingOps op hop).called
    | tick =>
      obtain ⟨_, _, -, -, rfl⟩ := Peers.mem_tickOps.1 hop
      rfl
    | _ => cases hop

/-- The tables of every run are reached by operations as the events of any run have them. -/
theorem after_tables_of {P : TableOp → Prop}
    (hP : ∀ (r : Router) (e : Event × Instant), ∀ i ∈ r.coreInputs host e, ∀ c : Core,
      ∀ op ∈ c.ops i, P op) (r : Router) (es : List (Event × Instant)) :
    ∃ ops : List TableOp, (∀ op ∈ ops, P op) ∧
      (r.after host es).tables = TableOp.after r.tables ops := by
  have hcore : ∀ (is : List (CoreIn × Instant)) (c : Core),
      (∀ i ∈ is, ∀ c : Core, ∀ op ∈ c.ops i, P op) →
      ∃ ops : List TableOp, (∀ op ∈ ops, P op) ∧
        (c.after is).tables = TableOp.after c.tables ops := by
    intro is
    induction is with
    | nil => exact fun c _ => ⟨[], by simp, rfl⟩
    | cons i is ih =>
      intro c h
      obtain ⟨ops, hops, he⟩ := ih (c.next i) fun j hj => h j (List.mem_cons_of_mem _ hj)
      refine ⟨c.ops i ++ ops, List.forall_mem_append.2 ⟨h i List.mem_cons_self c, hops⟩, ?_⟩
      rw [TableOp.after, Machine.run_append]
      rw [Core.next_tables] at he
      exact he
  induction es generalizing r with
  | nil => exact ⟨[], by simp, rfl⟩
  | cons e es ih =>
    obtain ⟨ops, hops, he⟩ := hcore (r.coreInputs host e) r.core (hP r e)
    obtain ⟨ops', hops', he'⟩ := ih (r.event host e).1
    refine ⟨ops ++ ops', List.forall_mem_append.2 ⟨hops, hops'⟩, ?_⟩
    rw [TableOp.after, Machine.run_append]
    refine he'.trans ?_
    rw [event_routes, he]
    rfl

/-- The tables of every run are reached by operations that are called so. -/
theorem after_tables (r : Router) (es : List (Event × Instant)) :
    ∃ ops : List TableOp, (∀ op ∈ ops, op.Called) ∧
      (r.after host es).tables = TableOp.after r.tables ops :=
  after_tables_of (fun _ _ _ hi c => ops_called hi c) r es

end Router

/-! ### The books -/

/-- What the maps of the tables owe each other. -/
structure Tables.Kept (t : Tables) : Prop where
  zones : ∀ s z, t.zoneTable s = some z → ∃ r ∈ t.routes, r.range.1 = s
  best : t.Recorded
  once : (t.routes.map fun r => (r.range, r.key)).Nodup

/-- Mapping what a filter leaves gives part of the mapped list, if it leaves the image alone. -/
theorem map_filterMap_sublist {α β : Type} {f : α → Option α} {k : α → β}
    (hf : ∀ a b, f a = some b → k b = k a) (l : List α) :
    ((l.filterMap f).map k).Sublist (l.map k) := by
  induction l with
  | nil => exact .slnil
  | cons a l ih =>
    rw [List.filterMap_cons]
    split
    · exact ih.cons _
    · rename_i b hb
      rw [List.map_cons, List.map_cons, hf a b hb]
      exact ih.cons_cons _

theorem map_modifyFirst {α β : Type} {p : α → Bool} {f : α → α} {k : α → β}
    (hf : ∀ a, p a → k (f a) = k a) (l : List α) :
    (Tables.modifyFirst p f l).map k = l.map k := by
  induction l with
  | nil => rfl
  | cons a l ih =>
    rw [Tables.modifyFirst]
    split_ifs with hp
    · rw [List.map_cons, List.map_cons, hf a hp]
    · rw [List.map_cons, List.map_cons, ih]

namespace TableOp

/-- No operation stores an entry twice. -/
theorem once_routes {rs : List Route} (h : (rs.map fun r => (r.range, r.key)).Nodup)
    (op : TableOp) : ((op.routes rs).map fun r => (r.range, r.key)).Nodup := by
  by_cases hl : ∃ x g next now, op = .learn x g next now
  · obtain ⟨x, g, next, now, rfl⟩ := hl
    simp only [routes]
    split_ifs
    · exact h
    unfold Tables.learnRoutes
    split_ifs with hany
    · exact h.sublist (List.eraseP_sublist.map _)
    · have hsame := map_modifyFirst (p := Tables.entryOf x g next) (f := Tables.replaceEntry x now)
        (k := fun r : Route => (r.range, r.key)) (fun _ _ => rfl) rs
      rwa [hsame]
    · exact h
    all_goals
      rw [List.map_append, List.nodup_append]
      refine ⟨h, by simp, fun a ha b hb he => ?_⟩
      obtain ⟨r, hr, rfl⟩ := List.mem_map.1 ha
      obtain rfl := List.mem_singleton.1 hb
      simp only [Route.key, Prod.mk.injEq] at he
      exact hany (List.any_eq_true.2 ⟨r, hr, by simp [Tables.entryOf, he]⟩)
  · push Not at hl
    rw [routes_eq_filterMap hl]
    refine h.sublist (map_filterMap_sublist (fun r r' hr => ?_) rs)
    obtain ⟨h1, h2, h3⟩ := onRoute_same hr
    simp only [Route.key, h1, h2, h3]

end TableOp

/-- Where the routes of a range start stay, so does that it has one. -/
theorem exists_of_filter_eq {rs rs' : List Route} {s : UInt16}
    (h : (rs'.filter fun r => r.range.1 = s) = rs.filter fun r => r.range.1 = s)
    (hs : ∃ r ∈ rs, r.range.1 = s) : ∃ r ∈ rs', r.range.1 = s := by
  obtain ⟨r, hr, hs⟩ := hs
  have hmem : r ∈ rs'.filter fun r => r.range.1 = s :=
    h ▸ List.mem_filter.2 ⟨hr, by simpa using hs⟩
  exact ⟨r, (List.mem_filter.1 hmem).1, hs⟩

/-- **One operation** keeps the books. -/
theorem Tables.Kept.apply {t : Tables} (h : t.Kept) (op : TableOp) : (op.apply t).1.Kept := by
  refine ⟨fun s z hz => ?_, TableOp.recorded_apply h.best op, ?_⟩
  · rw [apply_routes]
    by_cases ha : ∃ start names expected, op = .addZones start names expected
    · obtain ⟨start, names, expected, rfl⟩ := ha
      simp only [TableOp.apply, Tables.addZones] at hz
      split at hz
      · exact h.zones s z hz
      · rename_i r0 hr0
        by_cases hs : s = start
        · have := List.find?_some hr0
          exact ⟨r0, List.mem_of_find?_eq_some hr0, by simpa [hs] using this⟩
        · dsimp only at hz
          exact h.zones s z (by rwa [Function.update_of_ne hs] at hz)
    · push Not at ha
      rw [apply_eq_update ha, Tables.update,
        Tables.settle_zoneTable _ (by simp [Tables.snapshot])] at hz
      split_ifs at hz with hs
      push Not at hs
      by_cases hmem : s ∈ op.touched t
      · exact hs hmem
      · exact exists_of_filter_eq (routes_untouched hmem) (h.zones s z hz)
  · rw [apply_routes]
    exact once_routes h.once op

/-! ### The tables of the configured ports -/

theorem Tables.kept_new : Tables.new.Kept :=
  ⟨by simp [Tables.new], fun s => by
    rw [bestForStart_eq_none (by simp [Tables.new])]
    rfl, by simp [Tables.new]⟩

section AddPort

variable {t : Tables} {port : PortId} {range : UInt16 × UInt16}

/-- A new port's range start has the port's route for its best, and the others keep theirs. -/
theorem addPort_bestForStart (hfree : ∀ r ∈ t.routes, r.range.1 ≠ range.1) (extended : Bool)
    (zones : List Str) (now : Instant) (s : UInt16) :
    (t.addPort port range extended zones now).bestForStart s =
      if s = range.1 then
        some { range := range, extended := extended, distance := 0, target := .port port
               next := Tables.NO_NEXT, state := .good, seen := now }
      else t.bestForStart s := by
  split_ifs with hs
  · subst hs
    have hold : (t.routes.filter fun r => r.range.1 = range.1) = [] :=
      List.filter_eq_nil_iff.2 fun r hr => by simpa using hfree r hr
    unfold Tables.bestForStart Tables.pick
    have hfilter : ((t.addPort port range extended zones now).routes.filter fun r =>
        r.state.usable && decide (r.range.1 = range.1)) =
        [{ range := range, extended := extended, distance := 0, target := .port port
           next := Tables.NO_NEXT, state := .good, seen := now }] := by
      rw [← List.filter_filter]
      simp [Tables.addPort, List.filter_append, hold, State.usable]
    rw [hfilter]
    rfl
  · refine Tables.bestForStart_congr ?_ (Function.update_of_ne hs _ _)
    simp [Tables.addPort, List.filter_append, Ne.symm hs]

theorem Tables.Kept.addPort (h : t.Kept) (hfree : ∀ r ∈ t.routes, r.range.1 ≠ range.1)
    (extended : Bool) (zones : List Str) (now : Instant) :
    (t.addPort port range extended zones now).Kept := by
  refine ⟨fun s z hz => ?_, fun s => ?_, ?_⟩
  · by_cases hs : s = range.1
    · exact ⟨_, List.mem_append_right _ (List.mem_singleton_self _), hs.symm⟩
    · simp only [Tables.addPort, Function.update_of_ne hs] at hz
      obtain ⟨r, hr, hr'⟩ := h.zones s z hz
      exact ⟨r, List.mem_append_left _ hr, hr'⟩
  · rw [addPort_bestForStart hfree]
    split_ifs with hs
    · subst hs
      simp [Tables.addPort, Route.key]
    · rw [← h.best s]
      exact Function.update_of_ne hs _ _
  · simp only [Tables.addPort, List.map_append, List.nodup_append]
    refine ⟨h.once, by simp, fun a ha b hb he => ?_⟩
    obtain ⟨r, hr, rfl⟩ := List.mem_map.1 ha
    obtain rfl := List.mem_singleton.1 hb
    exact hfree r hr (congrArg (fun k => k.1.1) he)

end AddPort

namespace Router

variable {host : Host}

/-- Legal ranges apart from each other start at different networks. -/
theorem start_ne {a b : UInt16 × UInt16} (ha : a.1 ≤ a.2) (hb : b.1 ≤ b.2) (h : ¬overlaps a b) :
    a.1 ≠ b.1 := by
  intro he
  refine h ?_
  simp only [overlaps, decide_eq_true_eq]
  exact ⟨he ▸ hb, he ▸ ha⟩

theorem addPorts_kept (now : Instant)
    {specs : List ((String × Kind) × (UInt16 × UInt16) × List Str)} {id : ℕ} {t : Tables}
    (h : t.Kept) (hs : ∀ s ∈ specs.map Prod.snd, Config.Sound s)
    (hpw : (specs.map Prod.snd).Pairwise fun a b => ¬overlaps a.1 b.1)
    (hfree : ∀ r ∈ t.routes, ∀ s ∈ specs.map Prod.snd, r.range.1 ≠ s.1.1) :
    (addPorts host now id specs t).2.Kept := by
  induction specs generalizing id t with
  | nil => exact h
  | cons s specs ih =>
    obtain ⟨⟨name, kind⟩, range, zones⟩ := s
    simp only [List.map_cons, List.pairwise_cons, List.forall_mem_cons] at hs hpw hfree
    refine ih (h.addPort (fun r hr => (hfree r hr).1) _ _ now) hs.2 hpw.2 fun r hr s hmem => ?_
    rcases List.mem_append.1 hr with hr | hr
    · exact (hfree r hr).2 s hmem
    · rw [List.mem_singleton.1 hr]
      exact start_ne hs.1.2.2.1 (hs.2 s hmem).2.2.1 (hpw.1 s hmem)

/-- A router starts with its books kept. -/
theorem new_kept {cfg : Config} {kinds : List (String × Kind)} (hv : cfg.validate host = .ok ())
    (ho : cfg.Opened kinds) (now : Instant) : (new host cfg kinds now).tables.Kept := by
  obtain ⟨hs, hpw⟩ := Config.validate_ok hv
  refine addPorts_kept now Tables.kept_new ?_ ?_ (by simp [Tables.new])
  · rwa [zip_snd ho]
  · rwa [zip_snd ho]

end Router

/-! ### Distances -/

/-- No operation that is called stores a distance above 15. -/
theorem distance_routes {rs : List Route} (h : ∀ r ∈ rs, r.distance ≤ 15) {op : TableOp}
    (hop : op.Called) : ∀ r ∈ op.routes rs, r.distance ≤ 15 := by
  by_cases hl : ∃ x g next now, op = .learn x g next now
  · obtain ⟨x, g, next, now, rfl⟩ := hl
    simp only [routes]
    split_ifs
    · exact h
    intro r hr
    have hnew : ∀ {x : NetworkTuple}, Tables.unreachable x = false → Tables.bad x = false →
        x.distance + 1 ≤ 15 := fun hu hb =>
      (succ_distance (by simpa [Tables.unreachable, hb] using hu)).2
    rcases Tables.mem_learnRoutes hr with hr | ⟨q, hq, -, hu, rfl⟩ | ⟨hu, hb, rfl⟩
    · exact h r hr
    · unfold Tables.replaceEntry
      dsimp only
      split_ifs with hb
      · exact h q hq
      · exact hnew hu (by simpa using hb)
    · exact hnew hu hb
  · push Not at hl
    rw [routes_eq_filterMap hl]
    intro r' hr'
    obtain ⟨r, hr, he⟩ := List.mem_filterMap.1 hr'
    have hd := h r hr
    cases op with
    | age now =>
      simp only [onRoute, Tables.ageRoute] at he
      split_ifs at he
      · rwa [← Option.some.inj he]
      · rwa [← Option.some.inj he]
      · obtain ⟨s, -, rfl⟩ := Option.map_eq_some_iff.1 he
        exact hd
    | setDistance g start d now =>
      simp only [onRoute] at he
      split_ifs at he
      · rw [← Option.some.inj he]
        exact hop.2.2
      · rwa [← Option.some.inj he]
    | removeTarget | remove =>
      simp only [onRoute] at he
      split_ifs at he
      rwa [← Option.some.inj he]
    | learn | addZones => rwa [← Option.some.inj he]

/-! ### Every run -/

namespace Router

variable {host : Host}

/-- The tables keep their books: zone lists belong to stored ranges, the incumbent of a range start
is its best route, no entry is there twice, distance 0 is for the entries of the configured ports,
and the others are at 1 to 15. -/
structure Orderly (nets : List Net) (t : Tables) : Prop where
  zones : ∀ s z, t.zoneTable s = some z → ∃ r ∈ t.routes, r.range.1 = s
  best : ∀ s, t.bestKey s = (t.bestForStart s).map fun r => (r.target, r.next)
  once : t.routes.Pairwise fun a b =>
    ¬(a.range = b.range ∧ a.target = b.target ∧ a.next = b.next)
  zero : ∀ r ∈ t.routes, r.distance = 0 ↔ ∃ n ∈ nets, r.range = n.range ∧ r.target = .port n.port
  bound : ∀ r ∈ t.routes, r.distance ≤ 15

/-- **The tables keep their books** in every run of the operations the router calls. -/
theorem tables_orderly {cfg : Config} {kinds : List (String × Kind)}
    (hv : cfg.validate host = .ok ()) (ho : cfg.Opened kinds) (now : Instant)
    {ops : List TableOp} (hops : ∀ op ∈ ops, op.Called) :
    Orderly cfg.nets (TableOp.after (new host cfg kinds now).tables ops) := by
  have hrun : ∀ {I : Tables → Prop}, (∀ t (op : TableOp), I t → op.Called → I (op.apply t).1) →
      I (new host cfg kinds now).tables → I (TableOp.after (new host cfg kinds now).tables ops) :=
    fun {I} hstep h0 => (Machine.guarded_of_forall hops).invariant (I := I) hstep h0
  have hkept := hrun (I := Tables.Kept) (fun t op h _ => h.apply op) (new_kept hv ho now)
  have hown := hrun (I := fun t => OwnRoutes cfg.nets t.routes)
    (fun t op h hop => by
      rw [apply_routes]
      exact h.step hop.spares) (new_own hv ho now).routes
  have hbound := hrun (I := fun t => ∀ r ∈ t.routes, r.distance ≤ 15)
    (fun t op h hop => by
      rw [apply_routes]
      exact distance_routes h hop) ?_
  · refine ⟨hkept.zones, hkept.best, ?_, fun r hr => ⟨fun h0 => ?_, ?_⟩, hbound⟩
    · refine (List.pairwise_map.1 hkept.once).imp ?_
      rintro a b hab ⟨h1, h2, h3⟩
      exact hab (by simp only [Route.key, h1, h2, h3])
    · obtain ⟨n, hn, h⟩ := hown.zero r hr h0
      exact ⟨n, hn, h.1, h.2.1⟩
    · rintro ⟨n, hn, hrange, -⟩
      obtain ⟨r', hr', h⟩ := hown.kept n hn
      have hmem : r ∈ (TableOp.after (new host cfg kinds now).tables ops).routes.filter
          fun r => r.range = n.range := List.mem_filter.2 ⟨hr, by simpa using hrange⟩
      rw [hr'] at hmem
      rw [List.mem_singleton.1 hmem]
      exact h.2.2.1
  · intro r hr
    have hzero : r.distance = 0 := by
      rcases addPorts_direct now 0 (kinds.zip cfg.portSpecs) Tables.new r hr with h | ⟨_, _, h⟩
      · simp [Tables.new] at h
      · exact h.distance
    rw [hzero]
    decide

/-- A tuple from a neighbour and one from a tunnel for the same range, a new distance for the
second, and a tick of the validity timer. -/
theorem tables_orderly_small :
    Orderly Config.small.nets (TableOp.after Router.small.tables
      [.learn { range := (20, 25), extended := true, distance := 3 } (.port 0) ⟨10, 1⟩ 0,
        .learn { range := (20, 25), extended := true, distance := 3 } (.peer ⟨192, 0, 2, 7⟩)
          Tables.NO_NEXT 0,
        .setDistance (.peer ⟨192, 0, 2, 7⟩) 20 2 0, .age VALIDITY]) :=
  @tables_orderly .lowest _ _ rfl Config.small_opened 0 _
    (by simp [TableOp.Called, Target.isPeer])

end Router

end AppleTalk
