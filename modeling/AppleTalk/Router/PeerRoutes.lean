import AppleTalk.Properties.Bookkeeping

/-!
# The routes through a peer

What holds of every route through a tunnel in every run: it has no next router and is good, since a
peer's tuples are stored below distance 15 only and its routes never age. So there is one for each
range, and what an update event does to it can be said of the routes as a list.
-/

namespace AppleTalk

open TableOp

/-! ### Through no router, and good -/

/-- A tuple from a peer is below distance 15 and names no next router. -/
def TableOp.Tunnels : TableOp → Prop
  | .learn x g next _ => g.isPeer → x.distance < 15 ∧ next = Tables.NO_NEXT
  | _ => True

/-- Every route through a peer has no next router and is good. -/
def Tables.Tunnelled (t : Tables) : Prop :=
  ∀ r ∈ t.routes, r.target.isPeer → r.next = Tables.NO_NEXT ∧ r.state = .good

theorem Tables.Tunnelled.apply {t : Tables} (h : t.Tunnelled) {op : TableOp} (hop : op.Tunnels) :
    (op.apply t).1.Tunnelled := by
  intro r hr hpeer
  rw [apply_routes] at hr
  by_cases hl : ∃ x g next now, op = .learn x g next now
  · obtain ⟨x, g, next, now, rfl⟩ := hl
    simp only [TableOp.routes] at hr
    split_ifs at hr
    · exact h r hr hpeer
    rcases Tables.mem_learnRoutes hr with hr | ⟨q, hq, hentry, -, rfl⟩ | ⟨-, -, rfl⟩
    · exact h r hr hpeer
    · simp only [Tables.entryOf, decide_eq_true_eq] at hentry
      obtain ⟨-, rfl, rfl⟩ := hentry
      obtain ⟨hd, hnext⟩ := hop hpeer
      have hbad : Tables.bad x = false := by
        refine decide_eq_false fun h31 => ?_
        rw [h31] at hd
        exact absurd hd (by decide)
      exact ⟨hnext, by simp [Tables.replaceEntry, hbad]⟩
    · exact ⟨(hop hpeer).2, rfl⟩
  · push Not at hl
    rw [routes_eq_filterMap hl] at hr
    obtain ⟨q, hq, ho⟩ := List.mem_filterMap.1 hr
    obtain ⟨-, hg, hn⟩ := onRoute_same ho
    have hq' := h q hq (hg ▸ hpeer)
    refine ⟨hn ▸ hq'.1, ?_⟩
    cases op with
    | learn x g next now => exact absurd rfl (hl x g next now)
    | age now =>
      simp only [onRoute, Tables.ageRoute] at ho
      rw [if_pos (by simp [← hg, hpeer])] at ho
      obtain rfl := Option.some.inj ho
      exact hq'.2
    | removeTarget | remove =>
      simp only [onRoute] at ho
      split_ifs at ho
      obtain rfl := Option.some.inj ho
      exact hq'.2
    | setDistance =>
      simp only [onRoute] at ho
      split_ifs at ho <;> obtain rfl := Option.some.inj ho <;> exact hq'.2
    | addZones =>
      obtain rfl := Option.some.inj ho
      exact hq'.2

namespace Peer

theorem tunnels_of_mem_routingOps {p : Peer} {conn seq : UInt16} {cmd : Cmd} {tables : Tables}
    {now : Instant} : ∀ op ∈ p.routingOps conn seq cmd tables now, op.Tunnels :=
  forall_mem_routingOps (I := fun _ => True) (fun _ _ hd _ => ⟨hd, rfl⟩) (fun _ _ _ => trivial)
    (fun _ => trivial) trivial (fun _ _ _ _ _ _ => trivial) (fun _ _ _ _ => trivial) trivial

end Peer

/-! ### Reached tables -/

namespace Router

variable {host : Host}

theorem ops_tunnels (r : Router) (e : Event × Instant) (i : CoreIn × Instant)
    (hi : i ∈ r.coreInputs host e) (c : Core) : ∀ op ∈ c.ops i, op.Tunnels := by
  intro op hop
  obtain ⟨i, now⟩ := i
  rcases mem_coreInputs host hi with ⟨q, origin, d, b, hb⟩ | hb | hb
  · obtain rfl : i = _ := hb
    rcases mem_serviceOps hop with ⟨id, x, sender, -, rfl⟩ | ⟨_, _, _, rfl⟩
    · exact fun hpeer => absurd hpeer Bool.false_ne_true
    · trivial
  · obtain rfl : i = _ := hb
    obtain rfl := List.mem_singleton.1 hop
    trivial
  · cases i with
    | batch ops => exact absurd rfl (hb ops)
    | packet «from» bytes =>
      obtain ⟨_, _, _, _, _, -, -, hop⟩ := Peers.mem_packetOps hop
      exact Peer.tunnels_of_mem_routingOps op hop
    | tick =>
      obtain ⟨_, _, -, -, rfl⟩ := Peers.mem_tickOps.1 hop
      trivial
    | _ => cases hop

end Router

/-- Tables in a run of a router whose configuration is valid, also in the middle of an event. -/
def Tables.Reached (host : Host) (t : Tables) : Prop :=
  ∃ cfg kinds now ops, cfg.validate host = .ok () ∧ cfg.Opened kinds ∧
    (∀ op ∈ ops, op.Called ∧ op.Tunnels) ∧
    t = TableOp.after (Router.new host cfg kinds now).tables ops

theorem Router.Reachable.tables_reached {host : Host} {r : Router} (h : Reachable host r) :
    r.tables.Reached host := by
  obtain ⟨r₀, es, ⟨cfg, kinds, now, hv, ho, rfl⟩, rfl⟩ := h
  obtain ⟨ops, hops, ht⟩ := Router.after_tables_of (P := fun op => op.Called ∧ op.Tunnels)
    (fun r e i hi c op hop => And.intro (ops_called hi c op hop) (ops_tunnels r e i hi c op hop))
    (Router.new host cfg kinds now) es
  exact ⟨cfg, kinds, now, ops, hv, ho, hops, ht⟩

namespace Tables

variable {host : Host} {t : Tables}

theorem Reached.kept (h : t.Reached host) : t.Kept := by
  obtain ⟨cfg, kinds, now, ops, hv, ho, -, rfl⟩ := h
  exact Machine.run_invariant (I := Kept) (fun t op ht => ht.apply op)
    (Router.new_kept hv ho now) ops

theorem Reached.tunnelled (h : t.Reached host) : t.Tunnelled := by
  obtain ⟨cfg, kinds, now, ops, hv, ho, hops, rfl⟩ := h
  refine (Machine.guarded_of_forall hops).invariant (I := Tunnelled)
    (fun t op ht hop => ht.apply hop.2) fun r hr hpeer => ?_
  rcases Router.addPorts_direct now 0 (kinds.zip cfg.portSpecs) new r hr with h | ⟨_, _, h⟩
  · simp [new] at h
  · obtain ⟨n, -, hown⟩ := (Router.new_own hv ho now).routes.zero r hr h.distance
    rw [hown.2.1] at hpeer
    exact absurd hpeer Bool.false_ne_true

/-! ### Entries of one range -/

/-- Where at most one element is picked out, changing the first is changing all. -/
theorem modifyFirst_eq_map {α : Type} {p : α → Bool} {f : α → α} {l : List α}
    (h : l.Pairwise fun a b => ¬(p a ∧ p b)) :
    modifyFirst p f l = l.map fun a => if p a then f a else a := by
  induction l with
  | nil => rfl
  | cons a l ih =>
    obtain ⟨ha, hl⟩ := List.pairwise_cons.1 h
    rw [modifyFirst, List.map_cons]
    split_ifs with hp
    · have hrest : (l.map fun b => if p b then f b else b) = l :=
        (List.map_congr_left fun b hb => if_neg fun hpb => ha b hb ⟨hp, hpb⟩).trans (List.map_id l)
      rw [hrest]
    · rw [ih hl]

/-- Putting back the routes there are changes nothing. -/
theorem Kept.update_self (h : t.Kept) (s : UInt16) : (t.update [s] t.routes).1 = t := by
  have hkey : Function.update t.bestKey s ((t.bestForStart s).map Route.key) = t.bestKey := by
    rw [← h.best s, Function.update_eq_self]
  show t.record s = t
  unfold record
  rw [hkey]
  split_ifs with hany
  · rfl
  · have hnone : ∀ r ∈ t.routes, r.range.1 ≠ s := fun r hr hs =>
      hany (List.any_eq_true.2 ⟨r, hr, decide_eq_true hs⟩)
    have hzone : t.zoneTable s = none := Option.eq_none_iff_forall_not_mem.2 fun z hz => by
      obtain ⟨r, hr, hs⟩ := h.zones s z hz
      exact hnone r hr hs
    have hbest : t.bestKey s = none := by
      rw [h.best s, bestForStart_eq_none hnone]
      rfl
    have hzones : Function.update t.zoneTable s none = t.zoneTable := by
      rw [← hzone, Function.update_eq_self]
    have hkeys : Function.update t.bestKey s none = t.bestKey := by
      rw [← hbest, Function.update_eq_self]
    dsimp only
    rw [hzones, hkeys]

end Tables

end AppleTalk
