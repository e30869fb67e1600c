import AppleTalk.Router.CoreMoves
import AppleTalk.Router.Pages
import AppleTalk.Wire.RoundTrip
import Mathlib.Data.ENat.Basic

/-!
# Distances that are not too short

A floor says which ranges there are and how far away each is at the least. What the tables store
and what waits for the tunnel peers stays above it for as long as everything the router is told
does, and so does everything it sends.
-/

namespace AppleTalk

open TableOp

/-- What is known beforehand of the distances from a router: the ranges there are, and for the
first network of each the fewest steps it can be away. -/
structure Floor where
  ranges : Set (UInt16 × UInt16)
  least : UInt16 → ℕ∞

namespace Floor

variable {F : Floor}

/-- A stored distance: of a range there is, and not too short. -/
structure Above (F : Floor) (x : NetworkTuple) : Prop where
  range : x.range ∈ F.ranges
  wire : x.WireOk
  least : F.least x.range.1 ≤ x.distance.toNat

/-- A tuple sent `k` steps away. From distance 15 up it announces no way to get there. -/
structure Fair (F : Floor) (k : ℕ) (x : NetworkTuple) : Prop where
  range : x.range ∈ F.ranges
  wire : x.WireOk
  least : x.distance < 15 → F.least x.range.1 ≤ (x.distance.toNat + k : ℕ)

theorem Above.fair {x : NetworkTuple} (h : F.Above x) : F.Fair 0 x :=
  ⟨h.range, h.wire, fun _ => h.least⟩

/-- Every stored distance is above the floor. -/
def Holds (F : Floor) (rs : List Route) : Prop := ∀ r ∈ rs, F.Above r.tuple

end Floor

/-! ### The tables -/

namespace TableOp

/-- What the operation stores is not too short. -/
def Fair (F : Floor) : TableOp → Prop
  | .learn x _ _ _ => F.Fair 1 x
  | .setDistance _ start d _ => d ≤ 127 ∧ F.least start ≤ d.toNat
  | _ => True

end TableOp

/-- One more step is no overflow below distance 15. -/
theorem toNat_succ_distance {d : UInt8} (h : d < 15) : (d + 1).toNat = d.toNat + 1 := by
  have h : d.toNat < 15 := UInt8.lt_iff_toNat_lt.1 h
  rw [UInt8.toNat_add]
  simp
  omega

theorem Tables.distance_lt {x : NetworkTuple} (hu : unreachable x = false)
    (hb : bad x = false) : x.distance < 15 := by
  simpa [unreachable, hb] using hu

namespace Floor

variable {F : Floor}

/-- A tuple from a neighbour is stored one step further on. -/
theorem Fair.learned {x : NetworkTuple} (h : F.Fair 1 x) (hd : x.distance < 15) :
    F.Above { x with distance := x.distance + 1 } := by
  refine ⟨h.range, ⟨?_, h.wire.2⟩, ?_⟩
  · have h15 : x.distance.toNat < 15 := UInt8.lt_iff_toNat_lt.1 hd
    rw [UInt8.le_iff_toNat_le, toNat_succ_distance hd]
    simp
    omega
  · rw [toNat_succ_distance hd]
    exact h.least hd

theorem Holds.learn {rs : List Route} (h : F.Holds rs) {x : NetworkTuple} (hx : F.Fair 1 x)
    (g : Target) (next : Addr) (now : Instant) :
    F.Holds (Tables.learnRoutes rs x g next now) := by
  intro r hr
  rcases Tables.mem_learnRoutes hr with hr | ⟨q, hq, hent, hu, rfl⟩ | ⟨hu, hb, rfl⟩
  · exact h r hr
  · have hq := h q hq
    obtain ⟨hrange, -, -⟩ : q.range = x.range ∧ q.target = g ∧ q.next = next := by
      simpa [Tables.entryOf] using hent
    by_cases hb : Tables.bad x = true
    · -- Notify neighbour leaves the distance, and the range is one that is stored already.
      have hkept :
          (Tables.replaceEntry x now q).tuple = { q.tuple with extended := x.extended } := by
        simp [Tables.replaceEntry, Route.tuple, hb]
      rw [hkept]
      exact ⟨hq.range, ⟨hq.wire.1, fun he => by
        have := hx.wire.2 he
        rwa [← hrange] at this⟩, hq.least⟩
    · have hnew : (Tables.replaceEntry x now q).tuple = { x with distance := x.distance + 1 } := by
        simp [Tables.replaceEntry, Route.tuple, hb, hrange]
      rw [hnew]
      exact hx.learned (Tables.distance_lt hu (by simpa using hb))
  · exact hx.learned (Tables.distance_lt hu hb)

/-- A stored distance changes by what sets it and by nothing else. -/
theorem Above.onRoute {op : TableOp} (hop : op.Fair F) {r r' : Route} (h : F.Above r.tuple)
    (hr : op.onRoute r = some r') : F.Above r'.tuple := by
  cases op with
  | age now =>
    simp only [TableOp.onRoute, Tables.ageRoute] at hr
    split_ifs at hr
    · rwa [← Option.some.inj hr]
    · rwa [← Option.some.inj hr]
    · obtain ⟨s, -, rfl⟩ := Option.map_eq_some_iff.1 hr
      exact h
  | setDistance g start d now =>
    simp only [TableOp.onRoute] at hr
    split_ifs at hr with ht
    · obtain rfl := Option.some.inj hr
      obtain ⟨-, rfl⟩ := ht
      exact ⟨h.range, ⟨hop.1, h.wire.2⟩, hop.2⟩
    · rwa [← Option.some.inj hr]
  | removeTarget | remove =>
    simp only [TableOp.onRoute] at hr
    split_ifs at hr
    rwa [← Option.some.inj hr]
  | learn | addZones => rwa [← Option.some.inj hr]

/-- **One operation** keeps the tables above the floor. -/
theorem Holds.step {rs : List Route} (h : F.Holds rs) {op : TableOp} (hop : op.Fair F) :
    F.Holds (op.routes rs) := by
  by_cases hl : ∃ x g next now, op = .learn x g next now
  · obtain ⟨x, g, next, now, rfl⟩ := hl
    simp only [TableOp.routes]
    split_ifs
    · exact h
    · exact h.learn hop g next now
  · push Not at hl
    rw [routes_eq_filterMap hl]
    intro r' hr'
    obtain ⟨r, hr, he⟩ := List.mem_filterMap.1 hr'
    exact (h r hr).onRoute hop he

theorem Holds.after {t : Tables} (h : F.Holds t.routes) {ops : List TableOp}
    (hops : ∀ op ∈ ops, op.Fair F) : F.Holds (TableOp.after t ops).routes := by
  have hg : Machine.Guarded (fun t op => (apply t op).1) (fun _ op => op.Fair F) t ops :=
    Machine.guarded_of_forall hops
  exact hg.invariant (I := fun t : Tables => F.Holds t.routes) (fun t op h hop => by
    rw [apply_routes]
    exact h.step hop) h

/-- The best route of a change is a stored one. -/
theorem Holds.best {t : Tables} (h : F.Holds t.routes) {start : UInt16} {r : Route}
    (hr : t.bestForStart start = some r) : F.Above r.tuple := h r (Tables.pick_eq_some hr).1

/-- What an operation reports is what it stores. -/
theorem Holds.changes {t : Tables} (h : F.Holds t.routes) {op : TableOp} (hop : op.Fair F) :
    ∀ c ∈ (op.apply t).2, ∀ r ∈ c.new, F.Above r.tuple := by
  have hroutes := h.step hop
  rw [← apply_routes] at hroutes
  have hupdate : ∀ ss routes, F.Holds routes →
      ∀ c ∈ (t.update ss routes).2, ∀ r ∈ c.new, F.Above r.tuple := by
    intro ss routes hrs c hc r hr
    simp only [Tables.update, Tables.snapshot, Tables.settle_changes] at hc
    obtain ⟨s, -, hc⟩ := List.mem_flatMap.1 hc
    unfold Tables.changeAt at hc
    dsimp only at hc
    split_ifs at hc
    · rw [List.mem_singleton.1 hc] at hr
      exact Holds.best (t := { t with routes := routes }) hrs hr
    · cases hc
  cases op with
  | learn x g next now =>
    simp only [apply, Tables.learn] at hroutes ⊢
    split_ifs at hroutes ⊢
    · simp
    · exact hupdate _ _ (by simpa using hroutes)
  | addZones start names expected =>
    intro c hc r hr
    simp only [apply, Tables.addZones] at hc hroutes
    split at hc
    · cases hc
    · rename_i r0 hr0
      simp only [hr0] at hroutes
      dsimp only at hc
      split at hc
      · rename_i r1 hr1
        split_ifs at hc
        · rw [List.mem_singleton.1 hc] at hr
          obtain rfl := Option.some.inj hr
          exact hroutes.best hr1
        · cases hc
      · cases hc
  | _ =>
    simp only [apply, Tables.age, Tables.removeTarget, Tables.remove, Tables.setDistance,
      Tables.update_routes] at hroutes ⊢
    exact hupdate _ _ hroutes

theorem Holds.changes_all {t : Tables} (h : F.Holds t.routes) {ops : List TableOp}
    (hops : ∀ op ∈ ops, op.Fair F) : ∀ c ∈ (applyAll t ops).2, ∀ r ∈ c.new, F.Above r.tuple := by
  induction ops generalizing t with
  | nil => simp [applyAll, Tables.each]
  | cons op ops ih =>
    have hop := hops op List.mem_cons_self
    refine List.forall_mem_append.2 ⟨h.changes hop, ih ?_ fun op hop => hops op (by simp [hop])⟩
    rw [apply_routes]
    exact h.step hop

end Floor

/-! ### What the tables announce -/

namespace Floor

variable {F : Floor} {t : Tables}

/-- The export to a tunnel peer is fair. -/
theorem Holds.export (h : F.Holds t.routes) : ∀ x ∈ t.export, F.Fair 0 x := by
  intro x hx
  obtain ⟨s, -, hx⟩ := List.mem_filterMap.1 hx
  obtain ⟨r, hr, rfl⟩ := Option.map_eq_some_iff.1 hx
  exact (h.best hr).fair

/-- What a beacon announces is fair: a range none of whose routes is usable is announced at a
distance of 31. -/
theorem Holds.tuplesFor (h : F.Holds t.routes) (port : PortId) :
    ∀ x ∈ t.tuplesFor port, F.Fair 0 x := by
  intro x hx
  obtain ⟨s, -, hx⟩ := List.mem_filterMap.1 hx
  cases hb : (t.bestForStart s).or (t.routes.find? fun r => r.range.1 = s) with
  | none => simp [hb] at hx
  | some r =>
    have hr : F.Above r.tuple := by
      rcases Option.or_eq_some_iff.1 hb with hb | ⟨-, hb⟩
      · exact h.best hb
      · exact h r (List.mem_of_find?_eq_some hb)
    simp only [hb] at hx
    split_ifs at hx
    · obtain rfl := Option.some.inj hx
      exact ⟨hr.range, ⟨(by decide : (31 : UInt8) ≤ 127), hr.wire.2⟩,
        fun h31 => absurd h31 (by decide : ¬(31 : UInt8) < 15)⟩
    · obtain rfl := Option.some.inj hx
      exact hr.fair

end Floor

/-! ### Commands -/

/-- Only sequenced commands say how far a network is. -/
theorem Cmd.isData_of_tuples {cmd : Cmd} {x : NetworkTuple} (hx : x ∈ cmd.tuples) :
    isData cmd.code = true ∧ cmd.code ≠ 5 := by
  cases cmd with
  | riRsp => exact ⟨rfl, by simp [Cmd.code]⟩
  | riUpd => exact ⟨rfl, by simp [Cmd.code]⟩
  | _ => cases hx

namespace Peer

variable {F : Floor}

/-- A routing packet from one step away stores nothing that is too short. -/
theorem routingOps_fair (p : Peer) (conn seq : UInt16) {cmd : Cmd}
    (h : ∀ x ∈ cmd.tuples, F.Fair 1 x) (tables : Tables) (now : Instant) :
    ∀ op ∈ p.routingOps conn seq cmd tables now, op.Fair F := by
  refine forall_mem_routingOps (I := fun _ => True) (fun x hx _ => h x hx) (fun x hx hd => ?_)
    (fun _ => trivial) trivial (fun _ _ _ _ _ _ => trivial) (fun _ _ _ _ => trivial) trivial
  have hl := (h x hx).learned hd
  exact ⟨hl.wire.1, hl.least⟩

end Peer

/-! ### Events -/

/-- An event that is fair where it says how far its network is. -/
structure EventTuple.Fair (F : Floor) (e : EventTuple) : Prop where
  code : e.code ≤ 5
  distance : e.tuple.distance ≤ 127
  tuple : e.code = NA ∨ e.code = NDC → F.Fair 0 e.tuple

namespace EventTuple.Fair

variable {F : Floor}

/-- Two fair events collapse to a fair one. -/
theorem collapse {p ev e : EventTuple} (hev : ev.Fair F) (he : Peer.collapse p ev = some e) :
    e.Fair F := by
  unfold Peer.collapse at he
  split_ifs at he with h1 h2 h3
  · obtain rfl := Option.some.inj he
    exact ⟨h2.1 ▸ (by decide : NA ≤ 5), hev.distance, fun _ => hev.tuple (Or.inr h2.2)⟩
  · obtain rfl := Option.some.inj he
    exact ⟨(by decide : NDC ≤ 5), hev.distance, fun _ => hev.tuple (Or.inl h3.2)⟩
  · rwa [← Option.some.inj he]

theorem queue {evs : List EventTuple} (h : ∀ e ∈ evs, e.Fair F) {ev : EventTuple}
    (hev : ev.Fair F) : ∀ e ∈ Peer.queue evs ev, e.Fair F := by
  induction evs with
  | nil => exact List.forall_mem_singleton.2 hev
  | cons p evs ih =>
    have hevs : ∀ e ∈ evs, e.Fair F := fun e he => h e (List.mem_cons_of_mem _ he)
    unfold Peer.queue
    split_ifs
    · refine List.forall_mem_append.2 ⟨fun e he => ?_, hevs⟩
      exact hev.collapse (Option.mem_toList.1 he)
    · exact List.forall_mem_cons.2 ⟨h p List.mem_cons_self, ih hevs⟩

theorem foldl_queue {news evs : List EventTuple} (hnews : ∀ e ∈ news, e.Fair F)
    (h : ∀ e ∈ evs, e.Fair F) : ∀ e ∈ news.foldl Peer.queue evs, e.Fair F := by
  induction news generalizing evs with
  | nil => exact h
  | cons ev news ih =>
    exact ih (fun e he => hnews e (List.mem_cons_of_mem _ he))
      (queue h (hnews ev List.mem_cons_self))

/-- A change of fair routes is a fair event. -/
theorem eventOf {tables : Tables} {c : RouteChange} (hnew : ∀ r ∈ c.new, F.Above r.tuple)
    {e : EventTuple} (he : Peers.eventOf tables c = some e) : e.Fair F := by
  have hND : ND ≤ 5 ∧ ¬(ND = NA ∨ ND = NDC) := by decide
  have hNRC : NRC ≤ 5 ∧ ¬(NRC = NA ∨ NRC = NDC) := by decide
  have hdel : ∀ (code : UInt8) (x : NetworkTuple), code ≤ 5 ∧ ¬(code = NA ∨ code = NDC) →
      EventTuple.Fair F { code := code, tuple := { x with distance := 0 } } := fun code x hc =>
    ⟨hc.1, (by decide : (0 : UInt8) ≤ 127), fun h => absurd h hc.2⟩
  have hadd : ∀ (code : UInt8) (r : Route), code ≤ 5 → c.new = some r →
      EventTuple.Fair F { code := code, tuple := r.tuple } := fun code r hc hr =>
    ⟨hc, (hnew r hr).wire.1, fun _ => (hnew r hr).fair⟩
  unfold Peers.eventOf at he
  cases ho : c.old with
  | none =>
    cases hn : c.new with
    | none => simp [ho, hn] at he
    | some new =>
      simp only [ho, hn] at he
      split_ifs at he
      obtain rfl := Option.some.inj he
      exact hadd NA new (by decide) hn
  | some old =>
    cases hn : c.new with
    | none =>
      simp only [ho, hn] at he
      split_ifs at he
      obtain rfl := Option.some.inj he
      exact hdel ND old.tuple hND
    | some new =>
      simp only [ho, hn] at he
      split at he
      · cases he
      · obtain rfl := Option.some.inj he
        exact hadd NA new (by decide) hn
      · obtain rfl := Option.some.inj he
        refine hdel _ old.tuple ?_
        split_ifs
        · exact hNRC
        · exact hND
      · split_ifs at he
        obtain rfl := Option.some.inj he
        exact hadd NDC new (by decide) hn

end EventTuple.Fair

/-! ### Sequenced packets -/

namespace Cmd

variable {F : Floor}

/-- The command reads back with fair tuples. -/
def Fair (F : Floor) (cmd : Cmd) : Prop :=
  ∀ cmd', cmd.wire = some cmd' → ∀ x ∈ cmd'.tuples, F.Fair 0 x

theorem fair_riRsp {last : Bool} {tuples : List NetworkTuple} (h : ∀ x ∈ tuples, F.Fair 0 x) :
    (riRsp last tuples).Fair F := by
  intro cmd' hcmd
  rw [wire, parse_riRsp last fun x hx => (h x hx).wire.1,
    map_onWire fun x hx => (h x hx).wire] at hcmd
  rw [← Option.some.inj hcmd]
  exact h

theorem fair_riUpd {events : List EventTuple} (h : ∀ e ∈ events, e.Fair F) :
    (riUpd events).Fair F := by
  intro cmd' hcmd x hx
  rw [wire, parse_riUpd fun e he => ⟨(h e he).code, (h e he).distance⟩] at hcmd
  rw [← Option.some.inj hcmd] at hx
  obtain ⟨e', he', rfl⟩ := List.mem_map.1 hx
  obtain ⟨he', hc⟩ := List.mem_filter.1 he'
  obtain ⟨e, he, rfl⟩ := List.mem_map.1 he'
  have hc : e.code = NA ∨ e.code = NDC := of_decide_eq_true hc
  have hne : e.code ≠ 0 := by rcases hc with hc | hc <;> rw [hc] <;> decide
  have hfair := (h e he).tuple hc
  rwa [show e.onWire.tuple = e.tuple by
    simp only [EventTuple.onWire, if_neg hne, NetworkTuple.onWire_eq hfair.wire]]

theorem fair_nullUpd : nullUpd.Fair F :=
  fair_riUpd (List.forall_mem_singleton.2
    ⟨by decide, by decide, fun h => absurd h (by decide)⟩)

theorem fair_rd (code : Int16) : (rd code).Fair F := by
  intro cmd' hcmd x hx
  exact absurd (code_of_parse hcmd) (isData_of_tuples hx).2

end Cmd

/-- The outstanding packet reads back as the command it carries. -/
theorem Outstanding.Carries.parse {o : Outstanding} {conn seq : UInt16} {cmd : Cmd}
    (h : o.Carries conn seq cmd) :
    ∃ dh, Aurp.parse o.bytes = cmd.wire.map (.routing dh conn seq) := by
  obtain ⟨-, -, dh, hb⟩ := h
  exact ⟨dh, hb ▸ Aurp.parse_routing dh conn seq cmd⟩

namespace Sending

variable {F : Floor}

/-- All that waits to be sent on the connection is fair. -/
structure Fair (F : Floor) (s : Sending) : Prop where
  pages : ∀ page ∈ s.pages, ∀ x ∈ page, F.Fair 0 x
  pending : ∀ e ∈ s.pending, e.Fair F
  outstanding : ∀ o ∈ s.outstanding, ∀ dh conn seq cmd,
    Aurp.parse o.bytes = some (.routing dh conn seq cmd) → ∀ x ∈ cmd.tuples, F.Fair 0 x

theorem fair_of_carries {o : Outstanding} {conn seq : UInt16} {cmd : Cmd}
    (hc : o.Carries conn seq cmd) (h : cmd.Fair F) {dh : DomainHeader} {conn' seq' : UInt16}
    {cmd' : Cmd} (hp : Aurp.parse o.bytes = some (.routing dh conn' seq' cmd')) :
    ∀ x ∈ cmd'.tuples, F.Fair 0 x := by
  obtain ⟨dh', hparse⟩ := hc.parse
  rw [hparse] at hp
  obtain ⟨cmd'', hw, he⟩ := Option.map_eq_some_iff.1 hp
  cases he
  exact h _ hw

theorem Fair.posted {s : Sending} (h : s.Fair F) {o : Outstanding} {conn seq : UInt16} {cmd : Cmd}
    (hc : o.Carries conn seq cmd) (hcmd : cmd.Fair F) (sender : Sender) :
    (s.posted o sender).Fair F :=
  ⟨h.pages, h.pending, fun o' ho' _ _ _ _ hp => by
    obtain rfl := Option.some.inj ho'
    exact fair_of_carries hc hcmd hp⟩

theorem fair_closed : closed.Fair F := ⟨by simp [closed], by simp [closed], by simp [closed]⟩

/-- **One move** of the connection keeps what waits fair and sends nothing that is not. -/
theorem Fair.move {s s' : Sending} (h : s.Fair F) {x : List NetworkTuple}
    (hx : ∀ t ∈ x, F.Fair 0 t) {asked : Bool} {sent : List (UInt16 × UInt16 × Cmd)}
    (hm : Move x asked s s' sent) : s'.Fair F ∧ ∀ m ∈ sent, m.2.2.Fair F := by
  cases hm with
  | keep => exact ⟨h, by simp⟩
  | close => exact ⟨fair_closed, by simp⟩
  | accept => exact ⟨⟨by simp, h.pending, by simp⟩, by simp⟩
  | acked => exact ⟨⟨h.pages, h.pending, by simp⟩, by simp⟩
  | again _ o o' cmd ho hd hc hc' =>
    have hcmd : cmd.Fair F := by
      intro cmd' hw
      obtain ⟨dh, hp⟩ := hc.parse
      rw [hw] at hp
      exact h.outstanding o ho _ _ _ _ hp
    exact ⟨⟨h.pages, h.pending, fun o'' ho'' _ _ _ _ hp => by
      obtain rfl := Option.some.inj ho''
      exact fair_of_carries hc' hcmd hp⟩, List.forall_mem_singleton.2 hcmd⟩
  | null _ o _ hc =>
    exact ⟨h.posted hc Cmd.fair_nullUpd _, List.forall_mem_singleton.2 Cmd.fair_nullUpd⟩
  | page _ tuples rest o _ hp hc =>
    have hpages : ∀ page ∈ tuples :: rest, ∀ t ∈ page, F.Fair 0 t := hp ▸ h.pages
    have hcmd : (Cmd.riRsp rest.isEmpty tuples).Fair F :=
      Cmd.fair_riRsp (hpages tuples List.mem_cons_self)
    have hrest : ({ s with pages := rest } : Sending).Fair F :=
      ⟨fun page hp => hpages page (List.mem_cons_of_mem _ hp), h.pending, h.outstanding⟩
    exact ⟨hrest.posted hc hcmd _, List.forall_mem_singleton.2 hcmd⟩
  | exported _ tuples rest o _ hsplit hc =>
    have hpages : ∀ page ∈ tuples :: rest, ∀ t ∈ page, F.Fair 0 t :=
      hsplit ▸ fun page hp t ht => hx t (mem_splitTuples page hp t ht)
    have hcmd : (Cmd.riRsp rest.isEmpty tuples).Fair F :=
      Cmd.fair_riRsp (hpages tuples List.mem_cons_self)
    have hrest : ({ s with seq := 0, pages := rest } : Sending).Fair F :=
      ⟨fun page hp => hpages page (List.mem_cons_of_mem _ hp), h.pending, h.outstanding⟩
    exact ⟨hrest.posted hc hcmd _, List.forall_mem_singleton.2 hcmd⟩
  | update _ o _ _ _ hc =>
    have hcmd : (Cmd.riUpd s.pending).Fair F := Cmd.fair_riUpd h.pending
    have hrest : ({ s with pending := [] } : Sending).Fair F :=
      ⟨h.pages, by simp, h.outstanding⟩
    exact ⟨hrest.posted hc hcmd _, List.forall_mem_singleton.2 hcmd⟩
  | down _ o _ hc =>
    have hrest : ({ s with pages := [] } : Sending).Fair F := ⟨by simp, h.pending, h.outstanding⟩
    exact ⟨hrest.posted hc (Cmd.fair_rd _) _, List.forall_mem_singleton.2 (Cmd.fair_rd _)⟩

end Sending

/-! ### The core -/

theorem Peer.hear_fair {F : Floor} {p : Peer} (h : p.sending.Fair F) {evs : List EventTuple}
    (hevs : ∀ e ∈ evs, e.Fair F) : (p.hear evs).sending.Fair F := by
  unfold hear
  split_ifs
  · exact h
  · exact ⟨h.pages, EventTuple.Fair.foldl_queue hevs h.pending, h.outstanding⟩

theorem Peer.new_fair (F : Floor) (addr : Ipv4Addr) (configured : Option Str) (conn : UInt16)
    («local» : Di) (now : Instant) : (Peer.new addr configured conn «local» now).sending.Fair F :=
  ⟨by simp [sending, Peer.new], by simp [sending, Peer.new], by simp [sending, Peer.new]⟩

namespace Core

variable {F : Floor} {c : Core}

/-- The tables are above the floor, and all that waits for a peer is fair. -/
structure Fair (F : Floor) (c : Core) : Prop where
  routes : F.Holds c.tables.routes
  peers : ∀ ip p, c.entry ip = some p → p.sending.Fair F

theorem Fair.subject (h : c.Fair F) {i : CoreIn × Instant} {ip : Ipv4Addr} {p : Peer}
    (hp : c.subject i ip = some p) : p.sending.Fair F := by
  rcases subject_new hp with hp | ⟨-, configured, rfl⟩
  · exact h.peers ip p hp
  · exact Peer.new_fair F _ _ _ _ _

theorem Fair.reported (h : c.Fair F) {i : CoreIn × Instant} (hops : ∀ op ∈ c.ops i, op.Fair F) :
    ∀ e ∈ c.reported i, e.Fair F := by
  intro e he
  obtain ⟨ch, hch, he⟩ := List.mem_filterMap.1 he
  exact .eventOf (h.routes.changes_all hops ch hch) he

/-- **One input** whose operations are fair keeps the core fair. -/
theorem Fair.next (h : c.Fair F) (hf : c.Filed) (hok : c.Ok) {i : CoreIn × Instant}
    (hops : ∀ op ∈ c.ops i, op.Fair F) : (c.next i).Fair F := by
  refine ⟨?_, fun ip p' hp' => ?_⟩
  · rw [next_tables]
    exact h.routes.after hops
  · cases hs : c.subject i ip with
    | none => simp [next_entry, (no_subject hf hs).1] at hp'
    | some p =>
      obtain ⟨q, sent, opens, acks, hm, hq⟩ := exists_move hf hok hs
      rw [next_of_move hq hp']
      exact Peer.hear_fair ((h.subject hs).move h.routes.export hm.sending).1 (h.reported hops)

/-- The routing packets of an input are fair. -/
theorem Fair.sent (h : c.Fair F) (hf : c.Filed) (hok : c.Ok) (i : CoreIn × Instant)
    (ip : Ipv4Addr) : ∀ m ∈ sentTo ip (c.step i).2, ∀ x ∈ m.2.2.tuples, F.Fair 0 x := by
  intro m hmem x hx
  cases hs : c.subject i ip with
  | none => simp [(no_subject hf hs).2] at hmem
  | some p =>
    obtain ⟨q, sent, opens, acks, hm, -⟩ := exists_move hf hok hs
    have hdata : m ∈ sentOf isData ip (c.step i).2 :=
      List.mem_filter.2 ⟨hmem, (Cmd.isData_of_tuples hx).1⟩
    rw [hm.data] at hdata
    obtain ⟨⟨conn, seq, cmd⟩, hcmd, hwire⟩ := List.mem_filterMap.1 hdata
    have hfair := ((h.subject hs).move h.routes.export hm.sending).2 _ hcmd
    dsimp only at hwire hfair
    split_ifs at hwire
    obtain ⟨cmd', hw, rfl⟩ := Option.map_eq_some_iff.1 hwire
    exact hfair cmd' hw x hx

/-- What the operations of an input store is not too short. -/
def FairOps (F : Floor) (c : Core) (i : CoreIn × Instant) : Prop := ∀ op ∈ c.ops i, op.Fair F

/-- **A run** whose operations are fair keeps the core fair and sends fair packets. -/
theorem Fair.run (h : c.Fair F) (hf : c.Filed) (hok : c.Ok) {is : List (CoreIn × Instant)}
    (his : Machine.Guarded Core.next (FairOps F) c is) :
    (c.after is).Fair F ∧
      ∀ ip, ∀ m ∈ sentTo ip (acts c is), ∀ x ∈ m.2.2.tuples, F.Fair 0 x := by
  induction is generalizing c with
  | nil => exact ⟨h, by simp [acts]⟩
  | cons i is ih =>
    obtain ⟨h1, h2⟩ := ih (h.next hf hok his.1) (hf.next i) (hok.next hf i) his.2
    refine ⟨h1, fun ip => ?_⟩
    rw [acts, sentTo_append]
    exact List.forall_mem_append.2 ⟨h.sent hf hok i ip, h2 ip⟩

end Core

end AppleTalk
