import AppleTalk.Router.Gathering
import AppleTalk.Router.Pending
import AppleTalk.Router.Settling

/-!
# What the peers are told of the tables

The export of the tables as the map a data receiver should hold, and what a table operation does
to one network of it: it reports the network's event, if there is one, and that event leaves the
network where the export does. Only a zone list that becomes incomplete takes a network out of the
export without an event.
-/

namespace AppleTalk

/-! ### The export as a map -/

@[simp] theorem Route.tuple_range (r : Route) : r.tuple.range = r.range := rfl

@[simp] theorem Route.tuple_distance (r : Route) : r.tuple.distance = r.distance := rfl

namespace Tables

/-- The distance a route is exported at, if it leads off a port and within reach. -/
def nearBy : Option Route → Option UInt8
  | some r => if r.target.isPort && decide (r.distance < 15) then some r.distance else none
  | none => none

@[simp] theorem nearBy_none : nearBy none = none := rfl

@[simp] theorem nearBy_some (r : Route) : nearBy (some r) =
    if r.target.isPort && decide (r.distance < 15) then some r.distance else none := rfl

theorem nearBy_of_not_changed {old new : Option Route} (h : changed old new = false) :
    nearBy old = nearBy new := by
  cases old with
  | none =>
    cases new with
    | none => rfl
    | some n => cases h
  | some o =>
    cases new with
    | none => cases h
    | some n =>
      simp only [changed, decide_eq_false_iff_not, not_or, not_not] at h
      rw [nearBy_some, nearBy_some, h.1, h.2]

/-- The distance a network is exported at once its zones are complete. -/
def near (t : Tables) (s : UInt16) : Option UInt8 := nearBy (t.bestForStart s)

theorem nearBy_eq_some_iff {o : Option Route} {d : UInt8} : nearBy o = some d ↔
    ∃ r, o = some r ∧ r.target.isPort ∧ r.distance < 15 ∧ r.distance = d := by
  cases o with
  | none => simp [nearBy]
  | some r => simp [nearBy, and_assoc]

/-- The export as a map. -/
def exports (t : Tables) : Replica := fun s => if t.zonesComplete s then t.near s else none

theorem exportable_iff (t : Tables) (s : UInt16) : t.exportable s ↔ t.exports s ≠ none := by
  unfold exportable exports near nearBy
  cases t.zonesComplete s with
  | false => simp
  | true => cases t.bestForStart s <;> simp

theorem exportable_iff_near (t : Tables) (s : UInt16) :
    t.exportable s ↔ t.zonesComplete s = true ∧ t.near s ≠ none := by
  rw [exportable_iff]
  unfold exports
  split_ifs with h
  · simp [h]
  · simp [h]

/-- The map has just what the list exports. -/
theorem exports_eq_some_iff (t : Tables) (s : UInt16) (d : UInt8) :
    t.exports s = some d ↔ ∃ x ∈ t.export, x.range.1 = s ∧ x.distance = d := by
  unfold «export» starts startsWhere
  constructor
  · intro h
    have hexp : t.exportable s := (t.exportable_iff s).2 (by simp [h])
    unfold exports at h
    split_ifs at h
    obtain ⟨r, hr, -, -, rfl⟩ := nearBy_eq_some_iff.1 h
    refine ⟨r.tuple, List.mem_filterMap.2 ⟨s, List.mem_filter.2 ⟨?_, hexp⟩, ?_⟩,
      bestForStart_start hr, rfl⟩
    · rw [List.mem_eraseDups, List.mem_map]
      exact ⟨r, by simpa using (pick_eq_some hr).1, bestForStart_start hr⟩
    · rw [hr]
      rfl
  · rintro ⟨x, hx, rfl, rfl⟩
    obtain ⟨s, hs, hx⟩ := List.mem_filterMap.1 hx
    obtain ⟨-, hexp⟩ := List.mem_filter.1 hs
    obtain ⟨r, hr, rfl⟩ := Option.map_eq_some_iff.1 hx
    obtain rfl := bestForStart_start hr
    have hne := (t.exportable_iff _).1 hexp
    show t.exports r.range.1 = some r.distance
    unfold exports near at hne ⊢
    rw [hr, nearBy_some] at hne ⊢
    split_ifs at hne ⊢
    · rfl
    · exact absurd rfl hne
    · exact absurd rfl hne

end Tables

/-- A map to which tuples are added has the distance of one of them, or what it had before. -/
theorem Replica.foldl_add_cases (xs : List NetworkTuple) (m : Replica) (n : UInt16) :
    (∃ x ∈ xs, x.range.1 = n ∧ xs.foldl add m n = some x.distance) ∨
      (∀ x ∈ xs, x.range.1 ≠ n) ∧ xs.foldl add m n = m n := by
  induction xs generalizing m with
  | nil => exact Or.inr ⟨by simp, rfl⟩
  | cons y xs ih =>
    rw [List.foldl_cons]
    rcases ih (m.add y) with ⟨x, hx, hn, he⟩ | ⟨hnone, he⟩
    · exact Or.inl ⟨x, List.mem_cons_of_mem _ hx, hn, he⟩
    · by_cases hy : y.range.1 = n
      · refine Or.inl ⟨y, List.mem_cons_self, hy, ?_⟩
        rw [he, ← hy]
        exact Function.update_self _ _ _
      · refine Or.inr ⟨List.forall_mem_cons.2 ⟨hy, hnone⟩, ?_⟩
        rw [he]
        exact Function.update_of_ne (Ne.symm hy) _ _

/-- Adding the tuples of the export makes the map of it. -/
theorem Tables.foldl_export (t : Tables) : t.export.foldl .add .empty = t.exports := by
  refine funext fun n => ?_
  rcases Replica.foldl_add_cases t.export .empty n with ⟨x, hx, hn, he⟩ | ⟨hnone, he⟩
  · rw [he]
    exact ((t.exports_eq_some_iff n x.distance).2 ⟨x, hx, hn, rfl⟩).symm
  · rw [he]
    show none = t.exports n
    by_contra hne
    obtain ⟨d, hd⟩ := Option.ne_none_iff_exists'.1 (Ne.symm hne)
    obtain ⟨x, hx, hn, -⟩ := (t.exports_eq_some_iff n d).1 hd
    exact hnone x hx hn

/-! ### What a change reports -/

/-- An event a data receiver can be sent: of one of the four kinds, within reach. -/
def EventTuple.Sayable (e : EventTuple) : Prop := e.Known ∧ e.tuple.distance < 15

namespace Peers

/-- The event of a best route that was `old` and is `new`, if it moved. -/
def shift (tables : Tables) (old new : Option Route) : Option EventTuple :=
  if Tables.changed old new then eventOf tables { range := (0, 0), old := old, new := new }
  else none

theorem shift_self (tables : Tables) (o : Option Route) : shift tables o o = none := by
  unfold shift Tables.changed
  cases o <;> simp

/-- What an event says of a best route that was `old` and is `new`. -/
inductive Tells (tables : Tables) (old new : Option Route) : EventTuple → Prop
  | added (n : Route) (hn : new = some n) (hold : Tables.nearBy old = none)
    (hnew : Tables.nearBy new = some n.distance) (hz : tables.zonesComplete n.range.1 = true) :
    Tells tables old new { code := NA, tuple := n.tuple }
  | withdrawn (o : Route) (code : UInt8) (ho : old = some o) (hcode : code = ND ∨ code = NRC)
    (hold : Tables.nearBy old = some o.distance)
    (hnew : Tables.nearBy new = none ∨
      ∃ n, new = some n ∧ tables.zonesComplete n.range.1 = false) :
    Tells tables old new { code := code, tuple := { o.tuple with distance := 0 } }
  | moved (o n : Route) (ho : old = some o) (hn : new = some n)
    (hold : Tables.nearBy old = some o.distance) (hnew : Tables.nearBy new = some n.distance)
    (hz : tables.zonesComplete n.range.1 = true) :
    Tells tables old new { code := NDC, tuple := n.tuple }

/-- **The event rule.** -/
theorem eventOf_tells {tables : Tables} {c : RouteChange} {e : EventTuple}
    (h : eventOf tables c = some e) : Tells tables c.old c.new e := by
  obtain ⟨range, old, new⟩ := c
  unfold eventOf at h
  cases old with
  | none =>
    cases new with
    | none => cases h
    | some n =>
      simp only [Option.any_some, Option.ite_none_right_eq_some, Bool.and_eq_true,
        Option.some.injEq] at h
      obtain ⟨⟨hnear, hz⟩, rfl⟩ := h
      exact .added n rfl rfl (by simp [hnear]) hz
  | some o =>
    cases new with
    | none =>
      simp only [Option.any_some, Option.ite_none_right_eq_some, Option.some.injEq] at h
      obtain ⟨hnear, rfl⟩ := h
      exact .withdrawn o ND rfl (Or.inl rfl) (by simp only [Tables.nearBy_some, hnear, if_true])
        (Or.inl rfl)
    | some n =>
      cases ho : o.target.isPort && decide (o.distance < 15) with
      | true =>
        have hold : Tables.nearBy (some o) = some o.distance := by
          simp only [Tables.nearBy_some, ho, if_true]
        cases hn : n.target.isPort && decide (n.distance < 15) with
        | true =>
          have hnew : Tables.nearBy (some n) = some n.distance := by
            simp only [Tables.nearBy_some, hn, if_true]
          cases hz : tables.zonesComplete n.range.1 with
          | true =>
            simp only [Option.any_some, ho, hn, hz, Bool.and_self, Option.ite_none_left_eq_some,
              Option.some.injEq] at h
            obtain ⟨-, rfl⟩ := h
            exact .moved o n rfl rfl hold hnew hz
          | false =>
            simp only [Option.any_some, ho, hn, hz, Bool.and_false, Option.some.injEq] at h
            subst h
            exact .withdrawn o _ rfl (by split_ifs <;> simp) hold (Or.inr ⟨n, rfl, hz⟩)
        | false =>
          simp only [Option.any_some, ho, hn, Bool.false_and, Option.some.injEq] at h
          subst h
          exact .withdrawn o _ rfl (by split_ifs <;> simp) hold (Or.inl (by simp [hn]))
      | false =>
        cases hn : n.target.isPort && decide (n.distance < 15) with
        | true =>
          cases hz : tables.zonesComplete n.range.1 with
          | true =>
            simp only [Option.any_some, ho, hn, hz, Bool.and_self, Option.some.injEq] at h
            subst h
            exact .added n rfl (by simp [ho]) (by simp [hn]) hz
          | false => simp [ho, hn, hz] at h
        | false => simp [ho, hn] at h

/-- What no event says: nothing exported has moved. -/
theorem eventOf_silent {tables : Tables} {c : RouteChange} (h : eventOf tables c = none) :
    Tables.nearBy c.old = Tables.nearBy c.new ∨ Tables.nearBy c.old = none ∧
      ∃ n, c.new = some n ∧ tables.zonesComplete n.range.1 = false := by
  obtain ⟨range, old, new⟩ := c
  unfold eventOf at h
  cases old with
  | none =>
    cases new with
    | none => exact Or.inl rfl
    | some n =>
      cases hn : n.target.isPort && decide (n.distance < 15) with
      | true =>
        cases hz : tables.zonesComplete n.range.1 with
        | true => simp [hn, hz] at h
        | false => exact Or.inr ⟨rfl, n, rfl, hz⟩
      | false => exact Or.inl (by simp [hn])
  | some o =>
    cases ho : o.target.isPort && decide (o.distance < 15) with
    | true =>
      cases new with
      | none => simp [ho] at h
      | some n =>
        cases hn : n.target.isPort && decide (n.distance < 15) with
        | true =>
          cases hz : tables.zonesComplete n.range.1 with
          | true =>
            simp only [Option.any_some, ho, hn, hz, Bool.and_self, ite_eq_left_iff,
              reduceCtorEq, imp_false, not_not] at h
            left
            rw [Tables.nearBy_some, Tables.nearBy_some, ho, hn, if_pos rfl, if_pos rfl, h]
          | false => simp [ho, hn, hz] at h
        | false => simp [ho, hn] at h
    | false =>
      have hold : Tables.nearBy (some o) = none := by simp [ho]
      cases new with
      | none => exact Or.inl hold
      | some n =>
        cases hn : n.target.isPort && decide (n.distance < 15) with
        | true =>
          cases hz : tables.zonesComplete n.range.1 with
          | true => simp [ho, hn, hz] at h
          | false => exact Or.inr ⟨hold, n, rfl, hz⟩
        | false => exact Or.inl (by simp [ho, hn])

namespace Tells

variable {tables : Tables} {old new : Option Route} {e : EventTuple} {s : UInt16}

theorem sayable (h : Tells tables old new e) : e.Sayable := by
  have hfar : ∀ r : Route, Tables.nearBy (some r) = some r.distance → r.distance < 15 :=
    fun r hr => by
      obtain ⟨_, -, -, hlt, hd⟩ := Tables.nearBy_eq_some_iff.1 hr
      rwa [hd] at hlt
  cases h with
  | added n hn hold hnew hz => exact ⟨Or.inl rfl, hfar n (hn ▸ hnew)⟩
  | withdrawn o code ho hcode hold hnew =>
    exact ⟨Or.inr (hcode.imp_right Or.inl), show (0 : UInt8) < 15 by decide⟩
  | moved o n ho hn hold hnew hz => exact ⟨Or.inr (Or.inr (Or.inr rfl)), hfar n (hn ▸ hnew)⟩

/-- An event is about the network of the routes it comes from. -/
theorem start (h : Tells tables old new e) (hold : ∀ r, old = some r → r.range.1 = s)
    (hnew : ∀ r, new = some r → r.range.1 = s) : Peer.startOf e = s := by
  cases h with
  | added n hn => exact hnew n hn
  | withdrawn o code ho => exact hold o ho
  | moved o n ho hn => exact hnew n hn

/-- While a network's zones are complete its event leaves it at the distance it is exported at,
and says so as a change of distance only where it was exported before. -/
theorem complete (h : Tells tables old new e) (hz : tables.zonesComplete s = true)
    (hstart : ∀ r, new = some r → r.range.1 = s) :
    e.left = Tables.nearBy new ∧ (e.code = NDC → Tables.nearBy old ≠ none) := by
  cases h with
  | added n hn hold hnew => exact ⟨by simp [hnew, EventTuple.left], by simp [NA, NDC]⟩
  | withdrawn o code ho hcode hold hnew =>
    constructor
    · rw [EventTuple.left_eq_none hcode]
      rcases hnew with hnew | ⟨n, hn, hzn⟩
      · exact hnew.symm
      · rw [hstart n hn, hz] at hzn
        cases hzn
    · rcases hcode with rfl | rfl <;> simp [ND, NRC, NDC]
  | moved o n ho hn hold hnew => exact ⟨by simp [hnew, EventTuple.left], by simp [hold]⟩

/-- While a network's zones are not complete its event only takes it away. -/
theorem incomplete (h : Tells tables old new e) (hz : tables.zonesComplete s = false)
    (hstart : ∀ r, new = some r → r.range.1 = s) : e.left = none := by
  cases h with
  | added n hn _ _ hzn =>
    rw [hstart n hn, hz] at hzn
    cases hzn
  | withdrawn o code ho hcode => exact EventTuple.left_eq_none hcode
  | moved o n ho hn _ _ hzn =>
    rw [hstart n hn, hz] at hzn
    cases hzn

end Tells

end Peers

/-! ### What an operation reports -/

namespace Tables

variable (tz t u : Tables)

theorem filterMap_changeAt (s : UInt16) (old : Option Route) :
    (t.changeAt s old).filterMap (Peers.eventOf tz) =
      (Peers.shift tz old (t.bestForStart s)).toList := by
  unfold changeAt Peers.shift
  dsimp only
  split_ifs
  · have hrange : ∀ range,
        Peers.eventOf tz { range := range, old := old, new := t.bestForStart s } =
          Peers.eventOf tz { range := (0, 0), old := old, new := t.bestForStart s } := fun _ => rfl
    rw [List.filterMap_cons, List.filterMap_nil, hrange]
    cases Peers.eventOf tz { range := (0, 0), old := old, new := t.bestForStart s } <;> rfl
  · rfl

theorem startOf_shift {tz t u : Tables} {s : UInt16} {e : EventTuple}
    (h : Peers.shift tz (t.bestForStart s) (u.bestForStart s) = some e) : Peer.startOf e = s := by
  unfold Peers.shift at h
  split_ifs at h
  exact (Peers.eventOf_tells h).start (fun r hr => bestForStart_start hr)
    fun r hr => bestForStart_start hr

/-- A settling reports of a network it touches the event of its best route's move. -/
theorem filter_settled {ss : List UInt16} (hss : ss.Nodup) (s : UInt16) :
    (((ss.flatMap fun s => u.changeAt s (t.bestForStart s)).filterMap
        (Peers.eventOf tz)).filter fun e => Peer.startOf e = s) =
      if s ∈ ss then (Peers.shift tz (t.bestForStart s) (u.bestForStart s)).toList else [] := by
  induction ss with
  | nil => rfl
  | cons s' ss ih =>
    rw [List.nodup_cons] at hss
    rw [List.flatMap_cons, List.filterMap_append, List.filter_append, ih hss.2,
      filterMap_changeAt]
    by_cases hs : s' = s
    · subst hs
      rw [if_neg hss.1, if_pos List.mem_cons_self, List.append_nil]
      refine List.filter_eq_self.2 fun e he => decide_eq_true ?_
      exact startOf_shift (Option.mem_toList.1 he)
    · have hother : ((Peers.shift tz (t.bestForStart s') (u.bestForStart s')).toList.filter
          fun e => Peer.startOf e = s) = [] := by
        refine List.filter_eq_nil_iff.2 fun e he hes => hs ?_
        rw [← startOf_shift (Option.mem_toList.1 he)]
        exact of_decide_eq_true hes
      rw [hother, List.nil_append]
      simp [Ne.symm hs]

end Tables

/-- What an operation can do to one network, with the event it reports of it: it moves the best
route, and drops the zones with the last one, or it adds to the zones. -/
inductive Tables.Turn (tz t t' : Tables) (s : UInt16) : Option EventTuple → Prop
  | routed (hz : t'.zonesComplete s = t.zonesComplete s ∨
      t'.zonesComplete s = false ∧ t'.near s = none) :
    Turn tz t t' s (Peers.shift tz (t.bestForStart s) (t'.bestForStart s))
  | listed (range : UInt16 × UInt16) (hbest : t'.bestForStart s = t.bestForStart s)
    (h : ¬t.exportable s) (h' : t'.exportable s) :
    Turn tz t t' s
      (Peers.eventOf tz { range := range, old := none, new := t'.bestForStart s })
  | named (hbest : t'.bestForStart s = t.bestForStart s)
    (h : t'.exportable s → t.exportable s) : Turn tz t t' s none

namespace TableOp

variable {t tz : Tables} {op : TableOp} {s : UInt16}

/-- Zone names move no best route. -/
theorem addZones_best (t : Tables) (start : UInt16) (names : List Str) (expected : Option ℕ)
    (s : UInt16) :
    ((addZones start names expected).apply t).1.bestForStart s = t.bestForStart s := by
  obtain ⟨hr, hb⟩ := apply_addZones t start names expected
  exact Tables.bestForStart_congr (by rw [hr]) (congrFun hb s)

/-- The zone names of one network complete no other. -/
theorem addZones_zones (t : Tables) {start s : UInt16} (hs : start ≠ s) (names : List Str)
    (expected : Option ℕ) :
    ((addZones start names expected).apply t).1.zonesComplete s = t.zonesComplete s :=
  congrArg (Option.any ZoneList.complete) (t.zones_addZones_of_ne (Ne.symm hs) names expected)

/-- Zone names report the network they complete, if it is one to export. -/
theorem addZones_changes (t : Tables) (start : UInt16) (names : List Str) (expected : Option ℕ) :
    let t' := ((addZones start names expected).apply t).1
    (¬t.exportable start ∧ t'.exportable start ∧ ∃ range,
      ((addZones start names expected).apply t).2 =
        [{ range := range, old := none, new := t'.bestForStart start }]) ∨
    (t'.exportable start → t.exportable start) ∧
      ((addZones start names expected).apply t).2 = [] := by
  simp only [apply, Tables.addZones]
  cases hfind : t.routes.find? fun r => r.range.1 = start with
  | none => exact Or.inr ⟨id, rfl⟩
  | some r0 =>
    dsimp only
    generalize ({ t with zoneTable := _ } : Tables) = t'
    cases hbest : t'.bestForStart start with
    | none =>
      refine Or.inr ⟨fun h => ?_, rfl⟩
      simp [Tables.exportable, hbest] at h
    | some r =>
      dsimp only
      split_ifs with h
      · simp only [Bool.and_eq_true, Bool.not_eq_true'] at h
        exact Or.inl ⟨by simp [h.1], h.2, r.range, rfl⟩
      · refine Or.inr ⟨fun h' => ?_, rfl⟩
        by_contra hnot
        exact h (by simp [h', hnot])

/-- An operation on the routes leaves a network's zone list alone, or drops it with the last
route. -/
theorem routed_zones (t : Tables) (ss : List UInt16) (routes : List Route) (s : UInt16) :
    (t.update ss routes).1.zonesComplete s = t.zonesComplete s ∨
      (t.update ss routes).1.zonesComplete s = false ∧
        (t.update ss routes).1.near s = none := by
  rw [Tables.update]
  have hlen : ss.length = (t.snapshot ss).length := by simp [Tables.snapshot]
  have hzone := Tables.settle_zoneTable { t with routes := routes } hlen s
  split_ifs at hzone with hs
  · refine Or.inr ⟨by simp [Tables.zonesComplete, Tables.zones, hzone], ?_⟩
    have hbest : ({ t with routes := routes } : Tables).bestForStart s = none :=
      Tables.pick_eq_none.2 fun r hr _ => decide_eq_false (hs.2 r hr)
    rw [Tables.near, Tables.settle_bestForStart, hbest, Tables.nearBy_none]
  · exact Or.inl (by simp [Tables.zonesComplete, Tables.zones, hzone])

/-- **What an operation does to one network**, and the event it reports of it. -/
theorem apply_turn (tz t : Tables) (op : TableOp) (s : UInt16) :
    ∃ E, tz.Turn t (op.apply t).1 s E ∧
      (((op.apply t).2.filterMap (Peers.eventOf tz)).filter fun e => Peer.startOf e = s) =
        E.toList := by
  by_cases hz : ∃ start names expected, op = .addZones start names expected
  · obtain ⟨start, names, expected, rfl⟩ := hz
    have hbest := addZones_best t start names expected
    rcases addZones_changes t start names expected with ⟨h, h', range, hch⟩ | ⟨h, hch⟩
    · have hstart : ∀ e, Peers.eventOf tz { range := range, old := none, new :=
          ((addZones start names expected).apply t).1.bestForStart start } = some e →
          Peer.startOf e = start := fun e he =>
        (Peers.eventOf_tells he).start (fun r hr => by cases hr)
          fun r hr => Tables.bestForStart_start hr
      rw [hch, List.filterMap_cons, List.filterMap_nil]
      by_cases hs : start = s
      · subst hs
        refine ⟨_, .listed range (hbest start) h h', ?_⟩
        cases he : Peers.eventOf tz { range := range, old := none, new :=
            ((addZones start names expected).apply t).1.bestForStart start } with
        | none => rfl
        | some e => simp [hstart e he]
      · refine ⟨none, .named (hbest s) fun hexp => ?_, ?_⟩
        · simpa only [Tables.exportable, hbest s, addZones_zones t hs] using hexp
        · cases he : Peers.eventOf tz { range := range, old := none, new :=
              ((addZones start names expected).apply t).1.bestForStart start } with
          | none => rfl
          | some e => simp [hstart e he, hs]
    · rw [hch]
      refine ⟨none, .named (hbest s) fun hexp => ?_, rfl⟩
      by_cases hs : start = s
      · subst hs
        exact h hexp
      · simpa only [Tables.exportable, hbest s, addZones_zones t hs] using hexp
  · push Not at hz
    have huntouched : s ∉ op.touched t → (op.apply t).1.bestForStart s = t.bestForStart s :=
      bestForStart_untouched
    rw [apply_eq_update hz t] at huntouched ⊢
    refine ⟨_, .routed (routed_zones t _ _ s), ?_⟩
    rw [Tables.update_changes, Tables.filter_settled tz t _ (nodup_touched op t)]
    split_ifs with hs
    · rfl
    · rw [huntouched hs, Peers.shift_self]
      rfl

end TableOp

namespace Tables.Turn

variable {tz t t' : Tables} {s : UInt16} {e : EventTuple}

theorem tells (h : tz.Turn t t' s (some e)) :
    ∃ old, Peers.Tells tz old (t'.bestForStart s) e ∧
      (old = none ∨ nearBy old = t.near s ∧ (t'.exportable s → t.zonesComplete s = true)) := by
  generalize hE : some e = E at h
  cases h with
  | routed hz =>
    unfold Peers.shift at hE
    split_ifs at hE
    refine ⟨_, Peers.eventOf_tells hE.symm, Or.inr ⟨rfl, fun hexp => ?_⟩⟩
    have hc := ((t'.exportable_iff_near s).1 hexp).1
    rcases hz with hz | ⟨hz, -⟩
    · exact hz ▸ hc
    · rw [hc] at hz
      cases hz
  | listed range => exact ⟨none, Peers.eventOf_tells hE.symm, Or.inl rfl⟩
  | named => cases hE

theorem sayable (h : tz.Turn t t' s (some e)) : e.Sayable := by
  obtain ⟨old, htells, -⟩ := h.tells
  exact htells.sayable

/-- Where the zones end up complete, an event leaves its network at its distance off the ports, and
is a change of distance only where the network was exported. -/
theorem of_complete (h : tz.Turn t t' s (some e)) (hz : tz.zonesComplete s = true) :
    e.left = t'.near s ∧ (e.code = NDC → t'.exportable s → t.exportable s) := by
  obtain ⟨old, htells, hold⟩ := h.tells
  obtain ⟨hleft, hndc⟩ := htells.complete hz fun r hr => bestForStart_start hr
  refine ⟨hleft, fun hcode hexp => ?_⟩
  rcases hold with rfl | ⟨hold, hc⟩
  · exact absurd rfl (hndc hcode)
  · exact (t.exportable_iff_near s).2 ⟨hc hexp, hold ▸ hndc hcode⟩

/-- Where the zones end up incomplete, an event takes its network away. -/
theorem of_incomplete (h : tz.Turn t t' s (some e)) (hz : tz.zonesComplete s = false) :
    e.left = none := by
  obtain ⟨old, htells, -⟩ := h.tells
  exact htells.incomplete hz fun r hr => bestForStart_start hr

/-- Where the zones end up complete, an operation that reports nothing exports nothing new. -/
theorem silent_of_complete (h : tz.Turn t t' s none) (hz : tz.zonesComplete s = true) :
    t'.near s = t.near s ∧ (t'.exportable s → t.exportable s) := by
  generalize hE : none = E at h
  have hcomplete : ¬∃ n, t'.bestForStart s = some n ∧ tz.zonesComplete n.range.1 = false := by
    rintro ⟨n, hn, hzn⟩
    rw [bestForStart_start hn, hz] at hzn
    cases hzn
  cases h with
  | routed hkept =>
    have hnear : t'.near s = t.near s := by
      unfold Peers.shift at hE
      split_ifs at hE with hch
      · rcases Peers.eventOf_silent hE.symm with hsame | ⟨-, hzn⟩
        · exact hsame.symm
        · exact absurd hzn hcomplete
      · exact (nearBy_of_not_changed (Bool.eq_false_iff.2 hch)).symm
    refine ⟨hnear, fun hexp => ?_⟩
    obtain ⟨hc, hn⟩ := (t'.exportable_iff_near s).1 hexp
    rcases hkept with hkept | ⟨hkept, -⟩
    · exact (t.exportable_iff_near s).2 ⟨hkept ▸ hc, hnear ▸ hn⟩
    · rw [hc] at hkept
      cases hkept
  | listed range hbest hexp hexp' =>
    rcases Peers.eventOf_silent hE.symm with hsame | ⟨-, hzn⟩
    · exact absurd hsame.symm ((t'.exportable_iff_near s).1 hexp').2
    · exact absurd hzn hcomplete
  | named hbest hexp => exact ⟨congrArg nearBy hbest, hexp⟩

/-- Where the zones end up incomplete, an operation that reports nothing takes nothing out of the
export but by its zones. -/
theorem silent_of_incomplete (h : tz.Turn t t' s none)
    (hkeep : t'.bestForStart s = t.bestForStart s → t.exportable s → t'.exportable s)
    (hexp : t.exportable s) : t'.exportable s := by
  generalize hE : none = E at h
  cases h with
  | routed hkept =>
    obtain ⟨hc, hn⟩ := (t.exportable_iff_near s).1 hexp
    have hnear : t'.near s = t.near s := by
      unfold Peers.shift at hE
      split_ifs at hE with hch
      · rcases Peers.eventOf_silent hE.symm with hsame | ⟨hfar, -⟩
        · exact hsame.symm
        · exact absurd hfar hn
      · exact (nearBy_of_not_changed (Bool.eq_false_iff.2 hch)).symm
    rcases hkept with hkept | ⟨-, hfar⟩
    · exact (t'.exportable_iff_near s).2 ⟨hkept ▸ hc, hnear ▸ hn⟩
    · exact absurd (hnear.symm.trans hfar) hn
  | listed range hbest hnot => exact absurd hexp hnot
  | named hbest => exact hkeep hbest hexp

end Tables.Turn

namespace TableOp

/-- **The rule for a run of operations.** What every operation preserves of the tables and of the
slot of one network, a run of them preserves, with the events it reports queued. -/
theorem turns {P : Tables → Option EventTuple → Prop} {keep : Tables → TableOp → Prop}
    {ok : Option EventTuple → EventTuple → Prop} {tz : Tables} {n : UInt16}
    (hstep : ∀ t op E o, P t o → tz.Turn t (op.apply t).1 n E → keep t op →
      (∀ e, E = some e → Peer.startOf e = n ∧ ok o e) → P (op.apply t).1 (E.elim o (Peer.put o)))
    {t : Tables} {o : Option EventTuple} (h : P t o) {ops : List TableOp}
    (hkeep : Machine.Guarded (fun t op => (op.apply t).1) keep t ops)
    (hok : Machine.Guarded Peer.put ok o (((applyAll t ops).2.filterMap
      (Peers.eventOf tz)).filter fun e => Peer.startOf e = n)) :
    P (after t ops) ((((applyAll t ops).2.filterMap (Peers.eventOf tz)).filter
      fun e => Peer.startOf e = n).foldl Peer.put o) := by
  induction ops generalizing t o with
  | nil => exact h
  | cons op ops ih =>
    obtain ⟨E, hturn, hE⟩ := apply_turn tz t op n
    have hall : (((applyAll t (op :: ops)).2.filterMap (Peers.eventOf tz)).filter
        fun e => Peer.startOf e = n) =
        E.toList ++ (((applyAll (op.apply t).1 ops).2.filterMap (Peers.eventOf tz)).filter
          fun e => Peer.startOf e = n) := by
      rw [← hE, ← List.filter_append, ← List.filterMap_append]
      rfl
    rw [hall] at hok ⊢
    obtain ⟨hhead, htail⟩ := Machine.Guarded.append.1 hok
    have hstart : ∀ e, E = some e → Peer.startOf e = n := fun e he => by
      have : e ∈ E.toList := Option.mem_toList.2 he
      rw [← hE] at this
      exact of_decide_eq_true (List.mem_filter.1 this).2
    rw [List.foldl_append]
    cases E with
    | none =>
      exact ih (hstep t op none o h hturn hkeep.1 fun e he => by cases he) hkeep.2 htail
    | some e =>
      refine ih (hstep t op (some e) o h hturn hkeep.1 fun e' he => ?_) hkeep.2 htail
      obtain rfl := Option.some.inj he
      exact ⟨hstart e rfl, hhead.1⟩

end TableOp

end AppleTalk
