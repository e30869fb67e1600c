import AppleTalk.Properties.Collapsing
import AppleTalk.Properties.Ranges
import AppleTalk.Router.PeerRoutes

/-!
# Inconsistent events

An update event may contradict what is stored: an addition of a network that is known, a deletion or
a change of distance of one that is not. Each is done by another operation on the tables; they come
to what the rules ask, but for an addition of a known network, which is no change of distance when
it is beyond reach, or has another range or another kind of range than the stored route.
-/

namespace AppleTalk

/-- What the tables store for the networks of a peer. -/
def Tables.holding (t : Tables) (ip : Ipv4Addr) : Holding := fun n =>
  (t.routes.find? fun r => r.target = .peer ip ∧ r.range.1 = n).map fun r => (r.range, r.distance)

namespace Peer

variable {host : Host} {t t' : Tables} {p : Peer} {e : EventTuple} {now : Instant}

/-- A route through the peer for the network of an event. -/
def Through (p : Peer) (e : EventTuple) (r : Route) : Prop :=
  r.target = .peer p.addr ∧ r.range.1 = e.tuple.range.1

instance (p : Peer) (e : EventTuple) (r : Route) : Decidable (p.Through e r) :=
  inferInstanceAs (Decidable (_ ∧ _))

/-- The network of an event is known: a route for it through the peer is stored. -/
def Knows (p : Peer) (e : EventTuple) (t : Tables) : Prop := ∃ r ∈ t.routes, p.Through e r

instance (p : Peer) (e : EventTuple) (t : Tables) : Decidable (p.Knows e t) :=
  inferInstanceAs (Decidable (∃ r ∈ t.routes, p.Through e r))

/-- The rules for inconsistent events, and what an event that is stored leaves. -/
structure FollowsRules (p : Peer) (e : EventTuple) (t : Tables) (now : Instant) : Prop where
  added : e.code = NA → p.Knows e t →
    (p.apply e t now).1 = (p.apply { e with code := NDC } t now).1
  moved : e.code = NDC → ¬p.Knows e t →
    (p.apply e t now).1 = (p.apply { e with code := NA } t now).1
  deleted : e.code = ND ∨ e.code = NRC → ¬p.Knows e t → (p.apply e t now).1 = t
  stored : e.code = NA ∨ e.code = NDC → e.tuple.distance < 15 →
    (e.code = NDC ∧ p.Knows e t) ∨ ¬Tables.refuses t.routes e.tuple.range →
      (∃ r ∈ (p.apply e t now).1.routes, p.Through e r ∧ (e.code = NA → r.range = e.tuple.range)) ∧
      ∀ r ∈ (p.apply e t now).1.routes, p.Through e r → (e.code = NA → r.range = e.tuple.range) →
        r.distance = e.tuple.distance + 1 ∧ r.state.usable

/-- A change of distance finds the route as it would leave it. -/
def Moved (e : EventTuple) (now : Instant) (r : Route) : Prop :=
  r.distance = e.tuple.distance + 1 ∧ r.seen = now

instance (e : EventTuple) (now : Instant) (r : Route) : Decidable (Moved e now r) :=
  inferInstanceAs (Decidable (_ ∧ _))

/-- An addition of a known network does what a change of distance does: it is within reach, and each
route through the peer has the range and the kind of the tuple, or is as a change of distance would
leave it. -/
def Agrees (p : Peer) (e : EventTuple) (t : Tables) (now : Instant) : Prop :=
  e.tuple.distance < 15 ∧
    if Tables.refuses t.routes e.tuple.range then
      ∀ r ∈ t.routes, p.Through e r → Moved e now r
    else (∃ r ∈ t.routes, p.Through e r ∧ r.range = e.tuple.range) ∧
      ∀ r ∈ t.routes, p.Through e r →
        if r.range = e.tuple.range then r.extended = e.tuple.extended else Moved e now r

instance (p : Peer) (e : EventTuple) (t : Tables) (now : Instant) : Decidable (p.Agrees e t now) :=
  inferInstanceAs (Decidable (_ ∧ ite _ _ _))

/-! ### What an event does to the routes -/

theorem knows_iff : (t.routes.any fun r => r.target = .peer p.addr ∧ r.range.1 = e.tuple.range.1) =
    true ↔ p.Knows e t := by
  simp only [List.any_eq_true, decide_eq_true_eq]
  rfl

theorem apply_added (hk : e.code = NA) (hd : e.tuple.distance < 15) : (p.apply e t now).1 =
    (t.learn e.tuple (.peer p.addr) Tables.NO_NEXT now).1 := by
  unfold apply
  dsimp only
  rw [if_pos ⟨hk, hd⟩]

theorem apply_deleted (hk : e.code = ND ∨ e.code = NRC) : (p.apply e t now).1 =
    (t.remove (.peer p.addr) e.tuple.range.1).1 := by
  have hna : e.code ≠ NA := by rcases hk with hk | hk <;> rw [hk] <;> decide
  unfold apply
  dsimp only
  rw [if_neg fun h => hna h.1, if_pos hk]

theorem apply_moved (hk : e.code = NDC) : (p.apply e t now).1 =
    if 15 ≤ e.tuple.distance then (t.remove (.peer p.addr) e.tuple.range.1).1
    else if p.Knows e t then
      (t.setDistance (.peer p.addr) e.tuple.range.1 (e.tuple.distance + 1) now).1
    else (t.learn e.tuple (.peer p.addr) Tables.NO_NEXT now).1 := by
  have hna : e.code ≠ NA := by rw [hk]; decide
  have hdel : ¬(e.code = ND ∨ e.code = NRC) := by rw [hk]; decide
  unfold apply
  dsimp only
  rw [if_neg fun h => hna h.1, if_neg hdel, if_pos hk]
  by_cases hknown : p.Knows e t
  · rw [knows_iff.2 hknown, if_pos hknown, if_neg (by simp : ¬(!true) = true)]
    split_ifs <;> rfl
  · rw [Bool.eq_false_iff.2 fun h => hknown (knows_iff.1 h), if_neg hknown, Bool.not_false,
      if_pos rfl]
    split_ifs <;> rfl

/-- Removing the routes of an unknown network changes nothing. -/
theorem remove_unknown (h : t.Kept) (hknown : ¬p.Knows e t) :
    (t.remove (.peer p.addr) e.tuple.range.1).1 = t := by
  have hall : (t.routes.filter fun r =>
      !(r.target = .peer p.addr ∧ r.range.1 = e.tuple.range.1)) = t.routes :=
    List.filter_eq_self.2 fun r hr => by
      rw [Bool.not_eq_true', decide_eq_false_iff_not]
      exact fun hthrough => hknown ⟨r, hr, hthrough⟩
  unfold Tables.remove
  rw [hall]
  exact h.update_self _

/-- A route through the peer is the entry of a tuple when it has its range. -/
theorem entryOf_iff (h : t.Tunnelled) {r : Route} (hr : r ∈ t.routes) :
    Tables.entryOf e.tuple (.peer p.addr) Tables.NO_NEXT r ↔
      p.Through e r ∧ r.range = e.tuple.range := by
  simp only [Tables.entryOf, decide_eq_true_eq, Through]
  constructor
  · rintro ⟨hrange, hg, -⟩
    exact ⟨⟨hg, congrArg Prod.fst hrange⟩, hrange⟩
  · rintro ⟨⟨hg, -⟩, hrange⟩
    exact ⟨hrange, hg, (h r hr (by rw [hg]; rfl)).1⟩

/-! ### An addition of a known network -/

/-- What a change of distance makes of a route. -/
def move (p : Peer) (e : EventTuple) (now : Instant) (r : Route) : Route :=
  if p.Through e r then { r with distance := e.tuple.distance + 1, seen := now } else r

theorem move_eq_self_iff {r : Route} :
    p.move e now r = r ↔ (p.Through e r → Moved e now r) := by
  unfold move Moved
  split_ifs with h
  · obtain ⟨range, ext, distance, g, next, state, seen⟩ := r
    simp [h, eq_comm]
  · exact iff_of_true rfl fun hc => absurd hc h

theorem bad_eq_false {x : NetworkTuple} (hd : x.distance < 15) : Tables.bad x = false := by
  refine decide_eq_false fun h31 => ?_
  rw [h31] at hd
  exact absurd hd (by decide)

theorem unreachable_eq_false {x : NetworkTuple} (hd : x.distance < 15) :
    Tables.unreachable x = false := by
  simp [Tables.unreachable, UInt8.not_le.2 hd]

/-- A tuple within reach that has no entry gets one. -/
theorem learnRoutes_unknown {rs : List Route} {x : NetworkTuple} {g : Target} {next : Addr}
    (hd : x.distance < 15) (hany : ¬rs.any (Tables.entryOf x g next) = true) :
    Tables.learnRoutes rs x g next now = rs ++
      [{ range := x.range, extended := x.extended, distance := x.distance + 1, target := g
         next := next, state := .good, seen := now }] := by
  rw [Tables.learnRoutes, if_neg hany, unreachable_eq_false hd, bad_eq_false hd]
  rfl

/-- What an addition that is not refused makes of a route. -/
def renew (p : Peer) (e : EventTuple) (now : Instant) (r : Route) : Route :=
  if p.Through e r ∧ r.range = e.tuple.range then
    { r with extended := e.tuple.extended, distance := e.tuple.distance + 1, seen := now }
  else r

/-- What the addition makes of the routes of a known network, if one has its range. -/
theorem learnRoutes_known (hkept : t.Kept) (ht : t.Tunnelled) (hd : e.tuple.distance < 15)
    (hmatch : ∃ r ∈ t.routes, p.Through e r ∧ r.range = e.tuple.range) :
    Tables.learnRoutes t.routes e.tuple (.peer p.addr) Tables.NO_NEXT now =
      t.routes.map (p.renew e now) := by
  have hany : t.routes.any (Tables.entryOf e.tuple (.peer p.addr) Tables.NO_NEXT) = true := by
    obtain ⟨r, hr, h⟩ := hmatch
    exact List.any_eq_true.2 ⟨r, hr, (entryOf_iff ht hr).2 h⟩
  have honce : t.routes.Pairwise fun a b =>
      ¬(Tables.entryOf e.tuple (.peer p.addr) Tables.NO_NEXT a ∧
        Tables.entryOf e.tuple (.peer p.addr) Tables.NO_NEXT b) := by
    refine (List.pairwise_map.1 hkept.once).imp ?_
    rintro a b hab ⟨ha, hb⟩
    simp only [Tables.entryOf, decide_eq_true_eq] at ha hb
    exact hab (by simp only [Route.key, ha, hb])
  rw [Tables.learnRoutes, if_pos hany, unreachable_eq_false hd, if_neg Bool.false_ne_true,
    Tables.modifyFirst_eq_map honce]
  refine List.map_congr_left fun r hr => ?_
  unfold renew
  by_cases h : p.Through e r ∧ r.range = e.tuple.range
  · rw [if_pos h, if_pos ((entryOf_iff ht hr).2 h), Tables.replaceEntry, bad_eq_false hd,
      ← (ht r hr (by rw [h.1.1]; rfl)).2]
    simp
  · rw [if_neg h, if_neg fun hc => h ((entryOf_iff ht hr).1 hc)]

/-- **An addition of a known network** does what a change of distance does just when it agrees with
what is stored. -/
theorem added_iff (hkept : t.Kept) (ht : t.Tunnelled) (hk : e.code = NA) (hknown : p.Knows e t) :
    (p.apply e t now).1 = (p.apply { e with code := NDC } t now).1 ↔ p.Agrees e t now := by
  have hknown' : p.Knows { e with code := NDC } t := hknown
  rw [@apply_moved t p { e with code := NDC } now rfl, if_pos hknown']
  by_cases hd : 15 ≤ e.tuple.distance
  · -- Beyond reach the addition does nothing and the change of distance deletes the route.
    have hstays : (p.apply e t now).1 = t := by
      unfold apply
      dsimp only
      rw [if_neg fun h => UInt8.not_le.2 h.2 hd, if_neg (by rw [hk]; decide),
        if_neg (by rw [hk]; decide)]
    rw [hstays, if_pos hd]
    refine iff_of_false (fun h => ?_) fun h => UInt8.not_le.2 h.1 hd
    obtain ⟨r, hr, hthrough⟩ := hknown
    have hmem : r ∈ (t.remove (.peer p.addr) e.tuple.range.1).1.routes := h ▸ hr
    rw [Tables.remove, Tables.update_routes, List.mem_filter, Bool.not_eq_true',
      decide_eq_false_iff_not] at hmem
    exact hmem.2 hthrough
  rw [if_neg hd, apply_added hk (UInt8.not_le.1 hd)]
  have hset : (t.setDistance (.peer p.addr) e.tuple.range.1 (e.tuple.distance + 1) now).1 =
      (t.update [e.tuple.range.1] (t.routes.map (p.move e now))).1 := rfl
  show _ = (t.setDistance (.peer p.addr) e.tuple.range.1 (e.tuple.distance + 1) now).1 ↔ _
  rw [hset, Agrees, and_iff_right (UInt8.not_le.1 hd), Tables.learn]
  have hroutes : ∀ rs rs', (t.update [e.tuple.range.1] rs).1 = (t.update [e.tuple.range.1] rs').1 ↔
      rs = rs' := fun rs rs' =>
    ⟨fun h => by simpa using congrArg Tables.routes h, fun h => by rw [h]⟩
  split_ifs with href
  · -- Refused: the routes stay as they are.
    have hself := hroutes t.routes (t.routes.map (p.move e now))
    rw [hkept.update_self] at hself
    rw [hself, ← List.map_inj_left.trans (forall₂_congr fun r _ => move_eq_self_iff), List.map_id',
      eq_comm]
  · rw [hroutes]
    by_cases hmatch : ∃ r ∈ t.routes, p.Through e r ∧ r.range = e.tuple.range
    · rw [and_iff_right hmatch, learnRoutes_known hkept ht (UInt8.not_le.1 hd) hmatch,
        List.map_inj_left]
      refine forall₂_congr fun r _ => ?_
      unfold renew
      by_cases hthrough : p.Through e r
      · rw [imp_iff_right hthrough]
        split_ifs with hc hrange hrange
        · rw [move, if_pos hthrough]
          simp [eq_comm]
        · exact absurd hc.2 hrange
        · exact absurd ⟨hthrough, hrange⟩ hc
        · rw [eq_comm, move_eq_self_iff, imp_iff_right hthrough]
      · rw [if_neg fun hc => hthrough hc.1, move, if_neg hthrough]
        exact iff_of_true rfl fun hc => absurd hc hthrough
    · -- Nothing has the range, so the addition stores one more route.
      have hany : ¬t.routes.any (Tables.entryOf e.tuple (.peer p.addr) Tables.NO_NEXT) = true :=
        fun hany => by
          obtain ⟨r, hr, he⟩ := List.any_eq_true.1 hany
          exact hmatch ⟨r, hr, (entryOf_iff ht hr).1 he⟩
      refine iff_of_false (fun h => ?_) fun h => hmatch h.1
      rw [learnRoutes_unknown (UInt8.not_le.1 hd) hany] at h
      simpa using congrArg List.length h

/-! ### What is stored -/

/-- A tuple that is not refused is stored at one more hop, and usable. -/
theorem stored_of_learn (hkept : t.Kept) (ht : t.Tunnelled) (hd : e.tuple.distance < 15)
    (href : ¬Tables.refuses t.routes e.tuple.range) (hfresh : e.code = NA ∨ ¬p.Knows e t)
    {rs : List Route}
    (hrs : rs = (t.learn e.tuple (.peer p.addr) Tables.NO_NEXT now).1.routes) :
    (∃ r ∈ rs, p.Through e r ∧ (e.code = NA → r.range = e.tuple.range)) ∧
      ∀ r ∈ rs, p.Through e r → (e.code = NA → r.range = e.tuple.range) →
        r.distance = e.tuple.distance + 1 ∧ r.state.usable := by
  rw [Tables.learn, if_neg href, Tables.update_routes] at hrs
  by_cases hmatch : ∃ r ∈ t.routes, p.Through e r ∧ r.range = e.tuple.range
  · have hk : e.code = NA := hfresh.resolve_right fun h => by
      obtain ⟨r, hr, hthrough, -⟩ := hmatch
      exact h ⟨r, hr, hthrough⟩
    rw [learnRoutes_known hkept ht hd hmatch] at hrs
    subst hrs
    constructor
    · obtain ⟨r, hr, hthrough, hrange⟩ := hmatch
      refine ⟨_, List.mem_map_of_mem hr, ?_⟩
      rw [renew, if_pos ⟨hthrough, hrange⟩]
      exact ⟨hthrough, fun _ => hrange⟩
    · rintro r' hr' hthrough hrange
      obtain ⟨r, hr, rfl⟩ := List.mem_map.1 hr'
      unfold renew at hthrough hrange ⊢
      split_ifs at hthrough hrange ⊢ with h
      · exact ⟨rfl, by rw [(ht r hr (by rw [h.1.1]; rfl)).2]; rfl⟩
      · exact absurd ⟨hthrough, hrange hk⟩ h
  · have hany : ¬t.routes.any (Tables.entryOf e.tuple (.peer p.addr) Tables.NO_NEXT) = true :=
      fun hany => by
        obtain ⟨r, hr, he⟩ := List.any_eq_true.1 hany
        exact hmatch ⟨r, hr, (entryOf_iff ht hr).1 he⟩
    rw [learnRoutes_unknown hd hany] at hrs
    subst hrs
    constructor
    · exact ⟨_, List.mem_append_right _ (List.mem_singleton_self _), ⟨rfl, rfl⟩, fun _ => rfl⟩
    · intro r hr hthrough hrange
      rcases List.mem_append.1 hr with hr | hr
      · rcases hfresh with hk | hunknown
        · exact absurd ⟨r, hr, hthrough, hrange hk⟩ hmatch
        · exact absurd ⟨r, hr, hthrough⟩ hunknown
      · obtain rfl := List.mem_singleton.1 hr
        exact ⟨rfl, rfl⟩

/-- A change of distance of a known network is stored at one more hop, and usable. -/
theorem stored_of_move (ht : t.Tunnelled) (hknown : p.Knows e t) {rs : List Route}
    (hrs : rs =
      (t.setDistance (.peer p.addr) e.tuple.range.1 (e.tuple.distance + 1) now).1.routes) :
    (∃ r ∈ rs, p.Through e r) ∧
      ∀ r ∈ rs, p.Through e r → r.distance = e.tuple.distance + 1 ∧ r.state.usable := by
  have hmap : rs = t.routes.map (p.move e now) := hrs.trans (Tables.update_routes _ _ _)
  subst hmap
  have hthrough : ∀ {r}, p.Through e (p.move e now r) ↔ p.Through e r := fun {r} => by
    unfold move
    split_ifs <;> rfl
  constructor
  · obtain ⟨r, hr, h⟩ := hknown
    exact ⟨_, List.mem_map_of_mem hr, hthrough.2 h⟩
  · intro r' hr' h
    obtain ⟨r, hr, rfl⟩ := List.mem_map.1 hr'
    have hr'' := hthrough.1 h
    rw [move, if_pos hr'']
    exact ⟨rfl, by rw [(ht r hr (by rw [hr''.1]; rfl)).2]; rfl⟩

/-- **Inconsistent events** follow the rules on every table that is reached, but for an addition of
a known network that does not agree with what is stored. -/
theorem inconsistent_events (h : t.Reached host) (p : Peer) (e : EventTuple) (now : Instant) :
    p.FollowsRules e t now ↔ (e.code = NA → p.Knows e t → p.Agrees e t now) := by
  have hkept := h.kept
  have ht := h.tunnelled
  constructor
  · exact fun hf hk hknown => (added_iff hkept ht hk hknown).1 (hf.added hk hknown)
  intro hagrees
  refine ⟨fun hk hknown => (added_iff hkept ht hk hknown).2 (hagrees hk hknown), ?_, ?_, ?_⟩
  · intro hk hunknown
    rw [apply_moved hk, if_neg hunknown]
    split_ifs with hd
    · rw [remove_unknown hkept hunknown]
      unfold apply
      dsimp only
      rw [if_neg fun hc => UInt8.not_le.2 hc.2 hd, if_neg (by decide), if_neg (by decide)]
    · exact (@apply_added t p { e with code := NA } now rfl (UInt8.not_le.1 hd)).symm
  · intro hk hunknown
    rw [apply_deleted hk, remove_unknown hkept hunknown]
  · intro hk hd hstored
    rcases hk with hk | hk
    · have href := hstored.resolve_left fun hc => absurd (hk.symm.trans hc.1) (by decide)
      exact stored_of_learn hkept ht hd href (Or.inl hk) (by rw [apply_added hk hd])
    · have hna : e.code ≠ NA := by rw [hk]; decide
      by_cases hknown : p.Knows e t
      · obtain ⟨⟨r, hr, hthrough⟩, hall⟩ := stored_of_move ht hknown
          (congrArg Tables.routes (by rw [apply_moved hk, if_neg (UInt8.not_le.2 hd),
            if_pos hknown]) : (p.apply e t now).1.routes = _)
        exact ⟨⟨r, hr, hthrough, fun hc => absurd hc hna⟩, fun r hr hthrough _ =>
          hall r hr hthrough⟩
      · have href := hstored.resolve_left fun hc => hknown hc.2
        exact stored_of_learn hkept ht hd href (Or.inr hknown)
          (by rw [apply_moved hk, if_neg (UInt8.not_le.2 hd), if_neg hknown])

/-! ### What a receiver stores -/

theorem holding_start_eq_none : t.holding p.addr (startOf e) = none ↔ ¬p.Knows e t := by
  simp only [Tables.holding, Option.map_eq_none_iff, List.find?_eq_none, decide_eq_true_eq]
  exact ⟨fun h ⟨r, hr, hthrough⟩ => h r hr hthrough, fun h r hr hthrough => h ⟨r, hr, hthrough⟩⟩

/-- Routes changed one at a time, each keeping its range and its target. -/
theorem holding_map {f : Route → Route} (hf : ∀ r, (f r).range = r.range ∧ (f r).target = r.target)
    (hroutes : t'.routes = t.routes.map f) (ip : Ipv4Addr) (n : UInt16) :
    t'.holding ip n = (t.routes.find? fun r => r.target = .peer ip ∧ r.range.1 = n).map
      fun r => (r.range, (f r).distance) := by
  have hsame : ((fun r : Route => decide (r.target = .peer ip ∧ r.range.1 = n)) ∘ f) =
      fun r => decide (r.target = .peer ip ∧ r.range.1 = n) := by
    funext r
    simp [(hf r).1, (hf r).2]
  rw [Tables.holding, hroutes, List.find?_map, hsame, Option.map_map]
  congr 1
  funext r
  simp [(hf r).1]

/-- Changes to the routes of one network of the peer leave what is stored for the others. -/
theorem holding_map_eq {f : Route → Route}
    (hf : ∀ r, (f r).range = r.range ∧ (f r).target = r.target)
    (hother : ∀ r, ¬p.Through e r → f r = r) {d : UInt8}
    (hown : ∀ r ∈ t.routes, p.Through e r → (f r).distance = d)
    (hroutes : t'.routes = t.routes.map f) :
    t'.holding p.addr = Function.update (t.holding p.addr) (startOf e)
      ((t.holding p.addr (startOf e)).map fun h => (h.1, d)) := by
  funext n
  rw [holding_map hf hroutes]
  by_cases hn : n = startOf e
  · subst hn
    rw [Function.update_self, Tables.holding, Option.map_map]
    cases hfind : t.routes.find? fun r => r.target = .peer p.addr ∧ r.range.1 = startOf e with
    | none => rfl
    | some r =>
      have hr := List.mem_of_find?_eq_some hfind
      have hthrough : p.Through e r := by
        have := List.find?_some hfind
        exact of_decide_eq_true this
      simp [hown r hr hthrough]
  · rw [Function.update_of_ne hn, Tables.holding]
    cases hfind : t.routes.find? fun r => r.target = .peer p.addr ∧ r.range.1 = n with
    | none => rfl
    | some r =>
      have hr : r.target = .peer p.addr ∧ r.range.1 = n := by simpa using List.find?_some hfind
      have hnot : ¬p.Through e r := fun h => hn (hr.2.symm.trans h.2)
      simp [hother r hnot]

theorem holding_remove : (t.remove (.peer p.addr) e.tuple.range.1).1.holding p.addr =
    Function.update (t.holding p.addr) (startOf e) none := by
  funext n
  rw [Tables.holding, Tables.remove, Tables.update_routes, List.find?_filter]
  by_cases hn : n = startOf e
  · subst hn
    rw [Function.update_self, Option.map_eq_none_iff, List.find?_eq_none]
    intro r _
    simp only [startOf]
    grind
  · rw [Function.update_of_ne hn, Tables.holding]
    congr 2
    funext r
    rw [Bool.eq_iff_iff]
    simp only [decide_eq_true_eq, Bool.not_eq_true', decide_eq_false_iff_not]
    exact ⟨fun hc => hc.2, fun hc => ⟨fun hs => hn (hc.2.symm.trans hs.2), hc⟩⟩

/-- The range of a known network is the tuple's, or the tuple is refused. -/
theorem refuses_of_ne (hd : Disciplined t.routes) (hlegal : e.tuple.range.1 ≤ e.tuple.range.2)
    {r : Route} (hr : r ∈ t.routes) (hthrough : p.Through e r) (hne : r.range ≠ e.tuple.range) :
    Tables.refuses t.routes e.tuple.range := by
  have hover : overlaps r.range e.tuple.range = true := by
    have hi := hd.1 r hr
    simp only [overlaps, decide_eq_true_eq, ← hthrough.2]
    exact ⟨hthrough.2 ▸ hlegal, hi⟩
  exact List.any_eq_true.2 ⟨r, hr, decide_eq_true (Or.inl ⟨hne, hover⟩)⟩

/-- The routes through a peer for one network have one range. -/
theorem range_eq (hd : Disciplined t.routes) {r s : Route} (hr : r ∈ t.routes) (hs : s ∈ t.routes)
    (hr' : p.Through e r) (hs' : p.Through e s) : r.range = s.range := by
  have hstart : r.range.1 = s.range.1 := hr'.2.trans hs'.2.symm
  rcases hd.2 r hr s hs with h | h | h
  · exact h
  · exact absurd (hstart ▸ hd.1 r hr) (by grind)
  · exact absurd (hstart ▸ hd.1 s hs) (by grind)

/-- A tuple that is not refused gives an unknown network what it says. -/
theorem holding_learn (ht : t.Tunnelled) (hd : e.tuple.distance < 15) (hunknown : ¬p.Knows e t)
    (href : ¬Tables.refuses t.routes e.tuple.range) :
    (t.learn e.tuple (.peer p.addr) Tables.NO_NEXT now).1.holding p.addr =
      Function.update (t.holding p.addr) (startOf e)
        (some (e.tuple.range, e.tuple.distance + 1)) := by
  have hany : ¬t.routes.any (Tables.entryOf e.tuple (.peer p.addr) Tables.NO_NEXT) = true :=
    fun hany => by
      obtain ⟨r, hr, he⟩ := List.any_eq_true.1 hany
      exact hunknown ⟨r, hr, ((entryOf_iff ht hr).1 he).1⟩
  funext n
  rw [Tables.holding, Tables.learn, if_neg href, Tables.update_routes, learnRoutes_unknown hd hany,
    List.find?_append]
  by_cases hn : n = startOf e
  · subst hn
    have hnone := Option.map_eq_none_iff.1 (holding_start_eq_none.2 hunknown)
    rw [Function.update_self, hnone]
    simp [startOf]
  · have hne : ¬e.tuple.range.1 = n := Ne.symm hn
    rw [Function.update_of_ne hn, Tables.holding]
    simp [hne]

/-- **The tables follow an event** as what a receiver stores does, where ranges are intervals and
nothing but another range of the network itself has the event's tuple refused. -/
theorem holding_apply (hd : Disciplined t.routes) (ht : t.Tunnelled) (hkept : t.Kept)
    (hlegal : e.tuple.range.1 ≤ e.tuple.range.2)
    (hfree : Tables.refuses t.routes e.tuple.range →
      ∃ r ∈ t.routes, p.Through e r ∧ r.range ≠ e.tuple.range) :
    (p.apply e t now).1.holding p.addr = (t.holding p.addr).follow e := by
  have hunrefused : ¬p.Knows e t → ¬Tables.refuses t.routes e.tuple.range := fun hu href => by
    obtain ⟨r, hr, hthrough, -⟩ := hfree href
    exact hu ⟨r, hr, hthrough⟩
  have hstored : ∀ {r}, r ∈ t.routes → p.Through e r →
      ∃ d, t.holding p.addr (startOf e) = some (r.range, d) := fun {r} hr hthrough => by
    cases hfind : t.routes.find? fun r => r.target = .peer p.addr ∧ r.range.1 = startOf e with
    | none => exact absurd (decide_eq_true hthrough) (List.find?_eq_none.1 hfind r hr)
    | some q =>
      have hq : p.Through e q := by
        have := List.find?_some hfind
        exact of_decide_eq_true this
      refine ⟨q.distance, ?_⟩
      rw [Tables.holding, hfind, range_eq hd hr (List.mem_of_find?_eq_some hfind) hthrough hq]
      rfl
  have hunknown : ¬p.Knows e t → t.holding p.addr (startOf e) = none := holding_start_eq_none.2
  unfold Holding.follow heed
  split_ifs with h1 h2 h3 h4
  · rw [apply_added h1.1 h1.2]
    by_cases hknown : p.Knows e t
    · obtain ⟨r, hr, hthrough⟩ := hknown
      obtain ⟨d, hheld⟩ := hstored hr hthrough
      by_cases hrange : r.range = e.tuple.range
      · have href : ¬Tables.refuses t.routes e.tuple.range := fun href => by
          obtain ⟨q, hq, hq', hne⟩ := hfree href
          exact hne ((range_eq hd hq hr hq' hthrough).trans hrange)
        have hroutes : (t.learn e.tuple (.peer p.addr) Tables.NO_NEXT now).1.routes =
            t.routes.map (p.renew e now) := by
          rw [Tables.learn, if_neg href, Tables.update_routes]
          exact learnRoutes_known hkept ht h1.2 ⟨r, hr, hthrough, hrange⟩
        rw [holding_map_eq (e := e) (d := e.tuple.distance + 1) (fun q => ?_) (fun q hq => ?_)
          (fun q hq hq' => ?_) hroutes, hheld]
        · simp [hrange]
        · unfold renew
          split_ifs <;> exact ⟨rfl, rfl⟩
        · rw [renew, if_neg fun hc => hq hc.1]
        · rw [renew, if_pos ⟨hq', (range_eq hd hq hr hq' hthrough).trans hrange⟩]
      · rw [Tables.learn, if_pos (refuses_of_ne hd hlegal hr hthrough hrange), hheld]
        dsimp only
        rw [if_neg hrange, ← hheld, Function.update_eq_self]
    · rw [hunknown hknown]
      exact holding_learn ht h1.2 hknown (hunrefused hknown)
  · rw [apply_deleted h2]
    exact holding_remove
  · rw [apply_moved h3, if_pos h4]
    exact holding_remove
  · rw [apply_moved h3, if_neg h4]
    by_cases hknown : p.Knows e t
    · have hroutes : (t.setDistance (.peer p.addr) e.tuple.range.1 (e.tuple.distance + 1)
          now).1.routes = t.routes.map (p.move e now) := Tables.update_routes _ _ _
      obtain ⟨r, hr, hthrough⟩ := hknown
      obtain ⟨d, hheld⟩ := hstored hr hthrough
      rw [if_pos ⟨r, hr, hthrough⟩, holding_map_eq (e := e) (d := e.tuple.distance + 1)
        (fun q => ?_) (fun q hq => if_neg hq) (fun q _ hq => ?_) hroutes, hheld]
      · rfl
      · show (p.move e now q).range = _ ∧ (p.move e now q).target = _
        unfold move
        split_ifs <;> exact ⟨rfl, rfl⟩
      · show (p.move e now q).distance = _
        rw [move, if_pos hq]
    · rw [if_neg hknown, hunknown hknown]
      exact holding_learn ht (UInt8.not_le.1 h4) hknown (hunrefused hknown)
  · have hsame : (p.apply e t now).1 = t := by
      unfold apply
      dsimp only
      rw [if_neg h1, if_neg h2, if_neg h3]
    rw [hsame, Function.update_eq_self]

/-! ### A small table -/

/-- A router that network 20-25 is told to through a tunnel, at two hops. -/
def told20 : Tables :=
  TableOp.after Router.small.tables [.learn { range := (20, 25), extended := true, distance := 1 }
    (.peer ⟨192, 0, 2, 7⟩) Tables.NO_NEXT 0]

theorem told20_reached : told20.Reached .lowest :=
  ⟨.small, _, 0, _, rfl, Config.small_opened, by simp [TableOp.Called, TableOp.Tunnels], rfl⟩

/-- The peer at the other end of that tunnel. -/
def teller : Peer := Peer.new ⟨192, 0, 2, 7⟩ none 7 .null 0

/-- It adds network 20-25. -/
def adds20 (distance : UInt8) : EventTuple :=
  { code := NA, tuple := { range := (20, 25), extended := true, distance := distance } }

theorem inconsistent_events_near : teller.FollowsRules (adds20 3) told20 0 :=
  (inconsistent_events told20_reached teller (adds20 3) 0).2 fun _ _ => by decide

/-- An addition beyond reach leaves the route that a change of distance would delete. -/
theorem addition_beyond_reach :
    told20.Reached .lowest ∧ ¬teller.FollowsRules (adds20 15) told20 0 :=
  ⟨told20_reached, fun h => by
    have hroutes := congrArg Tables.routes (h.added rfl (by decide))
    exact absurd hroutes (by decide)⟩

end Peer

end AppleTalk
