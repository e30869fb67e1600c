import AppleTalk.Router.Reach

/-!
# The ranges in the routing table

Every stored range is an interval and any two are equal or apart, in every run that stores no
tuple whose range ends before it starts. The overlap test of `learn` is the only guard, and it
finds such a tuple apart from every interval.
-/

namespace AppleTalk

open TableOp

/-- Every stored range is an interval, and any two are equal or disjoint. -/
def Disciplined (rs : List Route) : Prop :=
  (∀ r ∈ rs, r.range.1 ≤ r.range.2) ∧
    ∀ r ∈ rs, ∀ s ∈ rs, r.range = s.range ∨ r.range.2 < s.range.1 ∨ s.range.2 < r.range.1

theorem not_overlaps {a b : UInt16 × UInt16} : ¬overlaps a b ↔ b.2 < a.1 ∨ a.2 < b.1 := by
  simp only [overlaps, decide_eq_true_eq]
  grind

/-- The discipline is one of the ranges alone. -/
theorem Disciplined.of_ranges {rs rs' : List Route} (h : Disciplined rs)
    (hr : ∀ r ∈ rs', ∃ q ∈ rs, r.range = q.range) : Disciplined rs' := by
  refine ⟨fun r hr' => ?_, fun r hr' s hs => ?_⟩
  · obtain ⟨q, hq, he⟩ := hr r hr'
    rw [he]
    exact h.1 q hq
  · obtain ⟨q, hq, he⟩ := hr r hr'
    obtain ⟨q', hq', he'⟩ := hr s hs
    rw [he, he']
    exact h.2 q hq q' hq'

/-- One more route whose range is an interval that no other range overlaps. -/
theorem Disciplined.append {rs : List Route} (h : Disciplined rs) {r : Route}
    (hr : r.range.1 ≤ r.range.2) (hfree : ∀ q ∈ rs, q.range = r.range ∨ ¬overlaps q.range r.range) :
    Disciplined (rs ++ [r]) := by
  have hr' : ∀ q ∈ rs, q.range = r.range ∨ r.range.2 < q.range.1 ∨ q.range.2 < r.range.1 :=
    fun q hq => (hfree q hq).imp_right not_overlaps.1
  simp only [Disciplined, List.forall_mem_append, List.forall_mem_singleton]
  refine ⟨⟨h.1, hr⟩, fun q hq => ⟨h.2 q hq, ?_⟩, fun q hq => ?_, Or.inl trivial⟩
  · exact (hr' q hq).imp_right Or.symm
  · exact (hr' q hq).imp_left Eq.symm

/-- The listing by range start and the lookup by network number find the same range. -/
theorem Disciplined.best_range {t : Tables} (h : Disciplined t.routes) {net : UInt16}
    {r b : Route} (hr : t.bestForStart net = some r) (hb : t.best net = some b) :
    b.range = r.range := by
  obtain ⟨hrm, -, -⟩ := Tables.pick_eq_some hr
  obtain ⟨hbm, -, hc⟩ := Tables.pick_eq_some hb
  have hs := Tables.bestForStart_start hr
  have hi := h.1 r hrm
  simp only [Route.contains, decide_eq_true_eq] at hc
  rcases h.2 b hbm r hrm with he | hlt | hlt
  · exact he
  · exact absurd (hs ▸ hc.2) (by grind)
  · exact absurd (hs ▸ hc.1) (by grind)

/-! ### One operation -/

namespace TableOp

/-- The tuple of an operation has a range that is an interval, or none of it is stored: it is
refused, or its distance deletes or marks an entry and creates none. -/
def Ranged (t : Tables) : TableOp → Prop
  | .learn x _ _ _ =>
    x.range.1 ≤ x.range.2 ∨ Tables.refuses t.routes x.range ∨ Tables.unreachable x ∨ Tables.bad x
  | _ => True

end TableOp

theorem Disciplined.learn {rs : List Route} (h : Disciplined rs) {x : NetworkTuple} {g : Target}
    {next : Addr} {now : Instant} (href : ¬Tables.refuses rs x.range)
    (hx : x.range.1 ≤ x.range.2 ∨ Tables.unreachable x ∨ Tables.bad x) :
    Disciplined (Tables.learnRoutes rs x g next now) := by
  by_cases hnew : Tables.unreachable x ∨ Tables.bad x ∨ ∃ q ∈ rs, Tables.entryOf x g next q
  · -- Nothing is appended, so every range is one of before.
    refine h.of_ranges fun r hr => ?_
    rcases Tables.mem_learnRoutes hr with hr | ⟨q, hq, -, -, rfl⟩ | ⟨hu, hb, rfl⟩
    · exact ⟨r, hr, rfl⟩
    · exact ⟨q, hq, rfl⟩
    · rcases hnew with hnew | hnew | ⟨q, hq, he⟩
      · simp [hu] at hnew
      · simp [hb] at hnew
      · simp only [Tables.entryOf, decide_eq_true_eq] at he
        exact ⟨q, hq, he.1.symm⟩
  · push Not at hnew
    obtain ⟨hu, hb, hno⟩ := hnew
    have hany : ¬(rs.any (Tables.entryOf x g next)) = true := fun he => by
      obtain ⟨q, hq, he⟩ := List.any_eq_true.1 he
      exact hno q hq he
    unfold Tables.learnRoutes
    rw [if_neg hany, if_neg (by simp [hu, hb])]
    refine h.append (hx.resolve_right (by simp [hu, hb])) fun q hq => ?_
    -- Not refused, so it overlaps no other range.
    by_contra hov
    push Not at hov
    exact href (List.any_eq_true.2 ⟨q, hq, by simpa using Or.inl hov⟩)

/-- **One operation** that stores no inverted range keeps the discipline. -/
theorem Disciplined.step {t : Tables} (h : Disciplined t.routes) {op : TableOp}
    (hop : op.Ranged t) : Disciplined (op.apply t).1.routes := by
  rw [apply_routes]
  by_cases hl : ∃ x g next now, op = .learn x g next now
  · obtain ⟨x, g, next, now, rfl⟩ := hl
    simp only [TableOp.routes]
    split_ifs with href
    · exact h
    · exact h.learn href (hop.imp_right fun hop => hop.resolve_left href)
  · push Not at hl
    rw [routes_eq_filterMap hl]
    refine h.of_ranges fun r hr => ?_
    obtain ⟨q, hq, hqr⟩ := List.mem_filterMap.1 hr
    exact ⟨q, hq, (onRoute_same hqr).1⟩

/-- A tuple that is stored with an inverted range breaks the discipline. -/
theorem Disciplined.ranged {t : Tables} (h : Disciplined t.routes) {op : TableOp}
    (hop : Disciplined (op.apply t).1.routes) : op.Ranged t := by
  cases op with
  | learn x g next now =>
    by_contra hx
    simp only [TableOp.Ranged, not_or] at hx
    obtain ⟨hlt, href, hu, hb⟩ := hx
    have hany : ¬(t.routes.any (Tables.entryOf x g next)) = true := fun he => by
      obtain ⟨q, hq, he⟩ := List.any_eq_true.1 he
      simp only [Tables.entryOf, decide_eq_true_eq] at he
      exact hlt (he.1 ▸ h.1 q hq)
    rw [apply_routes, TableOp.routes, if_neg href, Tables.learnRoutes, if_neg hany,
      if_neg (by simp [hu, hb])] at hop
    exact hlt (hop.1 _ (List.mem_append_right _ (List.mem_singleton_self _)))
  | _ => trivial

/-! ### Runs -/

/-- No table operation of the input stores an inverted range. -/
def CoreIn.Ranged (c : Core) (i : CoreIn × Instant) : Prop :=
  Machine.Guarded (fun t op => (TableOp.apply t op).1) TableOp.Ranged c.tables (c.ops i)

theorem Disciplined.next {c : Core} (h : Disciplined c.tables.routes) {i : CoreIn × Instant}
    (hi : CoreIn.Ranged c i) : Disciplined (c.next i).tables.routes := by
  rw [Core.next_tables]
  exact Machine.Guarded.invariant (I := fun t : Tables => Disciplined t.routes)
    (fun t op h hop => h.step hop) h hi

namespace Router

variable {host : Host}

/-- Opening a port whose range is an interval apart from the others keeps the discipline. -/
theorem addPorts_disciplined (now : Instant)
    {specs : List ((String × Kind) × (UInt16 × UInt16) × List Str)} {id : ℕ} {t : Tables}
    (h : Disciplined t.routes) (hs : ∀ s ∈ specs.map Prod.snd, Config.Sound s)
    (hpw : (specs.map Prod.snd).Pairwise fun a b => ¬overlaps a.1 b.1)
    (hfree : ∀ r ∈ t.routes, ∀ s ∈ specs.map Prod.snd, ¬overlaps r.range s.1) :
    Disciplined (addPorts host now id specs t).2.routes := by
  induction specs generalizing id t with
  | nil => exact h
  | cons s specs ih =>
    obtain ⟨⟨name, kind⟩, range, zones⟩ := s
    simp only [List.map_cons, List.pairwise_cons, List.forall_mem_cons] at hs hpw hfree
    refine ih (h.append hs.1.2.2.1 fun q hq => Or.inr (hfree q hq).1) hs.2 hpw.2 ?_
    intro r hr s hmem
    rcases List.mem_append.1 hr with hr | hr
    · exact (hfree r hr).2 s hmem
    · rw [List.mem_singleton.1 hr]
      exact hpw.1 s hmem

theorem Built.disciplined {r : Router} (h : Built host r) : Disciplined r.tables.routes := by
  obtain ⟨cfg, kinds, now, hv, ho, rfl⟩ := h
  obtain ⟨hs, hpw⟩ := Config.validate_ok hv
  refine addPorts_disciplined now ⟨by simp [Tables.new], by simp [Tables.new]⟩ ?_ ?_
    (by simp [Tables.new])
  · rwa [zip_snd ho]
  · rwa [zip_snd ho]

/-- No tuple of the event is stored with a range that ends before it starts. -/
def StoresIntervals (host : Host) (r : Router) (e : Event × Instant) : Prop :=
  Machine.Guarded Core.next CoreIn.Ranged r.core (r.coreInputs host e)

/-- **Range discipline.** In every run of a built router that stores no inverted tuple, every
stored range is an interval, any two are equal or disjoint, and the listing by range start never
finds another range than the lookup by network number. -/
theorem ranges_disciplined {r0 : Router} (h : Built host r0) {es : List (Event × Instant)}
    (hes : Machine.Guarded (fun r e => (event host r e).1) (StoresIntervals host) r0 es) :
    Disciplined (r0.after host es).tables.routes ∧
      ∀ net r b, (r0.after host es).tables.bestForStart net = some r →
        (r0.after host es).tables.best net = some b → b.range = r.range := by
  have hd : Disciplined (r0.after host es).tables.routes := by
    refine Machine.Guarded.invariant (I := fun r : Router => Disciplined r.tables.routes)
      (fun r e h he => ?_) h.disciplined hes
    rw [show (r.event host e).1.tables = (r.core.after (r.coreInputs host e)).tables from
      congrArg Core.tables (event_core host r e)]
    exact Machine.Guarded.invariant (I := fun c : Core => Disciplined c.tables.routes)
      (fun c i h hi => h.next hi) h he
  exact ⟨hd, fun net r b => hd.best_range⟩

/-- A beacon from node 1 of network 10's cable with one extended tuple, at distance 0. -/
def beacon (s0 s1 e0 e1 : UInt8) : Llap :=
  { dst := 255, src := 1, typ := LLAP_SHORT_DDP
    data := [0, 18, RTMP_SOCKET, RTMP_SOCKET, DDP_RTMP_DATA, 0, 10, 8, 1, 0, 0, 0x82,
      s0, s1, 0x80, e0, e1, 0x82] }

theorem ranges_disciplined_small :
    Disciplined (small.after .lowest [(.input (.llap 0 (beacon 0 20 0 25)), 0)]).tables.routes := by
  have hin : small.coreInputs .lowest (.input (.llap 0 (beacon 0 20 0 25)), 0) =
      [(.batch [.learn { range := (20, 25), extended := true, distance := 0 } (.port 0)
        { net := 10, node := 1 } 0], 0)] := rfl
  refine (@ranges_disciplined _ _ small_built [(.input (.llap 0 (beacon 0 20 0 25)), 0)]
    ⟨?_, trivial⟩).1
  rw [StoresIntervals, hin]
  exact ⟨⟨Or.inl (by decide), trivial⟩, trivial⟩

/-- A beacon for 10-5, which ends before it starts, is stored beside our own network 10. -/
theorem inverted_range_is_stored :
    ∃ r, Built Host.lowest r ∧
      ¬Disciplined (r.after .lowest [(.input (.llap 0 (beacon 0 10 0 5)), 0)]).tables.routes := by
  refine ⟨small, small_built, fun h => ?_⟩
  have hr : ((small.after .lowest
      [(.input (.llap 0 (beacon 0 10 0 5)), 0)]).tables.routes.map Route.range) =
      [(10, 10), (10, 5)] := by decide +kernel
  obtain ⟨r, hmem, hrange⟩ := List.mem_map.1 (hr ▸ List.mem_cons_of_mem _ List.mem_cons_self :
    ((10, 5) : UInt16 × UInt16) ∈ _)
  exact absurd (hrange ▸ h.1 r hmem) (by decide)

end Router

end AppleTalk
