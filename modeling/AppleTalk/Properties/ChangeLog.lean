import AppleTalk.Properties.Bookkeeping

/-!
# The change log

Every operation on the tables returns one change for each range start whose best route it moved,
and none for any other. So whoever replays the changes, from the configured ports on, knows the
best route of every range.
-/

namespace AppleTalk

open TableOp

/-! ### Replaying -/

/-- What a follower of the changes knows: how each range start is reached, and how far away it
is. -/
abbrev Known := UInt16 → Option (Target × UInt8)

/-- How a route reaches its range. -/
def Route.reached (r : Route) : Target × UInt8 := (r.target, r.distance)

/-- Replay changes, the later ones over the earlier ones. -/
def replay (known : Known) (changes : List RouteChange) : Known :=
  changes.foldl (fun known c => Function.update known c.range.1 (c.new.map Route.reached)) known

/-- The best route of every range start. -/
def Tables.known (t : Tables) : Known := fun s => (t.bestForStart s).map Route.reached

/-- The configured ports, each network at distance 0. -/
def Config.known (cfg : Config) : Known := fun s =>
  (cfg.nets.find? fun n => n.range.1 = s).map fun n => (.port n.port, 0)

theorem replay_cons (known : Known) (c : RouteChange) (cs : List RouteChange) :
    replay known (c :: cs) =
      replay (Function.update known c.range.1 (c.new.map Route.reached)) cs := rfl

theorem replay_append (known : Known) (a b : List RouteChange) :
    replay known (a ++ b) = replay (replay known a) b :=
  List.foldl_append ..

/-- A range start whose changes all say the same is known by it, and one without a change as
before. -/
theorem replay_eq {changes : List RouteChange} {known : Known} {s : UInt16}
    {v : Option (Target × UInt8)}
    (hall : ∀ c ∈ changes, c.range.1 = s → c.new.map Route.reached = v)
    (h : (∃ c ∈ changes, c.range.1 = s) ∨ known s = v) : replay known changes s = v := by
  induction changes generalizing known with
  | nil => simpa [replay] using h
  | cons c cs ih =>
    rw [replay_cons]
    refine ih (fun c hc => hall c (List.mem_cons_of_mem _ hc)) ?_
    by_cases hc : c.range.1 = s
    · right
      rw [← hc, Function.update_self]
      exact hall c List.mem_cons_self hc
    · rw [Function.update_of_ne (Ne.symm hc)]
      refine h.imp_left ?_
      rintro ⟨c', hc', hs⟩
      rcases List.mem_cons.1 hc' with rfl | hc'
      · exact absurd hs hc
      · exact ⟨c', hc', hs⟩

/-! ### One operation -/

/-- The best route moved if it is known otherwise than before. -/
theorem Tables.changed_iff {a b : Option Route} :
    Tables.changed a b ↔ a.map Route.reached ≠ b.map Route.reached := by
  cases a with
  | none => cases b <;> simp [changed]
  | some a =>
    cases b with
    | none => simp [changed]
    | some b =>
      simp only [changed, Option.map_some, ne_eq, Option.some.injEq, Route.reached, Prod.mk.injEq,
        decide_eq_true_eq]
      tauto

/-- What an operation other than zone names returns for one range start. -/
theorem TableOp.changes_at {op : TableOp}
    (h : ∀ start names expected, op ≠ .addZones start names expected) (t : Tables) (s : UInt16) :
    ((op.apply t).2.filter fun c => c.range.1 = s) =
      (op.apply t).1.changeAt s (t.bestForStart s) := by
  have hstart : ∀ s' c, c ∈ (op.apply t).1.changeAt s' (t.bestForStart s') → c.range.1 = s' :=
    fun s' c hc => (Tables.mem_changeAt (fun r hr => Tables.bestForStart_start hr) hc).1
  have hflat : ∀ ss : List UInt16, ss.Nodup →
      ((ss.flatMap fun s => (op.apply t).1.changeAt s (t.bestForStart s)).filter
        fun c => c.range.1 = s) =
        if s ∈ ss then (op.apply t).1.changeAt s (t.bestForStart s) else [] := by
    intro ss
    induction ss with
    | nil => simp
    | cons s' ss ih =>
      intro hn
      obtain ⟨hs', hn⟩ := List.nodup_cons.1 hn
      rw [List.flatMap_cons, List.filter_append, ih hn]
      by_cases hs : s' = s
      · subst hs
        rw [if_neg hs', if_pos List.mem_cons_self, List.append_nil]
        exact List.filter_eq_self.2 fun c hc => by simpa using hstart s' c hc
      · have hnone : ((op.apply t).1.changeAt s' (t.bestForStart s')).filter
            (fun c => c.range.1 = s) = [] :=
          List.filter_eq_nil_iff.2 fun c hc => by simpa [hstart s' c hc] using hs
        simp [hnone, Ne.symm hs]
  rw [apply_changes h, hflat _ (op.nodup_touched t)]
  split_ifs with hs
  · rfl
  · exact (Tables.changeAt_same (bestForStart_untouched hs)).symm

/-- Every change says how its range is reached now. -/
theorem TableOp.new_of_mem {op : TableOp} {t : Tables} {c : RouteChange}
    (hc : c ∈ (op.apply t).2) : c.new = (op.apply t).1.bestForStart c.range.1 := by
  by_cases hz : ∃ start names expected, op = .addZones start names expected
  · obtain ⟨start, names, expected, rfl⟩ := hz
    simp only [apply, Tables.addZones] at hc ⊢
    split at hc
    · cases hc
    · dsimp only at hc ⊢
      split at hc
      · rename_i r hr
        split_ifs at hc
        · rw [List.mem_singleton.1 hc]
          dsimp only
          rw [Tables.bestForStart_start hr, hr]
        · cases hc
      · cases hc
  · push Not at hz
    have hmem : c ∈ (op.apply t).2.filter fun c' => c'.range.1 = c.range.1 :=
      List.mem_filter.2 ⟨hc, by simp⟩
    rw [changes_at hz] at hmem
    exact (Tables.mem_changeAt (fun r hr => Tables.bestForStart_start hr) hmem).2.2

/-- A range start without a change is reached as before. -/
theorem TableOp.known_of_unchanged {op : TableOp} {t : Tables} {s : UInt16}
    (hs : ¬∃ c ∈ (op.apply t).2, c.range.1 = s) : (op.apply t).1.known s = t.known s := by
  by_cases hz : ∃ start names expected, op = .addZones start names expected
  · obtain ⟨start, names, expected, rfl⟩ := hz
    unfold Tables.known
    rw [bestForStart_untouched (by simp [touched])]
  · push Not at hz
    by_contra hne
    have hfilter := changes_at hz t s
    unfold Tables.changeAt at hfilter
    dsimp only at hfilter
    rw [if_pos (Tables.changed_iff.2 (Ne.symm hne))] at hfilter
    obtain ⟨c, hc⟩ : ∃ c, c ∈ (op.apply t).2.filter fun c => c.range.1 = s :=
      ⟨_, hfilter ▸ List.mem_singleton_self _⟩
    exact hs ⟨c, (List.mem_filter.1 hc).1, by simpa using (List.mem_filter.1 hc).2⟩

/-- **One operation**: its changes take a follower from the tables before to the tables after. -/
theorem TableOp.replay_apply (op : TableOp) (t : Tables) :
    replay t.known (op.apply t).2 = (op.apply t).1.known := by
  funext s
  refine replay_eq (fun c hc hs => ?_) ?_
  · rw [new_of_mem hc, hs]
    rfl
  · by_cases hs : ∃ c ∈ (op.apply t).2, c.range.1 = s
    · exact Or.inl hs
    · exact Or.inr (known_of_unchanged hs).symm

/-! ### The configured ports -/

namespace Router

variable {host : Host}

theorem addPorts_known (now : Instant)
    {specs : List ((String × Kind) × (UInt16 × UInt16) × List Str)} {id : ℕ} {t : Tables}
    (hs : ∀ s ∈ specs.map Prod.snd, Config.Sound s)
    (hpw : (specs.map Prod.snd).Pairwise fun a b => ¬overlaps a.1 b.1)
    (hfree : ∀ r ∈ t.routes, ∀ s ∈ specs.map Prod.snd, r.range.1 ≠ s.1.1) (s : UInt16) :
    (addPorts host now id specs t).2.known s =
      (((Config.netsFrom id (specs.map Prod.snd)).find? fun n => n.range.1 = s).map
        fun n => (.port n.port, 0)).or (t.known s) := by
  induction specs generalizing id t with
  | nil => rfl
  | cons spec specs ih =>
    obtain ⟨⟨name, kind⟩, range, zones⟩ := spec
    simp only [List.map_cons, List.pairwise_cons, List.forall_mem_cons] at hs hpw hfree
    simp only [addPorts]
    rw [ih hs.2 hpw.2]
    · have hknown : ∀ extended, (t.addPort (Port.new host (UInt8.ofNat id) name kind range zones
          now).id range extended zones now).known s =
          if s = range.1 then some (.port (UInt8.ofNat id), 0) else t.known s := by
        intro extended
        unfold Tables.known
        rw [addPort_bestForStart fun r hr => (hfree r hr).1]
        split_ifs <;> rfl
      rw [hknown, List.map_cons, Config.netsFrom, List.find?_cons]
      by_cases h : s = range.1
      · -- No later port starts at the same network.
        have hlater : (Config.netsFrom (id + 1) (specs.map Prod.snd)).find?
            (fun n => n.range.1 = s) = none := by
          refine List.find?_eq_none.2 fun n hn => ?_
          obtain ⟨s', hs', rfl⟩ := mem_netsFrom hn
          have := start_ne hs.1.2.2.1 (hs.2 _ hs').2.2.1 (hpw.1 _ hs')
          simpa [h] using this.symm
        simp [h ▸ hlater, h]
      · simp [h, Ne.symm h]
    · intro r hr s' hmem
      rcases List.mem_append.1 hr with hr | hr
      · exact (hfree r hr).2 s' hmem
      · rw [List.mem_singleton.1 hr]
        exact start_ne hs.1.2.2.1 (hs.2 s' hmem).2.2.1 (hpw.1 s' hmem)

/-- A router starts with the best routes of its ports. -/
theorem new_known {cfg : Config} {kinds : List (String × Kind)} (hv : cfg.validate host = .ok ())
    (ho : cfg.Opened kinds) (now : Instant) :
    (new host cfg kinds now).tables.known = cfg.known := by
  obtain ⟨hs, hpw⟩ := Config.validate_ok hv
  funext s
  show (addPorts host now 0 (kinds.zip cfg.portSpecs) Tables.new).2.known s = _
  rw [addPorts_known now (by rwa [zip_snd ho]) (by rwa [zip_snd ho]) (by simp [Tables.new]),
    zip_snd ho]
  have hnew : Tables.new.known s = none := by
    unfold Tables.known
    rw [Tables.bestForStart_eq_none (by simp [Tables.new])]
    rfl
  simp [hnew, Config.known, Config.nets]

/-- **The change log is exact.** Replaying the changes of any run of operations over the configured
ports gives how every range is reached by its best route. And every operation but zone names
returns exactly one change for each range start whose best route appeared, went, or changed its
target or its distance, from the route before to the route after, and none for any other. -/
theorem change_log_exact {cfg : Config} {kinds : List (String × Kind)}
    (hv : cfg.validate host = .ok ()) (ho : cfg.Opened kinds) (now : Instant)
    (ops : List TableOp) :
    let t := TableOp.after (new host cfg kinds now).tables ops
    replay cfg.known (applyAll (new host cfg kinds now).tables ops).2 = t.known ∧
    ∀ op : TableOp, (∀ start names expected, op ≠ .addZones start names expected) → ∀ s,
      (t.known s = (op.apply t).1.known s → ∀ c ∈ (op.apply t).2, c.range.1 ≠ s) ∧
      (t.known s ≠ (op.apply t).1.known s →
        ∃ c, ((op.apply t).2.filter fun c => c.range.1 = s) = [c] ∧
          c.old = t.bestForStart s ∧ c.new = (op.apply t).1.bestForStart s) := by
  intro t
  refine ⟨?_, fun op hz s => ⟨fun he c hc hs => ?_, fun hne => ?_⟩⟩
  · rw [← new_known hv ho now]
    show _ = (TableOp.after _ ops).known
    generalize (new host cfg kinds now).tables = t
    -- Induction on the run, each operation by its own changes.
    induction ops generalizing t with
    | nil => rfl
    | cons op ops ih =>
      show replay t.known ((op.apply t).2 ++ (applyAll (op.apply t).1 ops).2) = _
      rw [replay_append, TableOp.replay_apply]
      exact ih _
  · have hmem : c ∈ (op.apply t).2.filter fun c => c.range.1 = s :=
      List.mem_filter.2 ⟨hc, by simpa using hs⟩
    rw [changes_at hz] at hmem
    unfold Tables.changeAt at hmem
    dsimp only at hmem
    rw [if_neg fun h => Tables.changed_iff.1 h he] at hmem
    cases hmem
  · have hfilter := changes_at hz t s
    have hchange : ∃ c, (op.apply t).1.changeAt s (t.bestForStart s) = [c] := by
      unfold Tables.changeAt
      dsimp only
      rw [if_pos (Tables.changed_iff.2 hne)]
      exact ⟨_, rfl⟩
    obtain ⟨c, hc⟩ := hchange
    obtain ⟨-, hold, hnew⟩ := Tables.mem_changeAt (fun r hr => Tables.bestForStart_start hr)
      (hc ▸ List.mem_singleton_self c)
    exact ⟨c, hfilter.trans hc, hold, hnew⟩

theorem change_log_exact_small :
    replay Config.small.known (applyAll small.tables
      [.learn { range := (20, 25), extended := true, distance := 3 } (.port 0) ⟨10, 1⟩ 0,
        .age VALIDITY]).2 =
      (TableOp.after small.tables
        [.learn { range := (20, 25), extended := true, distance := 3 } (.port 0) ⟨10, 1⟩ 0,
          .age VALIDITY]).known :=
  (@change_log_exact .lowest _ _ rfl Config.small_opened 0 _).1

end Router

end AppleTalk
