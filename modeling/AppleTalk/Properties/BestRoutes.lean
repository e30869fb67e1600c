import AppleTalk.Properties.Bookkeeping
import AppleTalk.Properties.Ranges

/-!
# The best route

The best route to a network is a shortest one there is, found alike by network number and by range
start, and it is kept for as long as it can be: a range is only reached otherwise once its best
route has gone, or a shorter one has come.
-/

namespace AppleTalk

open TableOp

namespace TableOp

/-- A tuple's range starts at most where it ends. -/
def Forward : TableOp → Prop
  | .learn x _ _ _ => x.range.1 ≤ x.range.2
  | _ => True

theorem Forward.ranged {op : TableOp} (h : op.Forward) (t : Tables) : op.Ranged t := by
  cases op with
  | learn x g next now => exact Or.inl h
  | _ => trivial

end TableOp

namespace Tables

variable {t : Tables}

/-- What is picked depends on the routes that match. -/
theorem pick_congr_filter {f g : Route → Bool} (h : ∀ r ∈ t.routes, f r = g r) :
    t.pick f = t.pick g := by
  unfold pick
  rw [List.filter_congr fun r hr => by rw [h r hr]]

/-- The best route is looked up alike by a network of its range and by its range start. -/
theorem best_eq_bestForStart (h : Disciplined t.routes) {net : UInt16} {b : Route}
    (hb : t.best net = some b) : t.bestForStart b.range.1 = some b := by
  obtain ⟨hmem, -, hc⟩ := pick_eq_some hb
  rw [← hb]
  refine pick_congr_filter fun r hr => ?_
  have hb := h.1 b hmem
  have hr' := h.1 r hr
  simp only [Route.contains, decide_eq_true_eq] at hc ⊢
  rw [decide_eq_decide]
  rcases h.2 r hr b hmem with he | hlt | hlt
  · rw [he]
    exact ⟨fun _ => hc, fun _ => rfl⟩
  · grind
  · grind

end Tables

namespace TableOp

/-- What has become of the best route of a range start if another is the best one now: it has gone
or can no longer be used, or a shorter one is there. -/
def Displaced (t' : Tables) (s : UInt16) (b : Route) : Prop :=
  (∀ r ∈ t'.routes, r.range.1 = s → r.key = b.key → r.state.usable = false) ∨
    ∃ b' ∈ t'.routes, b'.range.1 = s ∧ b'.state.usable ∧
      ∀ r ∈ t'.routes, r.range.1 = s → r.key = b.key → r.state.usable → b'.distance < r.distance

/-- Among new routes the old best one is kept, unless it is displaced. -/
theorem kept_or_displaced {t : Tables} (hrec : t.Recorded) {s : UInt16} {b : Route}
    (hb : t.bestForStart s = some b) (rs : List Route) :
    (∃ b', { t with routes := rs }.bestForStart s = some b' ∧ b'.key = b.key) ∨
      Displaced { t with routes := rs } s b := by
  by_cases he : ∃ e ∈ rs, e.range.1 = s ∧ e.key = b.key ∧ e.state.usable
  · obtain ⟨e, hmem, hs, hk, hu⟩ := he
    cases hb' : ({ t with routes := rs } : Tables).bestForStart s with
    | none => exact absurd (Tables.pick_eq_none.1 hb' e hmem hu) (by simpa using hs)
    | some b' =>
      by_cases hk' : b'.key = b.key
      · exact Or.inl ⟨b', rfl, hk'⟩
      obtain ⟨hb'mem, hb'u, -⟩ := Tables.pick_eq_some hb'
      have hb's := Tables.bestForStart_start hb'
      refine Or.inr (Or.inr ⟨b', hb'mem, hb's, hb'u, fun r hr hrs hrk hru => ?_⟩)
      -- The old best route is the incumbent, so it loses to a shorter one only.
      have hkey : t.bestKey s = some b.key := by rw [hrec s, hb, Option.map_some]
      have hinc : ({ t with routes := rs } : Tables).incumbent r := by
        simp [Tables.incumbent, hrs, hkey, hrk]
      have hnot : ({ t with routes := rs } : Tables).incumbent b' = false := by
        simpa [Tables.incumbent, hb's, hkey] using Ne.symm hk'
      unfold Tables.bestForStart at hb'
      rw [Tables.pick_eq_argmin] at hb'
      have hle := List.le_of_mem_argmin (by simp [hr, hru, hrs]) hb' (a := r)
      rw [UInt8.lt_iff_toNat_lt]
      simp only [Tables.rank, hinc, hnot] at hle
      simp at hle
      omega
  · refine Or.inr (Or.inl fun r hr hs hk => ?_)
    by_contra hu
    exact he ⟨r, hr, hs, hk, by simpa using hu⟩

/-- **One operation** keeps the best route of a range, unless it is displaced. -/
theorem best_kept_or_displaced {t : Tables} (hrec : t.Recorded) (op : TableOp) {s : UInt16}
    {b : Route} (hb : t.bestForStart s = some b) :
    (∃ b', (op.apply t).1.bestForStart s = some b' ∧ b'.key = b.key) ∨
      Displaced (op.apply t).1 s b := by
  by_cases hz : ∃ start names expected, op = .addZones start names expected
  · obtain ⟨start, names, expected, rfl⟩ := hz
    exact Or.inl ⟨b, by rw [bestForStart_untouched (by simp [touched]), hb], rfl⟩
  · push Not at hz
    have h := kept_or_displaced hrec hb (op.routes t.routes)
    rw [apply_eq_update hz, Tables.update_bestForStart]
    refine h.imp_right fun h => ?_
    simpa only [Displaced, Tables.update_routes] using h

end TableOp

/-! ### Every run -/

namespace Router

variable {host : Host}

/-- **The best route is minimal and stable.** In every run of operations whose tuples' ranges end
no sooner than they start: a network has a best route exactly if a usable route covers it; the best
route is a usable one that covers it, of the least distance, and the best one of its range; and no
operation has a range reached by another target or next router unless the best route was
displaced. -/
theorem best_minimal_stable {cfg : Config} {kinds : List (String × Kind)}
    (hv : cfg.validate host = .ok ()) (ho : cfg.Opened kinds) (now : Instant)
    {ops : List TableOp} (hops : ∀ op ∈ ops, op.Forward) :
    let t := TableOp.after (new host cfg kinds now).tables ops
    (∀ net, t.best net = none ↔ ∀ r ∈ t.routes, r.state.usable → r.contains net = false) ∧
    (∀ net b, t.best net = some b →
      b ∈ t.routes ∧ b.state.usable ∧ b.contains net ∧
        (∀ r ∈ t.routes, r.state.usable → r.contains net → b.distance ≤ r.distance) ∧
        t.bestForStart b.range.1 = some b) ∧
    ∀ (op : TableOp) s b, t.bestForStart s = some b →
      (∃ b', (op.apply t).1.bestForStart s = some b' ∧ b'.key = b.key) ∨
        Displaced (op.apply t).1 s b := by
  intro t
  have hbuilt : Built host (new host cfg kinds now) := ⟨cfg, kinds, now, hv, ho, rfl⟩
  have hg : Machine.Guarded (fun t op => (TableOp.apply t op).1) (fun _ op => op.Forward)
      (new host cfg kinds now).tables ops := Machine.guarded_of_forall hops
  have hrun := hg.invariant (I := fun t => Disciplined t.routes ∧ t.Recorded)
    (fun t op h hop => ⟨h.1.step (hop.ranged t), recorded_apply h.2 op⟩)
    ⟨hbuilt.disciplined, (new_kept hv ho now).best⟩
  refine ⟨fun net => Tables.pick_eq_none, fun net b hb => ?_, fun op s b hb =>
    best_kept_or_displaced hrun.2 op hb⟩
  obtain ⟨hmem, hu, hc⟩ := Tables.pick_eq_some hb
  exact ⟨hmem, hu, hc, fun r hr hru hrc => Tables.pick_le hb hr hru hrc,
    Tables.best_eq_bestForStart hrun.1 hb⟩

/-- Two routers of the cable offer the same range at the same distance, and the first is kept. -/
theorem best_minimal_stable_small :
    let t := TableOp.after small.tables
      [.learn { range := (20, 25), extended := true, distance := 3 } (.port 0) ⟨10, 1⟩ 0,
        .learn { range := (20, 25), extended := true, distance := 3 } (.port 0) ⟨10, 2⟩ 0]
    ∀ net b, t.best net = some b →
      b ∈ t.routes ∧ b.state.usable ∧ b.contains net ∧
        (∀ r ∈ t.routes, r.state.usable → r.contains net → b.distance ≤ r.distance) ∧
        t.bestForStart b.range.1 = some b :=
  (@best_minimal_stable .lowest _ _ rfl Config.small_opened 0 _ (by
    have h : (20 : UInt16) ≤ 25 := by decide
    simp [TableOp.Forward, h])).2.1

end Router

end AppleTalk
