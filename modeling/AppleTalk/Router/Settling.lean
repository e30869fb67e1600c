import AppleTalk.Router.TableOps
import Mathlib.Data.List.Nodup

/-!
# What an operation settles

Every operation but a list of zones replaces the routes and settles the range starts it touches.
The routes of the other range starts stay, and with them their best routes. A settled range start
has its best route for an incumbent, and the changes are those of the settled range starts.
-/

namespace AppleTalk

namespace Tables

/-! ### Range starts -/

theorem mem_startsWhere {t : Tables} {f : Route → Bool} {s : UInt16} :
    s ∈ t.startsWhere f ↔ ∃ r ∈ t.routes, f r ∧ r.range.1 = s := by
  simp [startsWhere, List.mem_eraseDups, and_assoc]

theorem mem_starts {t : Tables} {s : UInt16} : s ∈ t.starts ↔ ∃ r ∈ t.routes, r.range.1 = s := by
  simp [starts, mem_startsWhere]

theorem nodup_eraseDups {α : Type} [DecidableEq α] (l : List α) : l.eraseDups.Nodup := by
  induction hn : l.length using Nat.strong_induction_on generalizing l with
  | h n ih =>
    cases l with
    | nil => simp
    | cons a l =>
      rw [List.eraseDups_cons, List.nodup_cons]
      refine ⟨by simp [List.mem_eraseDups], ih _ ?_ _ rfl⟩
      rw [← hn, List.length_cons]
      exact Nat.lt_succ_of_le (List.length_filter_le _ l)

theorem nodup_startsWhere (t : Tables) (f : Route → Bool) : (t.startsWhere f).Nodup :=
  nodup_eraseDups _

/-! ### The incumbents -/

/-- The incumbent of every range start is its best route. -/
def Recorded (t : Tables) : Prop := ∀ s, t.bestKey s = (t.bestForStart s).map Route.key

theorem bestForStart_eq_none {t : Tables} {s : UInt16} (h : ∀ r ∈ t.routes, r.range.1 ≠ s) :
    t.bestForStart s = none :=
  pick_eq_none.2 fun r hr _ => by simpa using h r hr

theorem record_bestKey (t : Tables) (s : UInt16) :
    (t.record s).bestKey s = (t.bestForStart s).map Route.key := by
  unfold record
  split_ifs with h
  · simp
  · rw [bestForStart_eq_none fun r hr hs => h (List.any_eq_true.2 ⟨r, hr, by simpa using hs⟩)]
    simp

theorem settle_bestKey (t : Tables) {ss : List UInt16} {olds : List (Option Route)}
    (hl : ss.length = olds.length) (s : UInt16) :
    (t.settle ss olds).1.bestKey s =
      if s ∈ ss then (t.bestForStart s).map Route.key else t.bestKey s := by
  induction ss generalizing t olds with
  | nil => cases olds <;> simp_all [settle]
  | cons s' ss ih =>
    cases olds with
    | nil => simp at hl
    | cons old olds =>
      simp only [settle, ih _ (by simpa using hl), bestForStart_record, List.mem_cons]
      by_cases hs : s = s'
      · subst hs
        simp [record_bestKey]
      · simp [hs, record_bestKey_of_ne t hs]

/-! ### Replacing the routes -/

section Update

variable (t : Tables) (ss : List UInt16) (rs : List Route) (s : UInt16)

theorem update_bestForStart :
    (t.update ss rs).1.bestForStart s = { t with routes := rs }.bestForStart s :=
  settle_bestForStart _ _ _ _

theorem update_bestKey : (t.update ss rs).1.bestKey s =
    if s ∈ ss then ((t.update ss rs).1.bestForStart s).map Route.key else t.bestKey s := by
  rw [update_bestForStart, update, settle_bestKey _ (by simp [snapshot])]

theorem update_changes :
    (t.update ss rs).2 = ss.flatMap fun s => (t.update ss rs).1.changeAt s (t.bestForStart s) := by
  rw [update, snapshot, settle_changes]
  refine List.flatMap_congr fun s _ => ?_
  simp only [changeAt, settle_bestForStart]

end Update

/-- A best route that stayed as it was makes no change. -/
theorem changeAt_same {t : Tables} {s : UInt16} {old : Option Route}
    (h : t.bestForStart s = old) : t.changeAt s old = [] := by
  subst h
  unfold changeAt changed
  cases t.bestForStart s <;> simp

/-- A change is filed under the range start it is about, with the best route it has now. -/
theorem mem_changeAt {t : Tables} {s : UInt16} {old : Option Route} {c : RouteChange}
    (hold : ∀ r ∈ old, r.range.1 = s) (hc : c ∈ t.changeAt s old) :
    c.range.1 = s ∧ c.old = old ∧ c.new = t.bestForStart s := by
  unfold changeAt at hc
  dsimp only at hc
  split_ifs at hc
  · obtain rfl := List.mem_singleton.1 hc
    refine ⟨?_, rfl, rfl⟩
    cases hb : t.bestForStart s with
    | some r => simpa using bestForStart_start hb
    | none =>
      cases ho : old with
      | some r => simpa using hold r ho
      | none => simp
  · cases hc

end Tables

namespace TableOp

/-! ### The range starts an operation touches -/

/-- The range starts an operation settles. -/
def touched (t : Tables) : TableOp → List UInt16
  | .learn x _ _ _ => if Tables.refuses t.routes x.range then [] else [x.range.1]
  | .age _ => t.starts
  | .removeTarget g => t.startsWhere fun r => r.target = g
  | .remove _ start => [start]
  | .setDistance _ start _ _ => [start]
  | .addZones .. => []

theorem nodup_touched (op : TableOp) (t : Tables) : (op.touched t).Nodup := by
  cases op with
  | learn x g next now =>
    simp only [touched]
    split_ifs <;> simp
  | age | removeTarget => exact t.nodup_startsWhere _
  | _ => simp [touched]

theorem apply_eq_update {op : TableOp}
    (h : ∀ start names expected, op ≠ .addZones start names expected) (t : Tables) :
    op.apply t = t.update (op.touched t) (op.routes t.routes) := by
  cases op with
  | learn x g next now =>
    simp only [apply, Tables.learn, touched, routes]
    split_ifs <;> rfl
  | addZones start names expected => exact absurd rfl (h start names expected)
  | _ => rfl

/-- A list of zones changes no route and no incumbent. -/
theorem apply_addZones (t : Tables) (start : UInt16) (names : List Str) (expected : Option ℕ) :
    (apply t (.addZones start names expected)).1.routes = t.routes ∧
      (apply t (.addZones start names expected)).1.bestKey = t.bestKey := by
  simp only [apply, Tables.addZones]
  split <;> exact ⟨rfl, rfl⟩

/-- The routes of the other range starts stay as they are. -/
theorem routes_untouched {op : TableOp} {t : Tables} {s : UInt16} (h : s ∉ op.touched t) :
    ((op.routes t.routes).filter fun r => r.range.1 = s) =
      t.routes.filter fun r => r.range.1 = s := by
  by_cases hl : ∃ x g next now, op = .learn x g next now
  · obtain ⟨x, g, next, now, rfl⟩ := hl
    simp only [touched, routes] at h ⊢
    split_ifs at h ⊢
    · rfl
    have hs : x.range.1 ≠ s := fun hs => h (by simp [hs])
    have hentry : ∀ q : Route, Tables.entryOf x g next q → decide (q.range.1 = s) = false :=
      fun q hq => by
        simp only [Tables.entryOf, decide_eq_true_eq] at hq
        simp [hq.1, hs]
    unfold Tables.learnRoutes
    split_ifs
    · exact filter_eraseP hentry _
    · refine filter_modifyFirst (fun q hq => ⟨hentry q hq, ?_⟩) _
      exact hentry q hq
    · rfl
    all_goals simp [List.filter_append, hs]
  · push Not at hl
    rw [routes_eq_filterMap hl]
    refine filter_filterMap_eq (fun r hr hs => ?_) fun r r' hrr' => by
      rw [(onRoute_same hrr').1]
    obtain rfl : r.range.1 = s := by simpa using hs
    cases op with
    | learn x g next now => rfl
    | age now => exact absurd (Tables.mem_starts.2 ⟨r, hr, rfl⟩) h
    | removeTarget g =>
      have hg : r.target ≠ g := fun hg =>
        h (Tables.mem_startsWhere.2 ⟨r, hr, by simpa using hg, rfl⟩)
      simp [onRoute, hg]
    | remove g start =>
      have hs : r.range.1 ≠ start := fun hs => h (by simp [touched, hs])
      simp [onRoute, hs]
    | setDistance g start d now =>
      have hs : r.range.1 ≠ start := fun hs => h (by simp [touched, hs])
      simp [onRoute, hs]
    | addZones => rfl

/-- **The other range starts** keep their best routes. -/
theorem bestForStart_untouched {op : TableOp} {t : Tables} {s : UInt16} (h : s ∉ op.touched t) :
    (op.apply t).1.bestForStart s = t.bestForStart s := by
  by_cases hz : ∃ start names expected, op = .addZones start names expected
  · obtain ⟨start, names, expected, rfl⟩ := hz
    obtain ⟨hr, hb⟩ := apply_addZones t start names expected
    exact Tables.bestForStart_congr (by rw [hr]) (congrFun hb s)
  · push Not at hz
    rw [apply_eq_update hz, Tables.update_bestForStart]
    exact Tables.bestForStart_congr (routes_untouched h) rfl

/-- **One operation** keeps the incumbents the best routes. -/
theorem recorded_apply {t : Tables} (h : t.Recorded) (op : TableOp) :
    (op.apply t).1.Recorded := by
  intro s
  by_cases hz : ∃ start names expected, op = .addZones start names expected
  · obtain ⟨start, names, expected, rfl⟩ := hz
    obtain ⟨-, hb⟩ := apply_addZones t start names expected
    rw [bestForStart_untouched (by simp [touched]), hb]
    exact h s
  · push Not at hz
    by_cases hs : s ∈ op.touched t
    · rw [apply_eq_update hz, Tables.update_bestKey, if_pos hs]
    · rw [bestForStart_untouched hs, apply_eq_update hz, Tables.update_bestKey, if_neg hs]
      exact h s

/-- The changes of an operation are those of the range starts it touches. -/
theorem apply_changes {op : TableOp}
    (h : ∀ start names expected, op ≠ .addZones start names expected) (t : Tables) :
    (op.apply t).2 =
      (op.touched t).flatMap fun s => (op.apply t).1.changeAt s (t.bestForStart s) := by
  rw [apply_eq_update h]
  exact Tables.update_changes t _ _

end TableOp

end AppleTalk
