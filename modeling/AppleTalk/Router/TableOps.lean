import AppleTalk.Lib.Run
import AppleTalk.Router.Table

/-!
# Operations on the tables

The six ways the router writes its tables, as one type. An operation's effect on the routes is a
function of the routes alone; recording the incumbents afterwards changes no route and no best
route.
-/

namespace AppleTalk

/-- One write to the tables. -/
inductive TableOp
  | learn (x : NetworkTuple) (target : Target) (next : Addr) (now : Instant)
  | age (now : Instant)
  | removeTarget (g : Target)
  | remove (g : Target) (start : UInt16)
  | setDistance (g : Target) (start : UInt16) (distance : UInt8) (now : Instant)
  | addZones (start : UInt16) (names : List Str) (expected : Option ℕ)

namespace Tables

/-! ### The best route -/

/-- What `pick` minimizes: the distance, and on a tie the incumbent comes first. -/
def rank (t : Tables) (r : Route) : ℕ :=
  2 * r.distance.toNat + if t.incumbent r then 0 else 1

theorem pick_eq_argmin (t : Tables) (f : Route → Bool) :
    t.pick f = (t.routes.filter fun r => r.state.usable && f r).argmin t.rank := by
  show _ = List.foldl (List.argAux fun b c => t.rank b < t.rank c) none _
  unfold pick
  congr 1
  funext best r
  cases best with
  | none => rfl
  | some b =>
    have h : (r.distance < b.distance ∨
        (r.distance = b.distance ∧ t.incumbent r ∧ !t.incumbent b)) ↔ t.rank r < t.rank b := by
      simp only [rank, UInt8.lt_iff_toNat_lt, ← UInt8.toNat_inj]
      cases t.incumbent r <;> cases t.incumbent b <;> simp <;> omega
    simp only [take, List.argAux, h]

theorem pick_eq_some {t : Tables} {f : Route → Bool} {r : Route} (h : t.pick f = some r) :
    r ∈ t.routes ∧ r.state.usable ∧ f r = true := by
  rw [pick_eq_argmin] at h
  have := List.argmin_mem h
  simpa using this

theorem pick_le {t : Tables} {f : Route → Bool} {r s : Route} (h : t.pick f = some r)
    (hs : s ∈ t.routes) (hu : s.state.usable) (hf : f s) : r.distance ≤ s.distance := by
  rw [pick_eq_argmin] at h
  have hle : t.rank r ≤ t.rank s :=
    List.le_of_mem_argmin (by simp [hs, hu, hf]) h
  rw [UInt8.le_iff_toNat_le]
  simp only [rank] at hle
  split_ifs at hle <;> omega

theorem pick_eq_none {t : Tables} {f : Route → Bool} :
    t.pick f = none ↔ ∀ r ∈ t.routes, r.state.usable → f r = false := by
  rw [pick_eq_argmin, List.argmin_eq_none, List.filter_eq_nil_iff]
  simp

theorem argmin_congr {α : Type} {f g : α → ℕ} {l : List α} [DecidableEq α]
    (h : ∀ a ∈ l, f a = g a) : l.argmin f = l.argmin g := by
  apply Option.ext
  intro m
  rw [← Option.mem_def, ← Option.mem_def, List.mem_argmin_iff, List.mem_argmin_iff]
  constructor
  · rintro ⟨hm, hle, hfst⟩
    exact ⟨hm, fun a ha => h m hm ▸ h a ha ▸ hle a ha, fun a ha hle => hfst a ha (by grind)⟩
  · rintro ⟨hm, hle, hfst⟩
    exact ⟨hm, fun a ha => (h m hm).symm ▸ (h a ha).symm ▸ hle a ha,
      fun a ha hle => hfst a ha (by grind)⟩

/-- The pick depends on the routes it chooses among and on which of them are incumbents. -/
theorem pick_congr {t u : Tables} {f : Route → Bool}
    (hr : u.routes.filter f = t.routes.filter f)
    (hb : ∀ r ∈ t.routes, f r → u.incumbent r = t.incumbent r) : u.pick f = t.pick f := by
  have hl : (u.routes.filter fun r => r.state.usable && f r) =
      t.routes.filter fun r => r.state.usable && f r := by
    have := congrArg (List.filter fun r : Route => r.state.usable) hr
    simpa [List.filter_filter] using this
  rw [pick_eq_argmin, pick_eq_argmin, hl]
  apply argmin_congr
  intro r hr
  simp only [List.mem_filter, Bool.and_eq_true] at hr
  simp only [rank, hb r hr.1 hr.2.2]

theorem bestForStart_start {t : Tables} {s : UInt16} {r : Route} (h : t.bestForStart s = some r) :
    r.range.1 = s := by
  simpa using (pick_eq_some h).2.2

/-- The best route of a range start depends on that start's routes and incumbent alone. -/
theorem bestForStart_congr {t u : Tables} {s : UInt16}
    (hr : (u.routes.filter fun r => r.range.1 = s) = t.routes.filter fun r => r.range.1 = s)
    (hb : u.bestKey s = t.bestKey s) : u.bestForStart s = t.bestForStart s := by
  refine pick_congr hr fun r _ hs => ?_
  obtain rfl : r.range.1 = s := by simpa using hs
  simp only [incumbent, hb]

/-! ### Recording the incumbents -/

@[simp] theorem record_routes (t : Tables) (s : UInt16) : (t.record s).routes = t.routes := by
  unfold record
  split_ifs <;> rfl

theorem record_bestKey_of_ne (t : Tables) {s s' : UInt16} (h : s' ≠ s) :
    (t.record s).bestKey s' = t.bestKey s' := by
  unfold record
  split_ifs <;> simp [h]

theorem record_zoneTable (t : Tables) (s s' : UInt16) :
    (t.record s).zoneTable s' =
      if s' = s ∧ ∀ r ∈ t.routes, r.range.1 ≠ s then none else t.zoneTable s' := by
  unfold record
  split_ifs with h1 h2 h2
  · obtain ⟨r, hr, hs⟩ := List.any_eq_true.1 h1
    exact absurd (by simpa using hs) (h2.2 r hr)
  · rfl
  · simp [h2.1]
  · refine Function.update_of_ne (fun h => h2 ⟨h, fun r hr => ?_⟩) _ _
    simpa using fun hs => h1 (List.any_eq_true.2 ⟨r, hr, by simpa using hs⟩)

/-- Making the best route the incumbent leaves it the best. -/
theorem bestForStart_record (t : Tables) (s s' : UInt16) :
    (t.record s).bestForStart s' = t.bestForStart s' := by
  by_cases hs : s' = s
  swap
  · exact bestForStart_congr (by simp) (record_bestKey_of_ne t hs)
  subst hs
  cases hb : t.bestForStart s' with
  | none =>
    refine pick_eq_none.2 fun r hr hu => ?_
    exact pick_eq_none.1 hb r (by simpa using hr) hu
  | some r =>
    have hex : (t.routes.any fun r => r.range.1 = s') = true :=
      List.any_eq_true.2 ⟨r, (pick_eq_some hb).1, by simp [bestForStart_start hb]⟩
    have hkey : ∀ q : Route, q.range.1 = s' → ((t.record s').incumbent q ↔ q.key = r.key) := by
      intro q hq
      simp only [incumbent, record, hex, hq, hb, if_true, Option.map_some,
        Function.update_self, Option.some.injEq, decide_eq_true_eq]
      exact eq_comm
    unfold bestForStart at hb ⊢
    rw [pick_eq_argmin] at hb ⊢
    rw [record_routes, ← Option.mem_def, List.mem_argmin_iff]
    obtain ⟨hm, hle, hfst⟩ := List.mem_argmin_iff.1 (Option.mem_def.2 hb)
    have hstart : ∀ q ∈ t.routes.filter fun r => r.state.usable && decide (r.range.1 = s'),
        q.range.1 = s' := fun q hq => by
      simp only [List.mem_filter, Bool.and_eq_true, decide_eq_true_eq] at hq
      exact hq.2.2
    have hinc : (t.record s').incumbent r := (hkey r (hstart r hm)).2 rfl
    -- A route marked as the incumbent now was one exactly if the best route was.
    have hsame : ∀ q ∈ t.routes.filter fun r => r.state.usable && decide (r.range.1 = s'),
        (t.record s').incumbent q → t.incumbent q = t.incumbent r := fun q hq h => by
      simp only [incumbent, hstart q hq, hstart r hm, (hkey q (hstart q hq)).1 h]
    refine ⟨hm, fun q hq => ?_, fun q hq hqr => hfst q hq ?_⟩
    · have hr := hle q hq
      by_cases hi : (t.record s').incumbent q
      · simp only [rank, if_pos hinc, if_pos hi, hsame q hq hi] at hr ⊢
        omega
      · simp only [rank, if_pos hinc, if_neg hi] at hr ⊢
        split_ifs at hr <;> omega
    · have hr := hle q hq
      by_cases hi : (t.record s').incumbent q
      · simp only [rank, if_pos hinc, if_pos hi, hsame q hq hi] at hqr hr ⊢
        omega
      · simp only [rank, if_pos hinc, if_neg hi] at hqr ⊢
        split_ifs <;> omega

/-! ### Settling -/

@[simp] theorem settle_routes (t : Tables) (ss : List UInt16) (olds : List (Option Route)) :
    (t.settle ss olds).1.routes = t.routes := by
  induction ss generalizing t olds with
  | nil => cases olds <;> rfl
  | cons s ss ih =>
    cases olds with
    | nil => rfl
    | cons old olds => simp [settle, ih]

theorem settle_bestForStart (t : Tables) (ss : List UInt16) (olds : List (Option Route))
    (s : UInt16) : (t.settle ss olds).1.bestForStart s = t.bestForStart s := by
  induction ss generalizing t olds with
  | nil => cases olds <;> rfl
  | cons s' ss ih =>
    cases olds with
    | nil => rfl
    | cons old olds => simp only [settle, ih, bestForStart_record]

/-- Settling drops the zone list of a touched range start that has no route left, and no
other. -/
theorem settle_zoneTable (t : Tables) {ss : List UInt16} {olds : List (Option Route)}
    (hl : ss.length = olds.length) (s : UInt16) :
    (t.settle ss olds).1.zoneTable s =
      if s ∈ ss ∧ ∀ r ∈ t.routes, r.range.1 ≠ s then none else t.zoneTable s := by
  induction ss generalizing t olds with
  | nil => cases olds <;> simp_all [settle]
  | cons s' ss ih =>
    cases olds with
    | nil => simp at hl
    | cons old olds =>
      simp only [settle, ih _ (by simpa using hl), record_routes, record_zoneTable]
      grind

/-- The changes a settling reports, one at most for each range start. -/
theorem settle_changes (t : Tables) {ss : List UInt16} (olds : UInt16 → Option Route) :
    (t.settle ss (ss.map olds)).2 = ss.flatMap fun s => t.changeAt s (olds s) := by
  induction ss generalizing t with
  | nil => rfl
  | cons s ss ih =>
    have hrec : ∀ s', (t.record s).changeAt s' (olds s') = t.changeAt s' (olds s') := fun s' => by
      simp only [changeAt, bestForStart_record]
    simp only [List.map_cons, settle, List.flatMap_cons, ih, hrec]

@[simp] theorem update_routes (t : Tables) (ss : List UInt16) (routes : List Route) :
    (t.update ss routes).1.routes = routes := by
  simp [update]

/-- An update keeps the zone list of every range start that still has a route. -/
theorem update_zoneTable {t : Tables} {ss : List UInt16} {routes : List Route} {s : UInt16}
    (h : ∃ r ∈ routes, r.range.1 = s) : (t.update ss routes).1.zoneTable s = t.zoneTable s := by
  obtain ⟨r, hr, hs⟩ := h
  rw [update, settle_zoneTable _ (by simp [snapshot]), if_neg]
  exact fun hn => hn.2 r hr hs

/-! ### What a tuple stores -/

theorem mem_modifyFirst {α : Type} {p : α → Bool} {f : α → α} {l : List α} {a : α}
    (h : a ∈ modifyFirst p f l) : a ∈ l ∨ ∃ b ∈ l, p b ∧ a = f b := by
  induction l with
  | nil => cases h
  | cons b l ih =>
    rw [modifyFirst] at h
    split_ifs at h with hp <;> rcases List.mem_cons.1 h with rfl | h
    · exact Or.inr ⟨b, by simp, hp, rfl⟩
    · exact Or.inl (by simp [h])
    · exact Or.inl (by simp)
    · rcases ih h with h | ⟨c, hc, hpc⟩
      · exact Or.inl (by simp [h])
      · exact Or.inr ⟨c, by simp [hc], hpc⟩

/-- A route after a tuple is one from before, or the tuple's own entry: replaced or new. -/
theorem mem_learnRoutes {rs : List Route} {x : NetworkTuple} {g : Target} {next : Addr}
    {now : Instant} {r : Route} (h : r ∈ learnRoutes rs x g next now) :
    r ∈ rs ∨ (∃ q ∈ rs, entryOf x g next q ∧ unreachable x = false ∧
        r = replaceEntry x now q) ∨
      (unreachable x = false ∧ bad x = false ∧
        r = { range := x.range, extended := x.extended, distance := x.distance + 1, target := g
              next := next, state := .good, seen := now }) := by
  unfold learnRoutes at h
  split_ifs at h with h1 h2 h3 h4
  · exact Or.inl (List.mem_of_mem_eraseP h)
  · rcases mem_modifyFirst h with h | ⟨q, hq, hp, rfl⟩
    · exact Or.inl h
    · exact Or.inr (Or.inl ⟨q, hq, hp, by simpa using h2, rfl⟩)
  · exact Or.inl h
  · simp [h4] at h3
  · rcases List.mem_append.1 h with h | h
    · exact Or.inl h
    · simp only [Bool.or_eq_true, not_or, Bool.not_eq_true] at h3
      exact Or.inr (Or.inr ⟨h3.1, h3.2, List.mem_singleton.1 h⟩)

end Tables

/-! ### The operations -/

theorem filter_modifyFirst {α : Type} {p q : α → Bool} {f : α → α}
    (h : ∀ a, p a → q a = false ∧ q (f a) = false) (l : List α) :
    (Tables.modifyFirst p f l).filter q = l.filter q := by
  induction l with
  | nil => rfl
  | cons a l ih =>
    rw [Tables.modifyFirst]
    split_ifs with hp
    · simp [h a hp]
    · rw [List.filter_cons, ih, List.filter_cons]

theorem filter_eraseP {α : Type} {p q : α → Bool} (h : ∀ a, p a → q a = false) (l : List α) :
    (l.eraseP p).filter q = l.filter q := by
  induction l with
  | nil => rfl
  | cons a l ih =>
    rw [List.eraseP_cons]
    cases hp : p a with
    | true => simp [h a hp]
    | false => simp [List.filter_cons, ih]

namespace TableOp

/-- Routes acted on one at a time: those a test picks out stay, and no other comes to meet it. -/
theorem filter_filterMap_eq {α : Type} {q : α → Bool} {f : α → Option α} {l : List α}
    (hq : ∀ a ∈ l, q a → f a = some a) (hr : ∀ a b, f a = some b → q b = q a) :
    (l.filterMap f).filter q = l.filter q := by
  induction l with
  | nil => rfl
  | cons a l ih =>
    have ih := ih fun b hb => hq b (by simp [hb])
    by_cases ha : q a
    · simp [hq a (by simp) ha, ha, ih]
    · cases hf : f a with
      | none => simp [hf, ha, ih]
      | some b => simp [hf, ha, hr a b hf, ih]

/-- What an operation does to the tables, and the changes it reports. -/
def apply (t : Tables) : TableOp → Tables × List RouteChange
  | .learn x g next now => t.learn x g next now
  | .age now => t.age now
  | .removeTarget g => t.removeTarget g
  | .remove g start => t.remove g start
  | .setDistance g start distance now => t.setDistance g start distance now
  | .addZones start names expected => t.addZones start names expected

/-- What an operation does to the routes. -/
def routes (rs : List Route) : TableOp → List Route
  | .learn x g next now =>
    if Tables.refuses rs x.range then rs else Tables.learnRoutes rs x g next now
  | .age now => rs.filterMap (Tables.ageRoute now)
  | .removeTarget g => rs.filter fun r => r.target ≠ g
  | .remove g start => rs.filter fun r => !(r.target = g ∧ r.range.1 = start)
  | .setDistance g start distance now => rs.map fun r =>
    if r.target = g ∧ r.range.1 = start then { r with distance := distance, seen := now } else r
  | .addZones .. => rs

theorem apply_routes (t : Tables) (op : TableOp) : (op.apply t).1.routes = op.routes t.routes := by
  cases op with
  | learn x g next now =>
    simp only [apply, Tables.learn, routes]
    split_ifs <;> simp
  | addZones start names expected =>
    simp only [apply, Tables.addZones, routes]
    split <;> rfl
  | _ => simp [apply, routes, Tables.age, Tables.removeTarget, Tables.remove, Tables.setDistance]

/-- What an operation does to one stored route, where it does not learn a tuple. -/
def onRoute (r : Route) : TableOp → Option Route
  | .age now => Tables.ageRoute now r
  | .removeTarget g => if r.target = g then none else some r
  | .remove g start => if r.target = g ∧ r.range.1 = start then none else some r
  | .setDistance g start distance now =>
    some (if r.target = g ∧ r.range.1 = start then { r with distance := distance, seen := now }
      else r)
  | .learn .. | .addZones .. => some r

/-- Every operation but a tuple's acts on the routes one at a time. -/
theorem routes_eq_filterMap {op : TableOp} (h : ∀ x g next now, op ≠ .learn x g next now)
    (rs : List Route) : op.routes rs = rs.filterMap fun r => op.onRoute r := by
  cases op with
  | learn x g next now => exact absurd rfl (h x g next now)
  | age now => rfl
  | removeTarget g =>
    simp only [routes, onRoute, ← List.filterMap_eq_filter]
    refine congrFun (congrArg _ (funext fun r => ?_)) rs
    by_cases hr : r.target = g <;> simp [Option.guard, hr]
  | remove g start =>
    simp only [routes, onRoute, ← List.filterMap_eq_filter]
    refine congrFun (congrArg _ (funext fun r => ?_)) rs
    by_cases hr : r.target = g ∧ r.range.1 = start <;> simp [Option.guard, hr]
  | setDistance g start distance now => exact (congrFun List.filterMap_eq_map rs).symm
  | addZones start names expected => simp [routes, onRoute]

/-- A stored route keeps its range, its target and its next router for as long as it stays. -/
theorem onRoute_same {op : TableOp} {r r' : Route} (h : op.onRoute r = some r') :
    r'.range = r.range ∧ r'.target = r.target ∧ r'.next = r.next := by
  cases op with
  | age now =>
    simp only [onRoute, Tables.ageRoute] at h
    split_ifs at h
    · simp only [Option.some.injEq] at h
      simp [← h]
    · simp only [Option.some.injEq] at h
      simp [← h]
    · obtain ⟨s, -, rfl⟩ := Option.map_eq_some_iff.1 h
      exact ⟨rfl, rfl, rfl⟩
  | setDistance g start distance now =>
    simp only [onRoute, Option.some.injEq] at h
    split_ifs at h <;> simp [← h]
  | learn | addZones => cases h; simp
  | removeTarget | remove =>
    simp only [onRoute] at h
    split_ifs at h
    cases h
    simp

/-- Zone names for other networks leave a network's zone list alone, and so does every other
operation that leaves it a route. -/
theorem apply_zoneTable {t : Tables} {op : TableOp} {s : UInt16}
    (hr : ∃ r ∈ op.routes t.routes, r.range.1 = s)
    (hz : ∀ names expected, op ≠ .addZones s names expected) :
    (op.apply t).1.zoneTable s = t.zoneTable s := by
  cases op with
  | learn x g next now =>
    simp only [apply, Tables.learn]
    simp only [routes] at hr
    split_ifs at hr ⊢
    · rfl
    · exact Tables.update_zoneTable hr
  | addZones start names expected =>
    have hs : s ≠ start := fun h => hz names expected (by rw [h])
    simp only [apply, Tables.addZones]
    split
    · rfl
    · exact Function.update_of_ne hs _ _
  | _ => exact Tables.update_zoneTable hr

/-- The tables after a list of operations. -/
def after (t : Tables) (ops : List TableOp) : Tables :=
  Machine.run (fun t op => (apply t op).1) t ops

/-- The tables and the changes of a list of operations. -/
def applyAll (t : Tables) (ops : List TableOp) : Tables × List RouteChange := t.each apply ops

theorem applyAll_fst (t : Tables) (ops : List TableOp) : (applyAll t ops).1 = after t ops := by
  induction ops generalizing t with
  | nil => rfl
  | cons op ops ih => exact ih _

theorem applyAll_append (t : Tables) (ops ops' : List TableOp) :
    applyAll t (ops ++ ops') =
      ((applyAll (applyAll t ops).1 ops').1,
        (applyAll t ops).2 ++ (applyAll (applyAll t ops).1 ops').2) := by
  induction ops generalizing t with
  | nil => rfl
  | cons op ops ih =>
    have := ih (op.apply t).1
    simp only [applyAll] at this
    simp only [applyAll, List.cons_append, Tables.each, this, List.append_assoc]

/-- The operations of a traversal whose step at `a` is the operations `g t a`. -/
def along {α : Type} (g : Tables → α → List TableOp) : Tables → List α → List TableOp
  | _, [] => []
  | t, a :: l => g t a ++ along g (after t (g t a)) l

theorem along_eq_flatMap {α : Type} (g : α → List TableOp) (t : Tables) (l : List α) :
    along (fun _ => g) t l = l.flatMap g := by
  induction l generalizing t with
  | nil => rfl
  | cons a l ih => rw [along, ih, List.flatMap_cons]

/-- What every step of a traversal gives its operations, from a state the operations before it
keep to, all of them have. -/
theorem forall_mem_along {α : Type} {g : Tables → α → List TableOp} {l : List α}
    {I : Tables → Prop} {P : TableOp → Prop}
    (hg : ∀ t, I t → ∀ a ∈ l, ∀ op ∈ g t a, P op)
    (hI : ∀ t op, I t → P op → I (op.apply t).1) {t : Tables} (ht : I t) :
    ∀ op ∈ along g t l, P op := by
  have hafter : ∀ (ops : List TableOp) (t : Tables), I t → (∀ op ∈ ops, P op) →
      I (after t ops) := by
    intro ops
    induction ops with
    | nil => exact fun t ht _ => ht
    | cons op ops ih =>
      exact fun t ht hops =>
        ih _ (hI t op ht (hops op (by simp))) fun op hop => hops op (by simp [hop])
  induction l generalizing t with
  | nil => simp [along]
  | cons a l ih =>
    intro op hop
    rcases List.mem_append.1 hop with hop | hop
    · exact hg t ht a (by simp) op hop
    · exact ih (fun t ht a ha => hg t ht a (by simp [ha]))
        (hafter _ t ht (hg t ht a (by simp))) op hop

/-- A traversal whose every step is a list of operations is the list of them all. -/
theorem each_eq_applyAll {α : Type} {f : Tables → α → Tables × List RouteChange}
    {g : Tables → α → List TableOp} {l : List α} (hf : ∀ t, ∀ a ∈ l, f t a = applyAll t (g t a))
    (t : Tables) : t.each f l = applyAll t (along g t l) := by
  induction l generalizing t with
  | nil => rfl
  | cons a l ih =>
    rw [along, ← applyAll_fst, applyAll_append, Tables.each,
      ih fun t a ha => hf t a (by simp [ha]), hf t a (by simp)]

/-- A traversal with one operation for each element. -/
theorem each_eq_map {α : Type} (g : α → TableOp) (t : Tables) (l : List α) :
    t.each (fun t a => (g a).apply t) l = applyAll t (l.map g) := by
  induction l generalizing t with
  | nil => rfl
  | cons a l ih => simp only [Tables.each, List.map_cons, applyAll, ih]

end TableOp

end AppleTalk
