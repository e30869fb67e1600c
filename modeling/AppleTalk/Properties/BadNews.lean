import AppleTalk.Properties.Bookkeeping

/-!
# Bad news and ageing

Which operations move a stored route back towards good, and what a route that is bad or worst comes
to when it is only ever mentioned at distance 31. Marking an entry bad writes its state and the time
it was seen, whatever they were, so a worst entry becomes bad again and a bad one starts over.
-/

namespace AppleTalk

/-- How far a state is from good. -/
def State.stage : State → ℕ
  | .good => 0
  | .suspect => 1
  | .bad => 2
  | .worst => 3

namespace Route

/-- What the tables hold one entry for: a range, a target and a next router. -/
def path (r : Route) : (UInt16 × UInt16) × Target × Addr := (r.range, r.target, r.next)

/-- What the validity timer reads and writes. -/
def age (r : Route) : State × Instant := (r.state, r.seen)

end Route

/-- The entries stored for a path. -/
def Tables.entries (t : Tables) (k : (UInt16 × UInt16) × Target × Addr) : List Route :=
  t.routes.filter fun r => r.path = k

namespace TableOp

variable {k : (UInt16 × UInt16) × Target × Addr}

/-- A tuple below distance 15 for a path. -/
def Confirms (k : (UInt16 × UInt16) × Target × Addr) : TableOp → Prop
  | .learn x g next _ => (x.range, g, next) = k ∧ x.distance < 15
  | _ => False

/-- When a notify-neighbour tuple for a path, not refused, marks its entry. -/
def marks (t : Tables) (k : (UInt16 × UInt16) × Target × Addr) : TableOp → Option Instant
  | .learn x g next now =>
    if (x.range, g, next) = k ∧ Tables.bad x ∧ !Tables.refuses t.routes x.range then some now
    else none
  | _ => none

/-- An operation mentions a path at distance 31 if at all. -/
def OnlyBadNews (k : (UInt16 × UInt16) × Target × Addr) : TableOp → Prop
  | .learn x g next _ => (x.range, g, next) = k → x.distance = 31
  | .setDistance g start _ _ => ¬(g = k.2.1 ∧ start = k.1.1)
  | _ => True

/-- A stored route after operations that learn no tuple for it. -/
def unmentioned (r : Route) (ops : List TableOp) : Option Route :=
  ops.foldl (fun o op => o.bind fun r => op.onRoute r) (some r)

end TableOp

namespace Tables

/-- An operation moves no stored entry towards good but with a tuple below distance 15 for it. -/
def NeverRejuvenates (t : Tables) (op : TableOp) : Prop :=
  ∀ r r', t.entries r.path = [r] → (op.apply t).1.entries r.path = [r'] →
    r'.state.stage < r.state.stage → op.Confirms r.path

/-- Throughout a run an entry has the age it would have if no tuple had mentioned it. -/
def GoesOnAgeing (t : Tables) (r : Route) (ops : List TableOp) : Prop :=
  ∀ past, past <+: ops → ((TableOp.after t past).entries r.path).map Route.age =
    (TableOp.unmentioned r past).toList.map Route.age

/-- A notify-neighbour tuple that is stored changes nothing that the validity timer reads. -/
def Spares (k : (UInt16 × UInt16) × Target × Addr) (t : Tables) (op : TableOp) : Prop :=
  ∀ r ∈ t.entries k, ∀ now ∈ op.marks t k, r.age = (.bad, now)

instance (k : (UInt16 × UInt16) × Target × Addr) (t : Tables) (op : TableOp) :
    Decidable (t.Spares k op) :=
  inferInstanceAs (Decidable (∀ r ∈ t.entries k, ∀ now ∈ op.marks t k, r.age = (.bad, now)))

end Tables

/-- In kept books every stored route is the one entry of its path. -/
theorem Tables.Kept.entries_eq {t : Tables} (h : t.Kept) {r : Route} (hr : r ∈ t.routes) :
    t.entries r.path = [r] := by
  have honce : (t.routes.map Route.path).Nodup := h.once
  unfold entries
  generalize t.routes = rs at hr honce
  induction rs with
  | nil => cases hr
  | cons q rs ih =>
    obtain ⟨hq, hrs⟩ := List.nodup_cons.1 honce
    rcases List.mem_cons.1 hr with rfl | hr
    · have hrest : rs.filter (fun s => s.path = r.path) = [] :=
        List.filter_eq_nil_iff.2 fun s hs he =>
          hq (of_decide_eq_true he ▸ List.mem_map_of_mem hs)
      rw [List.filter_cons_of_pos (by simp), hrest]
    · have hne : ¬q.path = r.path := fun he => hq (he ▸ List.mem_map_of_mem hr)
      rw [List.filter_cons_of_neg (by simpa using hne)]
      exact ih hr hrs

/-! ### One operation on one path -/

namespace TableOp

variable {k : (UInt16 × UInt16) × Target × Addr}

theorem onRoute_path {op : TableOp} {r r' : Route} (h : op.onRoute r = some r') :
    r'.path = r.path := by
  obtain ⟨hr, hg, hn⟩ := onRoute_same h
  rw [Route.path, Route.path, hr, hg, hn]

theorem entryOf_iff_path {x : NetworkTuple} {g : Target} {next : Addr} {r : Route} :
    Tables.entryOf x g next r ↔ r.path = (x.range, g, next) := by
  simp [Tables.entryOf, Route.path]

theorem path_eq_entryOf (x : NetworkTuple) (g : Target) (next : Addr) :
    (fun r : Route => decide (r.path = (x.range, g, next))) = Tables.entryOf x g next := by
  funext r
  rw [Bool.eq_iff_iff, decide_eq_true_eq, entryOf_iff_path]

/-- Operations that learn nothing act on the entries of a path one at a time. -/
theorem entries_of_onRoute {op : TableOp} (h : ∀ x g next now, op ≠ .learn x g next now)
    (t : Tables) :
    (op.apply t).1.entries k = (t.entries k).filterMap fun r => op.onRoute r := by
  simp only [Tables.entries, apply_routes, routes_eq_filterMap h]
  induction t.routes with
  | nil => rfl
  | cons r rs ih =>
    cases ho : op.onRoute r with
    | none =>
      by_cases hk : r.path = k <;> simp [ho, hk, ih]
    | some r' =>
      have hp := onRoute_path ho
      by_cases hk : r.path = k
      · simp [ho, hp, hk, ih]
      · simp [ho, hp, hk, ih]

/-- A tuple for another path, or one that is refused, leaves the entries of a path alone. -/
theorem entries_learn_other {x : NetworkTuple} {g : Target} {next : Addr} {now : Instant}
    {t : Tables} (h : (x.range, g, next) = k → Tables.refuses t.routes x.range) :
    ((TableOp.learn x g next now).apply t).1.entries k = t.entries k := by
  simp only [Tables.entries, apply_routes, routes]
  split_ifs with href
  · rfl
  · have hk : (x.range, g, next) ≠ k := fun hk => href (h hk)
    have hother : ∀ r, Tables.entryOf x g next r → decide (r.path = k) = false := fun r hr => by
      rw [entryOf_iff_path.1 hr]
      exact decide_eq_false hk
    have hreplaced : ∀ r, Tables.entryOf x g next r →
        decide ((Tables.replaceEntry x now r).path = k) = false := fun r hr => hother r hr
    have hnew : ∀ r : Route, r.path = (x.range, g, next) →
        (t.routes ++ [r]).filter (fun r => decide (r.path = k)) =
          t.routes.filter fun r => decide (r.path = k) := fun r hr => by
      simp [List.filter_append, hr, hk]
    unfold Tables.learnRoutes
    split_ifs
    · exact filter_eraseP hother _
    · exact filter_modifyFirst (fun r hr => ⟨hother r hr, hreplaced r hr⟩) _
    · rfl
    · exact hnew _ rfl
    · exact hnew _ rfl

/-- A tuple changes the first entry of its path. -/
theorem filter_modifyFirst_self {α : Type} {p : α → Bool} {f : α → α} (hf : ∀ a, p a → p (f a))
    (l : List α) : (Tables.modifyFirst p f l).filter p = Tables.modifyFirst p f (l.filter p) := by
  induction l with
  | nil => rfl
  | cons a l ih =>
    rw [Tables.modifyFirst]
    split_ifs with ha
    · rw [List.filter_cons_of_pos (hf a ha), List.filter_cons_of_pos ha, Tables.modifyFirst,
        if_pos ha]
    · rw [List.filter_cons_of_neg ha, List.filter_cons_of_neg ha, ih]

/-- A notify-neighbour tuple marks the entry of its path, if there is one. -/
theorem entries_marks {op : TableOp} {t : Tables} {now : Instant} (h : op.marks t k = some now)
    {r : Route} (hr : t.entries k = [r]) :
    ∃ ext, (op.apply t).1.entries k =
      [{ r with extended := ext, state := .bad, seen := now }] := by
  cases op with
  | learn x g next now' =>
    simp only [marks] at h
    split_ifs at h with hm
    obtain ⟨rfl, hbad, href⟩ := hm
    obtain rfl := Option.some.inj h
    simp only [Tables.entries, path_eq_entryOf] at hr
    have hmem : r ∈ t.routes.filter (Tables.entryOf x g next) := by simp [hr]
    obtain ⟨hmem, hentry⟩ := List.mem_filter.1 hmem
    have hany : t.routes.any (Tables.entryOf x g next) = true :=
      List.any_eq_true.2 ⟨r, hmem, hentry⟩
    have hreach : Tables.unreachable x = false := by simp [Tables.unreachable, hbad]
    have hkeep : ∀ q, Tables.entryOf x g next q →
        Tables.entryOf x g next (Tables.replaceEntry x now' q) := fun q hq => hq
    refine ⟨x.extended, ?_⟩
    simp only [Tables.entries, apply_routes, routes, path_eq_entryOf]
    rw [if_neg (by simpa using href), Tables.learnRoutes, if_pos hany, hreach,
      if_neg Bool.false_ne_true, filter_modifyFirst_self hkeep, hr, Tables.modifyFirst,
      if_pos hentry]
    simp [Tables.replaceEntry, hbad]
  | _ => cases h

theorem filter_eraseP_self {α : Type} (p : α → Bool) (l : List α) :
    (l.eraseP p).filter p = (l.filter p).tail := by
  induction l with
  | nil => rfl
  | cons a l ih =>
    cases ha : p a with
    | true => rw [List.eraseP_cons_of_pos ha, List.filter_cons_of_pos ha, List.tail_cons]
    | false =>
      have ha' : ¬p a = true := by simp [ha]
      rw [List.eraseP_cons_of_neg ha', List.filter_cons_of_neg ha', List.filter_cons_of_neg ha', ih]

/-- An unreachable tuple deletes the entry of its path or is refused. -/
theorem entries_unreachable {x : NetworkTuple} {g : Target} {next : Addr} {now : Instant}
    {t : Tables} {r : Route} (hx : Tables.unreachable x) (hr : t.entries (x.range, g, next) = [r]) :
    ((TableOp.learn x g next now).apply t).1.entries (x.range, g, next) = [] ∨
      ((TableOp.learn x g next now).apply t).1.entries (x.range, g, next) = [r] := by
  by_cases href : Tables.refuses t.routes x.range
  · exact Or.inr ((entries_learn_other fun _ => href).trans hr)
  refine Or.inl ?_
  simp only [Tables.entries, path_eq_entryOf] at hr
  have hmem : r ∈ t.routes.filter (Tables.entryOf x g next) := by simp [hr]
  have hany : t.routes.any (Tables.entryOf x g next) = true :=
    List.any_eq_true.2 ⟨r, (List.mem_filter.1 hmem).1, (List.mem_filter.1 hmem).2⟩
  simp only [Tables.entries, apply_routes, routes, path_eq_entryOf]
  rw [if_neg href, Tables.learnRoutes, if_pos hany, if_pos hx, filter_eraseP_self, hr,
    List.tail_cons]

/-- An operation that mentions a path at distance 31 if at all, and does not mark its entry, leaves
its entries to the ageing and the removals. -/
theorem entries_of_marks_none {op : TableOp} {t : Tables} (h : op.OnlyBadNews k)
    (hm : op.marks t k = none) :
    (op.apply t).1.entries k = (t.entries k).filterMap fun r => op.onRoute r := by
  cases op with
  | learn x g next now =>
    rw [entries_learn_other fun hk => ?_, show (fun r => (TableOp.learn x g next now).onRoute r) =
      some from rfl, List.filterMap_some]
    have hbad : Tables.bad x := by simp [Tables.bad, h hk]
    simpa [marks, hk, hbad] using hm
  | _ => exact entries_of_onRoute (by simp) t

/-- Bad news for a path that has no entry gives it none. -/
theorem entries_of_nil {op : TableOp} {t : Tables} (h : op.OnlyBadNews k)
    (hn : t.entries k = []) : (op.apply t).1.entries k = [] := by
  cases hm : op.marks t k with
  | none => rw [entries_of_marks_none h hm, hn, List.filterMap_nil]
  | some now =>
    cases op with
    | learn x g next now' =>
      simp only [marks] at hm
      split_ifs at hm with hx
      obtain ⟨hk, hbad, href⟩ := hx
      have hany : t.routes.any (Tables.entryOf x g next) = false := by
        refine List.any_eq_false.2 fun r hr he => ?_
        have hmem : r ∈ t.entries k :=
          List.mem_filter.2 ⟨hr, by simpa [hk] using entryOf_iff_path.1 he⟩
        simp [hn] at hmem
      simp only [Tables.entries, apply_routes, routes]
      rw [if_neg (by simpa using href), Tables.learnRoutes, if_neg (by simp [hany]),
        if_pos (by simp [hbad])]
      exact hn
    | _ => cases hm

end TableOp

/-! ### A run on one path -/

namespace Tables

variable {k : (UInt16 × UInt16) × Target × Addr}

/-- The ageing and the removals do not ask whether the range is an extended one. -/
theorem onRoute_extended (op : TableOp) (r : Route) (ext : Bool) :
    op.onRoute { r with extended := ext } =
      (op.onRoute r).map fun q => { q with extended := ext } := by
  cases op with
  | age now =>
    show ageRoute now _ = (ageRoute now r).map _
    have hd : ({ r with extended := ext } : Route).direct = r.direct := rfl
    unfold ageRoute
    rw [hd]
    split_ifs
    · rfl
    · rfl
    · cases r.state.aged <;> rfl
  | learn | addZones => rfl
  | removeTarget | remove =>
    simp only [TableOp.onRoute]
    split_ifs <;> rfl
  | setDistance =>
    simp only [TableOp.onRoute]
    split_ifs <;> rfl

/-- What is bad or worst stays so unless a tuple speaks of it. -/
theorem unusable_onRoute {r r' : Route} {op : TableOp} (h : op.onRoute r = some r')
    (hu : ¬r.state.usable) : ¬r'.state.usable := by
  cases op with
  | age now =>
    simp only [TableOp.onRoute, ageRoute] at h
    split_ifs at h
    · cases h
      exact hu
    · cases h
      exact hu
    · obtain ⟨s, hs, rfl⟩ := Option.map_eq_some_iff.1 h
      cases hr : r.state <;> rw [hr] at hs hu <;> cases hs
      · exact absurd rfl hu
      · exact absurd rfl hu
      · exact Bool.false_ne_true
  | learn | addZones =>
    cases h
    exact hu
  | removeTarget | remove =>
    simp only [TableOp.onRoute] at h
    split_ifs at h
    cases h
    exact hu
  | setDistance =>
    simp only [TableOp.onRoute] at h
    split_ifs at h <;> cases h <;> exact hu

end Tables

namespace TableOp

theorem unmentioned_cons (r : Route) (op : TableOp) (ops : List TableOp) :
    unmentioned r (op :: ops) = (op.onRoute r).bind fun r' => unmentioned r' ops := by
  have hnone : ∀ ops : List TableOp,
      ops.foldl (fun o op => o.bind fun r => op.onRoute r) (none : Option Route) = none := by
    intro ops
    induction ops with
    | nil => rfl
    | cons op ops ih => exact ih
  rw [unmentioned, List.foldl_cons, Option.bind_some]
  cases op.onRoute r with
  | none => exact hnone ops
  | some r' => rfl

end TableOp

namespace Tables

variable {k : (UInt16 × UInt16) × Target × Addr} {t : Tables} {ops : List TableOp}

/-- A path without an entry has none after any amount of bad news. -/
theorem entries_after_nil (hn : t.entries k = []) (hops : ∀ op ∈ ops, op.OnlyBadNews k) :
    (TableOp.after t ops).entries k = [] ∧
      Machine.Guarded (fun t op => (TableOp.apply t op).1) (Spares k) t ops := by
  induction ops generalizing t with
  | nil => exact ⟨hn, trivial⟩
  | cons op ops ih =>
    obtain ⟨hop, hops⟩ := List.forall_mem_cons.1 hops
    obtain ⟨hn', hg⟩ := ih (TableOp.entries_of_nil hop hn) hops
    exact ⟨hn', fun r hr => by simp [hn] at hr, hg⟩

/-- **Throughout a run of bad news** an entry goes on ageing exactly as long as no tuple that is
stored changes its state or the time it was seen. -/
theorem goesOn_iff {r : Route} {ext : Bool} (hr : t.entries k = [{ r with extended := ext }])
    (hu : ¬r.state.usable) (hops : ∀ op ∈ ops, op.OnlyBadNews k) :
    (∀ past, past <+: ops → ((TableOp.after t past).entries k).map Route.age =
        (TableOp.unmentioned r past).toList.map Route.age) ↔
      Machine.Guarded (fun t op => (TableOp.apply t op).1) (Spares k) t ops := by
  induction ops generalizing t r ext with
  | nil =>
    refine ⟨fun _ => trivial, fun _ past hp => ?_⟩
    obtain rfl := List.prefix_nil.1 hp
    show (t.entries k).map Route.age = _
    rw [hr]
    rfl
  | cons op ops ih =>
    obtain ⟨hop, hops⟩ := List.forall_mem_cons.1 hops
    -- The state reached and the entry that nothing mentioned, one step on.
    have hstep : ∀ {P : Prop}, ((∀ past, past <+: ops →
          ((TableOp.after (op.apply t).1 past).entries k).map Route.age =
            (TableOp.unmentioned r (op :: past)).toList.map Route.age) ↔ P) →
        ((∀ past, past <+: op :: ops → ((TableOp.after t past).entries k).map Route.age =
          (TableOp.unmentioned r past).toList.map Route.age) ↔ P) := by
      intro P hP
      rw [← hP]
      refine ⟨fun h past hp => h (op :: past) (List.cons_prefix_cons.2 ⟨rfl, hp⟩),
        fun h past hp => ?_⟩
      rcases List.prefix_cons_iff.1 hp with rfl | ⟨rest, rfl, hrest⟩
      · show (t.entries k).map Route.age = _
        rw [hr]
        rfl
      · exact h rest hrest
    refine hstep ?_
    rw [Machine.guarded_cons]
    cases hm : op.marks t k with
    | none =>
      have hnext := TableOp.entries_of_marks_none hop hm
      have hspares : Spares k t op := fun q _ now hnow => by simp [hm] at hnow
      rw [hr, List.filterMap_cons, List.filterMap_nil, onRoute_extended] at hnext
      cases ho : op.onRoute r with
      | none =>
        rw [ho] at hnext
        refine iff_of_true (fun past hp => ?_) ⟨hspares, (entries_after_nil hnext hops).2⟩
        have hpast : ∀ op ∈ past, op.OnlyBadNews k := fun op hop => hops op (hp.subset hop)
        rw [(entries_after_nil hnext hpast).1, TableOp.unmentioned_cons, ho]
        rfl
      | some r' =>
        rw [ho] at hnext
        rw [and_iff_right hspares, ← ih hnext (unusable_onRoute ho hu) hops]
        simp only [TableOp.unmentioned_cons, ho, Option.bind_some]
    | some now =>
      obtain ⟨ext', hnext⟩ := TableOp.entries_marks hm hr
      have ho : op.onRoute r = some r := by
        cases op with
        | learn => rfl
        | _ => cases hm
      have hspares : Spares k t op ↔ r.age = (.bad, now) := by
        simp [Spares, hr, hm, Route.age]
      rw [hspares]
      by_cases hage : r.age = (.bad, now)
      · have hnext' : (op.apply t).1.entries k = [{ r with extended := ext' }] := by
          obtain ⟨hstate, hseen⟩ : r.state = .bad ∧ r.seen = now := by simpa [Route.age] using hage
          rw [hnext, ← hstate, ← hseen]
        rw [and_iff_right hage, ← ih hnext' hu hops]
        simp only [TableOp.unmentioned_cons, ho, Option.bind_some]
      · refine iff_of_false (fun h => hage ?_) fun h => hage h.1
        have hhead := h [] List.nil_prefix
        have hself : TableOp.unmentioned r [op] = some r := by
          rw [TableOp.unmentioned_cons, ho]
          rfl
        rw [hself, show TableOp.after (op.apply t).1 [] = (op.apply t).1 from rfl, hnext] at hhead
        simpa [Route.age, eq_comm] using hhead

/-! ### Deletion -/

/-- When a validity timer expires. -/
def ticks (ops : List TableOp) : List Instant :=
  ops.filterMap fun
    | .age now => some now
    | _ => none

/-- Two expiries of the validity timer, the second a validity after the first, which is a validity
after the entry was seen. -/
def Overdue (r : Route) (ops : List TableOp) : Prop :=
  ∃ n₁ n₂, [n₁, n₂].Sublist (ticks ops) ∧ VALIDITY ≤ since n₁ r.seen ∧ VALIDITY ≤ since n₂ n₁

/-- What is mentioned at distance 31 if at all is aged, removed or left alone. -/
theorem onRoute_of_onlyBadNews {r : Route} {op : TableOp} (h : op.OnlyBadNews r.path)
    (ht : ticks [op] = []) : op.onRoute r = none ∨ op.onRoute r = some r := by
  cases op with
  | age now => cases ht
  | learn | addZones => exact Or.inr rfl
  | removeTarget | remove =>
    simp only [TableOp.onRoute]
    split_ifs <;> simp
  | setDistance g start distance now =>
    refine Or.inr ?_
    simp only [TableOp.onRoute]
    rw [if_neg fun hc => h ⟨hc.1.symm, hc.2.symm⟩]

/-- The worst is deleted by the first expiry a validity after it was seen. -/
theorem unmentioned_worst {r : Route} (hd : ¬r.direct) (hp : ¬r.target.isPeer)
    (hs : r.state = .worst) (hops : ∀ op ∈ ops, op.OnlyBadNews r.path) {n : Instant}
    (hn : n ∈ ticks ops) (hv : VALIDITY ≤ since n r.seen) :
    TableOp.unmentioned r ops = none := by
  induction ops with
  | nil => cases hn
  | cons op ops ih =>
    obtain ⟨hop, hrest⟩ := List.forall_mem_cons.1 hops
    rw [TableOp.unmentioned_cons]
    by_cases ht : ticks [op] = []
    · have hn' : n ∈ ticks ops := by
        rwa [show ticks (op :: ops) = ticks [op] ++ ticks ops from
          List.filterMap_append (l := [op]), ht] at hn
      rcases onRoute_of_onlyBadNews hop ht with ho | ho <;> rw [ho]
      · rfl
      · exact ih hrest hn'
    · cases op with
      | age now =>
        show (ageRoute now r).bind _ = none
        unfold ageRoute
        rw [if_neg (by simp [hd, hp])]
        split_ifs with hdue
        · -- Not due yet: this is not the expiry in question.
          refine ih hrest ?_
          rcases List.mem_cons.1 hn with rfl | hn
          · exact absurd hv (by omega)
          · exact hn
        · rw [hs]
          rfl
      | _ => exact absurd rfl ht

/-- What is bad is worst after the first expiry, and gone after the second. -/
theorem unmentioned_overdue {r : Route} (hd : ¬r.direct) (hp : ¬r.target.isPeer)
    (hu : ¬r.state.usable) (hops : ∀ op ∈ ops, op.OnlyBadNews r.path)
    (hsorted : (ticks ops).Pairwise (· ≤ ·)) (h : Overdue r ops) :
    TableOp.unmentioned r ops = none := by
  obtain ⟨n₁, n₂, hsub, hv₁, hv₂⟩ := h
  cases hs : r.state with
  | good | suspect =>
    rw [hs] at hu
    exact absurd rfl hu
  | worst => exact unmentioned_worst hd hp hs hops (hsub.subset (by simp)) hv₁
  | bad =>
    induction ops with
    | nil => cases hsub
    | cons op ops ih =>
      obtain ⟨hop, hrest⟩ := List.forall_mem_cons.1 hops
      rw [TableOp.unmentioned_cons]
      by_cases ht : ticks [op] = []
      · have hticks : ticks (op :: ops) = ticks ops := by
          rw [show ticks (op :: ops) = ticks [op] ++ ticks ops from
            List.filterMap_append (l := [op]), ht, List.nil_append]
        rw [hticks] at hsub hsorted
        rcases onRoute_of_onlyBadNews hop ht with ho | ho <;> rw [ho]
        · rfl
        · exact ih hrest hsorted hsub
      · cases op with
        | age now =>
          have hsub' : [n₁, n₂].Sublist (now :: ticks ops) := hsub
          obtain ⟨hle, hsorted'⟩ := List.pairwise_cons.1 (show (now :: ticks ops).Pairwise _ from
            hsorted)
          show (ageRoute now r).bind _ = none
          unfold ageRoute
          rw [if_neg (by simp [hd, hp])]
          split_ifs with hdue
          · -- Not due yet: neither expiry is this one.
            refine ih hrest hsorted' ?_
            rcases List.sublist_cons_iff.1 hsub' with hsub | ⟨rest, he, -⟩
            · exact hsub
            · obtain ⟨rfl, -⟩ := List.cons_eq_cons.1 he
              omega
          · rw [hs]
            -- Due, so it is the first of the two or comes before both.
            have hn₂ : n₂ ∈ ticks ops := by
              rcases List.sublist_cons_iff.1 hsub' with hsub | ⟨rest, he, hrest⟩
              · exact hsub.subset (by simp)
              · obtain ⟨-, rfl⟩ := List.cons_eq_cons.1 he
                exact hrest.subset (by simp)
            have hn₁ : now ≤ n₁ := by
              rcases List.sublist_cons_iff.1 hsub' with hsub | ⟨rest, he, -⟩
              · exact hle _ (hsub.subset (by simp))
              · exact (List.cons_eq_cons.1 he).1.ge
            refine unmentioned_worst (r := { r with seen := now, state := .worst }) hd hp rfl hrest
              hn₂ ?_
            exact hv₂.trans (Nat.sub_le_sub_left hn₁ n₂)
        | _ => exact absurd rfl ht

/-! ### One operation at a time -/

/-- Ageing moves a state away from good, and a removal moves it nowhere. -/
theorem stage_le_onRoute {r r' : Route} {op : TableOp} (h : op.onRoute r = some r') :
    r.state.stage ≤ r'.state.stage := by
  cases op with
  | age now =>
    simp only [TableOp.onRoute, ageRoute] at h
    split_ifs at h
    · cases h
      exact le_rfl
    · cases h
      exact le_rfl
    · obtain ⟨s, hs, rfl⟩ := Option.map_eq_some_iff.1 h
      cases hr : r.state <;> rw [hr] at hs <;> cases hs <;> exact Nat.le_succ _
  | learn | addZones =>
    cases h
    exact le_rfl
  | removeTarget | remove =>
    simp only [TableOp.onRoute] at h
    split_ifs at h
    cases h
    exact le_rfl
  | setDistance =>
    simp only [TableOp.onRoute] at h
    split_ifs at h <;> cases h <;> exact le_rfl

/-- **One operation** moves an entry towards good only with a tuple below distance 15 for it,
exactly as long as it marks no worst entry bad. -/
theorem neverRejuvenates_iff (t : Tables) (op : TableOp) :
    t.NeverRejuvenates op ↔
      ∀ r, t.entries r.path = [r] → (op.marks t r.path).isSome → r.state ≠ .worst := by
  constructor
  · intro h r hr hm hs
    obtain ⟨now, hm⟩ := Option.isSome_iff_exists.1 hm
    obtain ⟨ext, hnext⟩ := TableOp.entries_marks hm hr
    have hc := h r _ hr hnext (by simp [hs, State.stage])
    cases op with
    | learn x g next now' =>
      simp only [TableOp.marks] at hm
      split_ifs at hm with hx
      have hbad : x.distance = 31 := by simpa [bad] using hx.2.1
      rw [TableOp.Confirms, hbad] at hc
      exact absurd hc.2 (by decide)
    | _ => cases hm
  · intro h r r' hr hr' hlt
    have hstage : ∀ op : TableOp, ([r].filterMap fun r => op.onRoute r) = [r'] →
        r.state.stage ≤ r'.state.stage := fun op he => by
      obtain ⟨q, hq, ho⟩ := List.mem_filterMap.1 (he ▸ List.mem_singleton_self r')
      obtain rfl := List.mem_singleton.1 hq
      exact stage_le_onRoute ho
    by_cases hop : op.OnlyBadNews r.path
    · refine absurd hlt (not_lt.2 ?_)
      cases hm : op.marks t r.path with
      | none =>
        rw [TableOp.entries_of_marks_none hop hm, hr] at hr'
        exact hstage op hr'
      | some now =>
        obtain ⟨ext, hnext⟩ := TableOp.entries_marks hm hr
        rw [hnext] at hr'
        obtain rfl := (List.cons_eq_cons.1 hr').1
        have hworst := h r hr (by simp [hm])
        cases hs : r.state <;> simp_all [State.stage]
    · cases op with
      | learn x g next now =>
        obtain ⟨hk, hd⟩ : (x.range, g, next) = r.path ∧ x.distance ≠ 31 := by
          simpa [TableOp.OnlyBadNews] using hop
        refine ⟨hk, UInt8.not_le.1 fun hle => ?_⟩
        have hx : unreachable x := by simp [unreachable, bad, hle, hd]
        rw [← hk] at hr hr'
        rcases @TableOp.entries_unreachable x g next now t r hx hr with hn | hn
        · simp [hn] at hr'
        · rw [hn] at hr'
          obtain rfl := (List.cons_eq_cons.1 hr').1
          exact lt_irrefl _ hlt
      | setDistance g start distance now =>
        rw [TableOp.entries_of_onRoute (by simp), hr] at hr'
        exact absurd hlt (not_lt.2 (hstage _ hr'))
      | _ => exact absurd trivial hop

/-- **Bad news and ageing.** One operation never moves an entry towards good without a tuple below
distance 15 for it, exactly as long as it marks no worst entry bad; an entry that is bad or worst
and only ever mentioned at distance 31 goes on ageing exactly as long as no mention changes its age,
and then two expiries of the validity timer delete it. -/
theorem bad_news_ages (t : Tables) :
    (∀ op, t.NeverRejuvenates op ↔
      ∀ r, t.entries r.path = [r] → (op.marks t r.path).isSome → r.state ≠ .worst) ∧
    ∀ r ops, t.entries r.path = [r] → ¬r.state.usable → (∀ op ∈ ops, op.OnlyBadNews r.path) →
      (t.GoesOnAgeing r ops ↔
        Machine.Guarded (fun t op => (TableOp.apply t op).1) (Spares r.path) t ops) ∧
      (t.GoesOnAgeing r ops → ¬r.direct → ¬r.target.isPeer → (ticks ops).Pairwise (· ≤ ·) →
        Overdue r ops → (TableOp.after t ops).entries r.path = []) := by
  refine ⟨t.neverRejuvenates_iff, fun r ops hr hu hops => ⟨goesOn_iff hr hu hops, ?_⟩⟩
  intro h hd hp hsorted hover
  have hgone := h ops List.prefix_rfl
  rw [unmentioned_overdue hd hp hu hops hsorted hover] at hgone
  exact List.map_eq_nil_iff.1 hgone

/-- A route to network 5 through a router on port 0, last seen at the start. -/
def fading (s : State) : Route :=
  { range := (5, 5), extended := false, distance := 1, target := .port 0
    next := { net := 6800, node := 1 }, state := s, seen := 0 }

/-- The router behind that route mentions network 5 at distance 31. -/
def mention (now : Instant) : TableOp :=
  .learn { range := (5, 5), extended := false, distance := 31 } (.port 0)
    { net := 6800, node := 1 } now

theorem bad_news_ages_bad :
    (TableOp.after { new with routes := [fading .bad] }
      [mention 0, .age (fromSecs 20), .age (fromSecs 40)]).entries (fading .bad).path = [] := by
  have hops : ∀ op ∈ [mention 0, .age (fromSecs 20), .age (fromSecs 40)],
      op.OnlyBadNews (fading .bad).path := by
    simp [mention, TableOp.OnlyBadNews]
  obtain ⟨hiff, hgone⟩ := (bad_news_ages { new with routes := [fading .bad] }).2 (fading .bad) _
    (by decide) (by decide) hops
  refine hgone (hiff.2 (by decide)) (by decide) (by decide) (by decide) ?_
  exact ⟨fromSecs 20, fromSecs 40, by decide, by decide, by decide⟩

/-- Network 5 is learned at distance 0 and three validities pass. -/
def faded : Tables :=
  TableOp.after new [.learn { range := (5, 5), extended := false, distance := 0 } (.port 0)
    { net := 6800, node := 1 } 0, .age (fromSecs 20), .age (fromSecs 40), .age (fromSecs 60)]

/-- The worst entry becomes bad again at the next mention, which is not how it ages. -/
theorem bad_news_rejuvenates :
    ¬faded.NeverRejuvenates (mention (fromSecs 70)) ∧
      ∃ r, faded.entries r.path = [r] ∧ ¬r.state.usable ∧
        (mention (fromSecs 70)).OnlyBadNews r.path ∧
        ¬faded.GoesOnAgeing r [mention (fromSecs 70)] := by
  have hr : faded.entries (fading .worst).path = [{ fading .worst with seen := fromSecs 60 }] := by
    decide
  have hnext : ((mention (fromSecs 70)).apply faded).1.entries (fading .worst).path =
      [{ fading .bad with seen := fromSecs 70 }] := by decide
  constructor
  · intro h
    have hc := h { fading .worst with seen := fromSecs 60 } _ hr hnext (by decide)
    exact absurd hc.2 (by decide)
  · refine ⟨{ fading .worst with seen := fromSecs 60 }, hr, by decide, fun _ => rfl, fun h => ?_⟩
    have hage := h [mention (fromSecs 70)] List.prefix_rfl
    rw [show TableOp.after faded [mention (fromSecs 70)] =
      ((mention (fromSecs 70)).apply faded).1 from rfl] at hage
    exact absurd ((congrArg (List.map Route.age) hnext).symm.trans hage) (by decide)

end Tables

end AppleTalk
