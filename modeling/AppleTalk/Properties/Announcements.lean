import AppleTalk.Properties.Addressed
import AppleTalk.Properties.Bookkeeping
import AppleTalk.Properties.Ranges

/-!
# What a beacon announces

The best route of a range is announced on every cable it does not lead to. A range whose entries
have all gone bad should be announced as gone on every cable that some entry does not lead to, but
the first entry learned is all that is asked.
-/

namespace AppleTalk

namespace Tables

variable {t : Tables} {port : PortId} {s : UInt16}

/-- What a beacon on the port says of one range start. -/
def announced (t : Tables) (port : PortId) (start : UInt16) : Option NetworkTuple :=
  match (t.bestForStart start).or (t.routes.find? fun r => r.range.1 = start) with
  | none => none
  | some r =>
    if r.target = .port port then none
    else if !r.state.usable then some { r.tuple with distance := 31 }
    else if 15 ≤ r.distance then none
    else some r.tuple

theorem tuplesFor_eq (t : Tables) (port : PortId) :
    t.tuplesFor port = t.starts.filterMap (t.announced port) := rfl

theorem announced_start {x : NetworkTuple} (h : t.announced port s = some x) : x.range.1 = s := by
  unfold announced at h
  split at h
  · cases h
  · rename_i r hr
    have hs : r.range.1 = s := by
      rcases Option.or_eq_some_iff.1 hr with hb | ⟨-, hf⟩
      · exact bestForStart_start hb
      · simpa using List.find?_some hf
    split_ifs at h
    · obtain rfl := Option.some.inj h
      exact hs
    · obtain rfl := Option.some.inj h
      exact hs

/-- A listing with at most one item for each key has that item under the key. -/
theorem filter_filterMap_key {α β : Type} [DecidableEq α] {f : α → Option β} {key : β → α}
    (hf : ∀ a b, f a = some b → key b = a) {l : List α} (hl : l.Nodup) (a : α) :
    ((l.filterMap f).filter fun b => key b = a) = if a ∈ l then (f a).toList else [] := by
  induction l with
  | nil => rfl
  | cons c l ih =>
    obtain ⟨hc, hl⟩ := List.nodup_cons.1 hl
    rw [List.filterMap_cons]
    by_cases hca : c = a
    · subst hca
      rw [if_pos List.mem_cons_self]
      have ih := ih hl
      rw [if_neg hc] at ih
      cases hfc : f c with
      | none => simpa using ih
      | some b => simp [hf c b hfc, ih]
    · have ih := ih hl
      cases hfc : f c with
      | none => simp [ih, Ne.symm hca]
      | some b => simp [hf c b hfc, hca, ih, Ne.symm hca]

/-- What a beacon says of one range start is what it has to say, and says it once. -/
theorem filter_tuplesFor (t : Tables) (port : PortId) (s : UInt16) :
    ((t.tuplesFor port).filter fun x => x.range.1 = s) = (t.announced port s).toList := by
  have hkey := @filter_filterMap_key UInt16 NetworkTuple _ (t.announced port) (fun x => x.range.1)
    (fun _ _ h => announced_start h) _ (t.nodup_startsWhere fun _ => true) s
  rw [tuplesFor_eq]
  refine hkey.trans ?_
  split_ifs with hs
  · rfl
  · have hnone : ∀ r ∈ t.routes, r.range.1 ≠ s := fun r hr hrs => hs (mem_starts.2 ⟨r, hr, hrs⟩)
    have hfind : (t.routes.find? fun r => r.range.1 = s) = none :=
      List.find?_eq_none.2 fun r hr => by simpa using hnone r hr
    simp [announced, bestForStart_eq_none hnone, hfind]

/-- What a beacon on the port should say of a range start: its best route, if it does not lead
there and is below distance 15; that it has gone, if none of its entries can be used and one of
them does not lead there; and otherwise nothing. -/
def AnnouncedRight (t : Tables) (port : PortId) (s : UInt16) : Prop :=
  let told := (t.tuplesFor port).filter fun x => x.range.1 = s
  (∀ b, t.bestForStart s = some b →
    told = if b.target ≠ .port port ∧ b.distance < 15 then [b.tuple] else []) ∧
  (t.bestForStart s = none →
    ((∃ r ∈ t.routes, r.range.1 = s ∧ r.target ≠ .port port) →
      ∃ r ∈ t.routes, r.range.1 = s ∧ told = [{ r.tuple with distance := 31 }]) ∧
    ((∀ r ∈ t.routes, r.range.1 = s → r.target = .port port) → told = []))

/-- What is announced of a best route. -/
theorem announced_best {b : Route} (hb : t.bestForStart s = some b) :
    (t.announced port s).toList =
      if b.target ≠ .port port ∧ b.distance < 15 then [b.tuple] else [] := by
  have hu : b.state.usable = true := (pick_eq_some hb).2.1
  unfold announced
  rw [hb, Option.some_or]
  dsimp only
  by_cases hp : b.target = .port port
  · simp [hp]
  · by_cases hd : b.distance < 15
    · have hd' : ¬15 ≤ b.distance := UInt8.not_le.2 hd
      simp [hp, hu, hd, hd']
    · have hd' : 15 ≤ b.distance := UInt8.not_lt.1 hd
      simp [hp, hu, hd, hd']

/-- What is announced of a range start without a route that can be used. -/
theorem announced_gone (hb : t.bestForStart s = none) :
    (t.announced port s).toList =
      match t.routes.find? fun r => r.range.1 = s with
      | none => []
      | some r => if r.target = .port port then [] else [{ r.tuple with distance := 31 }] := by
  unfold announced
  rw [hb, Option.none_or]
  cases hf : t.routes.find? fun r => r.range.1 = s with
  | none => rfl
  | some r =>
    have hu : r.state.usable = false := by
      by_contra hu
      have hs := List.find?_some hf
      have := pick_eq_none.1 hb r (List.mem_of_find?_eq_some hf) (by simpa using hu)
      rw [this] at hs
      cases hs
    dsimp only
    by_cases hp : r.target = .port port
    · simp [hp]
    · simp [hp, hu]

/-- **What a beacon announces** is right exactly if every range start whose entries have all gone
bad, and whose first entry leads to the port, has no entry that leads elsewhere. -/
theorem announced_right_iff (t : Tables) (port : PortId) :
    (∀ s, t.AnnouncedRight port s) ↔
      ∀ s r0, t.bestForStart s = none → (t.routes.find? fun r => r.range.1 = s) = some r0 →
        r0.target = .port port → ∀ r ∈ t.routes, r.range.1 = s → r.target = .port port := by
  constructor
  · intro h s r0 hb hf hp r hr hs
    by_contra hne
    obtain ⟨r', -, -, htold⟩ := ((h s).2 hb).1 ⟨r, hr, hs, hne⟩
    rw [filter_tuplesFor, announced_gone hb, hf] at htold
    simp [hp] at htold
  · intro h s
    refine ⟨fun b hb => ?_, fun hb => ⟨?_, fun hall => ?_⟩⟩
    · rw [filter_tuplesFor, announced_best hb]
    · rintro ⟨r, hr, hs, hne⟩
      rw [filter_tuplesFor, announced_gone hb]
      cases hf : t.routes.find? fun r => r.range.1 = s with
      | none => exact absurd hs (by simpa using List.find?_eq_none.1 hf r hr)
      | some r0 =>
        have hp : r0.target ≠ .port port := fun hp => hne (h s r0 hb hf hp r hr hs)
        refine ⟨r0, List.mem_of_find?_eq_some hf, by simpa using List.find?_some hf, ?_⟩
        dsimp only
        rw [if_neg hp]
    · rw [filter_tuplesFor, announced_gone hb]
      cases hf : t.routes.find? fun r => r.range.1 = s with
      | none => rfl
      | some r0 =>
        have hp := hall r0 (List.mem_of_find?_eq_some hf) (by simpa using List.find?_some hf)
        simp [hp]

end Tables

namespace Router

/-- A range heard of on both cables, and on neither again for two validity times. -/
def silence : List (Event × Instant) :=
  [(.input (.llap 0 (beacon 0 30 0 35)), fromSecs 5),
    (.input (.llap 1 (beacon 0 30 0 35)), fromSecs 5),
    (.input .tick, fromSecs 25), (.input .tick, fromSecs 45)]

/-- The cable the range was first heard on is not told that it has gone, though an entry leads to
the other one. -/
theorem gone_not_announced :
    ∃ r, Reachable Host.lowest r ∧ ¬∀ s, r.tables.AnnouncedRight 0 s := by
  refine ⟨pair.after .lowest silence, pair_reachable.after silence, fun h => ?_⟩
  have hb : (pair.after .lowest silence).tables.bestForStart 30 = none := by decide +kernel
  have hf : ((pair.after .lowest silence).tables.routes.find? fun r => r.range.1 = 30).map
      Route.target = some (.port 0) := by decide +kernel
  have hr : ((pair.after .lowest silence).tables.routes.filter fun r => r.range.1 = 30).map
      Route.target = [.port 0, .port 1] := by decide +kernel
  obtain ⟨r0, hf, hp⟩ := Option.map_eq_some_iff.1 hf
  obtain ⟨r, hmem, hp1⟩ := List.mem_map.1 (hr ▸ List.mem_cons_of_mem _ List.mem_cons_self :
    Target.port 1 ∈ _)
  obtain ⟨hmem, hs⟩ := List.mem_filter.1 hmem
  obtain ⟨r', -, -, htold⟩ := ((h 30).2 hb).1 ⟨r, hmem, by simpa using hs, by rw [hp1]; decide⟩
  rw [Tables.filter_tuplesFor, Tables.announced_gone hb, hf] at htold
  simp [hp] at htold

end Router

end AppleTalk
