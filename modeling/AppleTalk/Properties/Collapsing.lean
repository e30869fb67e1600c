import AppleTalk.Router.Pending

/-!
# Collapsing keeps the meaning

What a data receiver stores for the networks of a peer, range and distance, and how it follows the
update events. Of the events for one network a queue keeps one. Following what it keeps comes to the
same as following them all, but for a network that comes back, or changes its distance, under
another range: a change of distance leaves the stored range as it is.
-/

namespace AppleTalk

/-! ### What a receiver stores -/

/-- The range and the distance stored for a network. -/
abbrev Held := (UInt16 × UInt16) × UInt8

/-- What a data receiver stores for the networks of a peer, by range start. -/
abbrev Holding := UInt16 → Option Held

/-- What an event about a network makes of what is stored for it. -/
def heed (held : Option Held) (e : EventTuple) : Option Held :=
  if e.code = NA ∧ e.tuple.distance < 15 then
    match held with
    | none => some (e.tuple.range, e.tuple.distance + 1)
    -- A range that differs from the stored one overlaps it and is refused.
    | some h => some (h.1, if h.1 = e.tuple.range then e.tuple.distance + 1 else h.2)
  else if e.code = ND ∨ e.code = NRC then none
  else if e.code = NDC then
    if 15 ≤ e.tuple.distance then none
    else some ((held.map Prod.fst).getD e.tuple.range, e.tuple.distance + 1)
  else held

/-- Follow one event. -/
def Holding.follow (m : Holding) (e : EventTuple) : Holding :=
  Function.update m (Peer.startOf e) (heed (m (Peer.startOf e)) e)

/-- An event below distance 15 that fits what is stored for its network: an addition is of one that
is absent, and the others are about one that is present. -/
def EventTuple.Fits (held : Option Held) (e : EventTuple) : Prop :=
  e.Known ∧ e.tuple.distance < 15 ∧ (e.code = NA ↔ held = none)

instance (held : Option Held) (e : EventTuple) : Decidable (e.Fits held) :=
  inferInstanceAs (Decidable ((e.code = NA ∨ e.code = ND ∨ e.code = NRC ∨ e.code = NDC) ∧
    e.tuple.distance < 15 ∧ (e.code = NA ↔ held = none)))

/-- Every event fits what is stored when it comes. -/
def Holding.Consistent (m : Holding) (evs : List EventTuple) : Prop :=
  Machine.Guarded Holding.follow (fun m e => e.Fits (m (Peer.startOf e))) m evs

instance (m : Holding) (evs : List EventTuple) : Decidable (m.Consistent evs) :=
  inferInstanceAs (Decidable (Machine.Guarded _ _ _ _))

/-- The events about a network. -/
def eventsOf (evs : List EventTuple) (n : UInt16) : List EventTuple :=
  evs.filter fun e => Peer.startOf e = n

/-- The latest addition of a network. -/
def lastAdded (evs : List EventTuple) : Option EventTuple :=
  (evs.filter fun e => e.code = NA).getLast?

/-- A network added by the events and there after them comes back under the range it was stored
with, or, if it was not there, was last spoken of under the range it was last added with. -/
def SameRange (held : Option Held) (evs : List EventTuple) : Prop :=
  ∀ a ∈ lastAdded evs, ∀ z ∈ evs.getLast?, z.left ≠ none →
    (held.map Prod.fst).getD z.tuple.range = a.tuple.range

/-! ### One network at a time -/

theorem eventsOf_cons (e : EventTuple) (evs : List EventTuple) (n : UInt16) :
    eventsOf (e :: evs) n = if Peer.startOf e = n then e :: eventsOf evs n else eventsOf evs n := by
  unfold eventsOf
  split_ifs with h <;> simp [h]

namespace Holding

/-- The events about a network are all that matters to it. -/
theorem foldl_follow (evs : List EventTuple) (m : Holding) (n : UInt16) :
    evs.foldl follow m n = (eventsOf evs n).foldl heed (m n) := by
  induction evs generalizing m with
  | nil => rfl
  | cons e evs ih =>
    rw [List.foldl_cons, ih, eventsOf_cons]
    split_ifs with h
    · subst h
      rw [List.foldl_cons, follow, Function.update_self]
    · rw [follow, Function.update_of_ne (Ne.symm h)]

theorem Consistent.eventsOf {evs : List EventTuple} {m : Holding} (h : m.Consistent evs)
    (n : UInt16) :
    Machine.Guarded heed (fun held e => e.Fits held) (m n) (eventsOf evs n) := by
  induction evs generalizing m with
  | nil => trivial
  | cons e evs ih =>
    have hrest := ih h.2
    rw [eventsOf_cons]
    split_ifs with hn
    · subst hn
      refine ⟨h.1, ?_⟩
      rwa [follow, Function.update_self] at hrest
    · rwa [follow, Function.update_of_ne (Ne.symm hn)] at hrest

end Holding

/-! ### What waits for a network -/

theorem lastAdded_append (evs : List EventTuple) (e : EventTuple) :
    lastAdded (evs ++ [e]) = if e.code = NA then some e else lastAdded evs := by
  unfold lastAdded
  rw [List.filter_append]
  split_ifs with h <;> simp [h]

/-- What the events about a network leave waiting, and what is stored after them all, given what
was stored before. -/
inductive Waiting (evs : List EventTuple) : Option Held → Option EventTuple → Option Held → Prop
  | untouched (held : Option Held) (h : evs = []) : Waiting evs held none held
  | unheard {z : EventTuple} (hz : evs.getLast? = some z) (hl : z.left = none) :
    Waiting evs none none none
  | added {e z a : EventTuple} (hz : evs.getLast? = some z) (hl : z.left ≠ none)
    (ha : lastAdded evs = some a) (hk : e.code = NA) (ht : e.tuple = z.tuple)
    (hd : z.tuple.distance < 15) :
    Waiting evs none (some e) (some (a.tuple.range, z.tuple.distance + 1))
  | deleted {e z : EventTuple} (h : Held) (hz : evs.getLast? = some z) (hl : z.left = none)
    (hk : e.code = ND ∨ e.code = NRC) : Waiting evs (some h) (some e) none
  | moved {e z : EventTuple} (h : Held) (hz : evs.getLast? = some z) (hl : z.left ≠ none)
    (hk : e.code = NDC) (ht : e.tuple = z.tuple) (hd : z.tuple.distance < 15) :
    Waiting evs (some h) (some e)
      (some (((lastAdded evs).map fun a => a.tuple.range).getD h.1, z.tuple.distance + 1))

theorem heed_added {e : EventTuple} (hk : e.code = NA) (hd : e.tuple.distance < 15) :
    heed none e = some (e.tuple.range, e.tuple.distance + 1) := by
  unfold heed
  rw [if_pos ⟨hk, hd⟩]

theorem heed_deleted {e : EventTuple} (hk : e.code = ND ∨ e.code = NRC) (held : Option Held) :
    heed held e = none := by
  have hna : e.code ≠ NA := by rcases hk with hk | hk <;> rw [hk] <;> decide
  unfold heed
  rw [if_neg fun h => hna h.1, if_pos hk]

theorem heed_moved {e : EventTuple} (hk : e.code = NDC) (hd : e.tuple.distance < 15) (h : Held) :
    heed (some h) e = some (h.1, e.tuple.distance + 1) := by
  unfold heed
  rw [if_neg (by rw [hk]; exact fun hc => absurd hc.1 (by decide)), if_neg (by rw [hk]; decide),
    if_pos hk, if_neg (UInt8.not_le.2 hd)]
  rfl

/-- **One more event** about a network. -/
theorem Waiting.step {evs : List EventTuple} {held held' : Option Held} {slot : Option EventTuple}
    (hw : Waiting evs held slot held') {e : EventTuple} (he : e.Fits held') :
    Waiting (evs ++ [e]) held (Peer.put slot e) (heed held' e) := by
  obtain ⟨hknown, hd, hna⟩ := he
  have hlast : (evs ++ [e]).getLast? = some e := by simp
  have hadded : e.code = NA → e.left ≠ none := fun hk => by simp [EventTuple.left, hk]
  have hmoved : e.code = NDC → e.left ≠ none := fun hk => by simp [EventTuple.left, hk]
  have hgone : e.code = ND ∨ e.code = NRC → e.left = none := EventTuple.left_eq_none
  have hthere : held' ≠ none → (e.code = ND ∨ e.code = NRC) ∨ e.code = NDC := fun h => by
    have hne : e.code ≠ NA := fun hk => h (hna.1 hk)
    unfold EventTuple.Known at hknown
    tauto
  cases hw with
  | untouched _ hnil =>
    subst hnil
    cases held with
    | none =>
      have hk := hna.2 rfl
      rw [heed_added hk hd]
      exact .added hlast (hadded hk) (by simp [lastAdded, hk]) hk rfl hd
    | some h =>
      rcases hthere (by simp) with hk | hk
      · rw [heed_deleted hk]
        exact .deleted h hlast (hgone hk) hk
      · rw [heed_moved hk hd]
        have hnone : lastAdded [e] = none := by
          simp [lastAdded, show e.code ≠ NA by rw [hk]; decide]
        have := Waiting.moved h hlast (hmoved hk) hk rfl hd
        rwa [List.nil_append, hnone] at this
  | unheard hz hl =>
    have hk := hna.2 rfl
    rw [heed_added hk hd]
    exact .added hlast (hadded hk) (by rw [lastAdded_append, if_pos hk]) hk rfl hd
  | @added p z a hz hl ha hp ht hdz =>
    rcases hthere (by simp) with hk | hk
    · have hc : Peer.collapse p e = none := by
        unfold Peer.collapse
        rw [if_pos ⟨hp, hk⟩]
      rw [heed_deleted hk]
      show Waiting _ none (Peer.collapse p e) none
      rw [hc]
      exact .unheard hlast (hgone hk)
    · rw [heed_moved hk hd]
      show Waiting _ none (Peer.collapse p e) _
      rw [Peer.collapse_moved hp hk]
      have hne : e.code ≠ NA := by rw [hk]; decide
      exact .added hlast (hmoved hk) (by rw [lastAdded_append, if_neg hne, ha]) hp rfl hd
  | @deleted p z h hz hl hp =>
    have hk := hna.2 rfl
    have hc : Peer.collapse p e = some { code := NDC, tuple := e.tuple } := by
      have h1 : ¬(p.code = NA ∧ (e.code = ND ∨ e.code = NRC)) := fun hc => by
        rw [hk] at hc
        exact absurd hc.2 (by decide)
      have h2 : ¬(p.code = NA ∧ e.code = NDC) := fun hc => by
        rw [hk] at hc
        exact absurd hc.2 (by decide)
      unfold Peer.collapse
      rw [if_neg h1, if_neg h2, if_pos ⟨hp, hk⟩]
    rw [heed_added hk hd]
    show Waiting _ (some h) (Peer.collapse p e) _
    rw [hc]
    have := @Waiting.moved _ { code := NDC, tuple := e.tuple } _ h hlast (hadded hk) rfl rfl hd
    rwa [lastAdded_append, if_pos hk] at this
  | @moved p z h hz hl hp ht hdz =>
    have hne : p.code ≠ NA := by rw [hp]; decide
    have hdel : ¬(p.code = ND ∨ p.code = NRC) := by rw [hp]; decide
    have hc : Peer.collapse p e = some e := by
      unfold Peer.collapse
      rw [if_neg fun hc => hne hc.1, if_neg fun hc => hne hc.1, if_neg fun hc => hdel hc.1]
    show Waiting _ (some h) (Peer.collapse p e) _
    rw [hc]
    rcases hthere (by simp) with hk | hk
    · rw [heed_deleted hk]
      exact .deleted h hlast (hgone hk) hk
    · rw [heed_moved hk hd]
      have := Waiting.moved h hlast (hmoved hk) hk rfl hd
      rwa [lastAdded_append, if_neg (by rw [hk]; decide)] at this

/-- **All events** about a network. -/
theorem waiting {evs : List EventTuple} {held : Option Held}
    (h : Machine.Guarded heed (fun held e => e.Fits held) held evs) :
    Waiting evs held (evs.foldl Peer.put none) (evs.foldl heed held) := by
  induction evs using List.reverseRecOn with
  | nil => exact .untouched held rfl
  | append_singleton evs e ih =>
    obtain ⟨hevs, he, -⟩ := Machine.Guarded.append.1 h
    rw [List.foldl_append, List.foldl_append]
    exact (ih hevs).step he

/-- Following what waits comes to the same as following all just when the range is the same. -/
theorem Waiting.same_iff {evs : List EventTuple} {held held' : Option Held}
    {slot : Option EventTuple} (h : Waiting evs held slot held') :
    slot.toList.foldl heed held = held' ↔ SameRange held evs := by
  cases h with
  | untouched _ hnil =>
    subst hnil
    exact iff_of_true rfl fun a _ z hz => by cases hz
  | @unheard z hz hl =>
    refine iff_of_true rfl fun a _ z' hz' hne => absurd ?_ hne
    rw [hz] at hz'
    exact Option.some.inj hz' ▸ hl
  | @added e z a hz hl ha hk ht hd =>
    have he : heed none e = some (z.tuple.range, z.tuple.distance + 1) := by
      rw [heed_added hk (ht ▸ hd), ht]
    rw [Option.toList_some, List.foldl_cons, List.foldl_nil, he]
    simp [SameRange, hz, ha, hl]
  | @deleted e z h hz hl hk =>
    rw [Option.toList_some, List.foldl_cons, List.foldl_nil, heed_deleted hk]
    refine iff_of_true rfl fun a _ z' hz' hne => absurd ?_ hne
    rw [hz] at hz'
    exact Option.some.inj hz' ▸ hl
  | @moved e z h hz hl hk ht hd =>
    rw [Option.toList_some, List.foldl_cons, List.foldl_nil, heed_moved hk (ht ▸ hd), ht]
    cases ha : lastAdded evs with
    | none => simp [SameRange, ha]
    | some a => simp [SameRange, hz, ha, hl]

/-! ### The whole map -/

/-- What is kept of the events about a network is its slot. -/
theorem eventsOf_eq_slot {evs : List EventTuple} (hn : (evs.map Peer.startOf).Nodup) (n : UInt16) :
    eventsOf evs n = (Peer.slot evs n).toList := by
  induction evs with
  | nil => rfl
  | cons e evs ih =>
    rw [List.map_cons, List.nodup_cons] at hn
    rw [eventsOf_cons, Peer.slot_cons]
    split_ifs with h
    · have hnone : Peer.slot evs n = none := Peer.slot_eq_none.2 fun e' he' heq =>
        hn.1 (h.trans heq.symm ▸ List.mem_map_of_mem he')
      rw [ih hn.2, hnone]
      rfl
    · exact ih hn.2

/-- **Collapsing keeps the meaning** exactly as long as every network comes back under the range it
was stored with; and no network has two events. -/
theorem collapsing_preserves {m : Holding} {evs : List EventTuple} (h : m.Consistent evs) :
    ((evs.foldl Peer.queue []).map Peer.startOf).Nodup ∧
      ((evs.foldl Peer.queue []).foldl Holding.follow m = evs.foldl Holding.follow m ↔
        ∀ n, SameRange (m n) (eventsOf evs n)) := by
  have hnil : (([] : List EventTuple).map Peer.startOf).Nodup := List.nodup_nil
  have hnodup := Peer.nodup_foldl_queue evs hnil
  refine ⟨hnodup, funext_iff.trans (forall_congr' fun n => ?_)⟩
  rw [Holding.foldl_follow, Holding.foldl_follow, eventsOf_eq_slot hnodup,
    Peer.slot_foldl evs hnil]
  exact (waiting (h.eventsOf n)).same_iff

/-- A receiver that stores network 10 alone. -/
def only10 : Holding := Function.update (fun _ => none) 10 (some ((10, 10), 1))

/-- An event about a range that starts at 10. -/
def event10 (code : UInt8) (last : UInt16) : EventTuple :=
  { code := code, tuple := { range := (10, last), extended := true, distance := 0 } }

theorem collapsing_preserves_same :
    ([event10 ND 10, event10 NA 10].foldl Peer.queue []).foldl Holding.follow only10 =
      [event10 ND 10, event10 NA 10].foldl Holding.follow only10 := by
  refine (collapsing_preserves (by decide)).2.2 fun n => ?_
  by_cases hn : n = 10
  · subst hn
    intro a ha z hz _
    have hadded : lastAdded (eventsOf [event10 ND 10, event10 NA 10] 10) = some (event10 NA 10) :=
      by decide
    obtain rfl : event10 NA 10 = a := Option.some.inj (hadded.symm.trans ha)
    rfl
  · have hnone : eventsOf [event10 ND 10, event10 NA 10] n = [] := by
      simp [eventsOf, event10, Peer.startOf, Ne.symm hn]
    rw [hnone]
    exact fun a _ z hz => by cases hz

/-- Network 10 is deleted and comes back as the range 10-12 before the next update: the deletion and
the addition become a change of distance, and the receiver keeps the range 10-10. -/
theorem collapsing_loses_range :
    only10.Consistent [event10 ND 10, event10 NA 12] ∧
      ([event10 ND 10, event10 NA 12].foldl Peer.queue []).foldl Holding.follow only10 ≠
        [event10 ND 10, event10 NA 12].foldl Holding.follow only10 :=
  ⟨by decide, fun h => absurd (congrFun h 10) (by decide)⟩

end AppleTalk
