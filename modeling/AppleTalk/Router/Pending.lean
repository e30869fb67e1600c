import AppleTalk.Lib.Run
import AppleTalk.Router.Aurp

/-!
# The pending events

What a data receiver makes of the events it is sent, and what queueing an event does to the events
that wait. The queue holds at most one event for each network, and the networks have nothing to do
with one another: each has a slot, and a run of events acts on it as those of its own.
-/

namespace AppleTalk

/-! ### Events and the map a data receiver keeps -/

/-- The network an event is about. -/
def Peer.startOf (e : EventTuple) : UInt16 := e.tuple.range.1

namespace EventTuple

/-- An event of one of the four kinds that say something. -/
def Known (e : EventTuple) : Prop := e.code = NA ∨ e.code = ND ∨ e.code = NRC ∨ e.code = NDC

/-- The distance an event leaves its network at: an addition or a change of distance sets it, a
deletion leaves none. -/
def left (e : EventTuple) : Option UInt8 :=
  if e.code = NA ∨ e.code = NDC then some e.tuple.distance else none

theorem left_eq_none {e : EventTuple} (h : e.code = ND ∨ e.code = NRC) : e.left = none := by
  unfold left
  rw [if_neg]
  rcases h with h | h <;> rw [h] <;> decide

/-- An event that leaves its network nowhere deletes it. -/
theorem code_of_left_eq_none {e : EventTuple} (hk : e.Known) (h : e.left = none) :
    e.code = ND ∨ e.code = NRC := by
  unfold left at h
  unfold Known at hk
  split_ifs at h
  tauto

/-- An event that leaves its network somewhere adds it or changes its distance. -/
theorem code_of_left {e : EventTuple} (h : e.left ≠ none) : e.code = NA ∨ e.code = NDC := by
  unfold left at h
  by_contra hc
  exact h (if_neg hc)

end EventTuple

/-- What a data receiver holds of us: the distance of each network it knows. -/
abbrev Replica := UInt16 → Option UInt8

namespace Replica

def empty : Replica := fun _ => none

def add (m : Replica) (x : NetworkTuple) : Replica :=
  Function.update m x.range.1 (some x.distance)

/-- Follow one event: NA and NDC set the distance, ND and NRC remove, and a null event says
nothing. -/
def follow (m : Replica) (e : EventTuple) : Replica :=
  if e.code = NA ∨ e.code = NDC then m.add e.tuple
  else if e.code = ND ∨ e.code = NRC then Function.update m (Peer.startOf e) none
  else m

theorem follow_of_ne (m : Replica) {e : EventTuple} {n : UInt16} (h : Peer.startOf e ≠ n) :
    m.follow e n = m n := by
  unfold follow add
  split_ifs
  · exact Function.update_of_ne (Ne.symm h) _ _
  · exact Function.update_of_ne (Ne.symm h) _ _
  · rfl

theorem follow_self (m : Replica) {e : EventTuple} (h : e.Known) :
    m.follow e (Peer.startOf e) = e.left := by
  unfold follow EventTuple.left add
  split_ifs with h1 h2
  · exact Function.update_self _ _ _
  · exact Function.update_self _ _ _
  · unfold EventTuple.Known at h
    tauto

/-- Events about other networks leave a network alone. -/
theorem foldl_follow_of_ne {evs : List EventTuple} {n : UInt16}
    (h : ∀ e ∈ evs, Peer.startOf e ≠ n) (m : Replica) : evs.foldl follow m n = m n := by
  induction evs generalizing m with
  | nil => rfl
  | cons e evs ih =>
    rw [List.foldl_cons, ih fun e he => h e (List.mem_cons_of_mem _ he)]
    exact follow_of_ne m (h e List.mem_cons_self)

end Replica

/-! ### Collapsing and queueing -/

namespace Peer

theorem startOf_collapse {p ev e : EventTuple} (h : startOf p = startOf ev)
    (he : collapse p ev = some e) : startOf e = startOf p := by
  unfold collapse at he
  split_ifs at he
  · obtain rfl := Option.some.inj he
    exact h.symm
  · obtain rfl := Option.some.inj he
    exact h.symm
  · obtain rfl := Option.some.inj he
    exact h.symm

/-- What two events collapse to leaves the network where the later one does. -/
theorem left_collapse {p ev e : EventTuple} (hev : ev.Known) (he : collapse p ev = some e) :
    e.Known ∧ e.left = ev.left := by
  unfold collapse at he
  split_ifs at he with h1 h2 h3
  · obtain rfl := Option.some.inj he
    exact ⟨Or.inl h2.1, by simp [EventTuple.left, h2]⟩
  · obtain rfl := Option.some.inj he
    exact ⟨Or.inr (Or.inr (Or.inr rfl)), by simp [EventTuple.left, h3.2]⟩
  · obtain rfl := Option.some.inj he
    exact ⟨hev, rfl⟩

/-- Two events collapse to nothing only as an addition and a deletion. -/
theorem collapse_eq_none {p ev : EventTuple} (h : collapse p ev = none) :
    p.code = NA ∧ (ev.code = ND ∨ ev.code = NRC) := by
  unfold collapse at h
  split_ifs at h with h1
  exact h1

/-- An addition that finds no deletion waiting replaces what waits. -/
theorem collapse_added {p ev : EventTuple} (hp : ¬(p.code = ND ∨ p.code = NRC))
    (h : ev.code = NA) : collapse p ev = some ev := by
  have hdel : ¬(ev.code = ND ∨ ev.code = NRC) := by rw [h]; decide
  have hndc : ev.code ≠ NDC := by rw [h]; decide
  unfold collapse
  rw [if_neg fun hc => hdel hc.2, if_neg fun hc => hndc hc.2, if_neg fun hc => hp hc.1]

/-- An addition that waits takes on a change of distance. -/
theorem collapse_moved {p ev : EventTuple} (hp : p.code = NA) (h : ev.code = NDC) :
    collapse p ev = some { p with tuple := ev.tuple } := by
  have hdel : ¬(ev.code = ND ∨ ev.code = NRC) := by rw [h]; decide
  unfold collapse
  rw [if_neg fun hc => hdel hc.2, if_pos ⟨hp, h⟩]

theorem mem_queue {evs : List EventTuple} {ev e : EventTuple} (h : e ∈ queue evs ev) :
    startOf e = startOf ev ∨ e ∈ evs := by
  induction evs with
  | nil => exact Or.inl (congrArg startOf (List.mem_singleton.1 h))
  | cons p evs ih =>
    unfold queue at h
    split_ifs at h with hstart
    · rcases List.mem_append.1 h with h | h
      · exact Or.inl ((startOf_collapse hstart (Option.mem_toList.1 h)).trans hstart)
      · exact Or.inr (List.mem_cons_of_mem _ h)
    · rcases List.mem_cons.1 h with rfl | h
      · exact Or.inr List.mem_cons_self
      · exact (ih h).imp_right (List.mem_cons_of_mem _)

/-- Queueing keeps at most one event per network. -/
theorem nodup_queue {evs : List EventTuple} (h : (evs.map startOf).Nodup) (ev : EventTuple) :
    ((queue evs ev).map startOf).Nodup := by
  induction evs with
  | nil => exact List.nodup_singleton _
  | cons p evs ih =>
    rw [List.map_cons, List.nodup_cons] at h
    unfold queue
    split_ifs with hstart
    · cases hc : collapse p ev with
      | none => exact h.2
      | some e =>
        rw [Option.toList_some, List.singleton_append, List.map_cons, List.nodup_cons,
          startOf_collapse hstart hc]
        exact h
    · rw [List.map_cons, List.nodup_cons]
      refine ⟨fun hmem => ?_, ih h.2⟩
      obtain ⟨e, he, hep⟩ := List.mem_map.1 hmem
      rcases mem_queue he with hev | hev
      · exact hstart (hep.symm.trans hev)
      · exact h.1 (hep ▸ List.mem_map_of_mem hev)

theorem nodup_foldl_queue (news : List EventTuple) {evs : List EventTuple}
    (h : (evs.map startOf).Nodup) : ((news.foldl queue evs).map startOf).Nodup := by
  induction news generalizing evs with
  | nil => exact h
  | cons ev news ih => exact ih (nodup_queue h ev)

/-! ### Slots -/

/-- The event that waits for a network, if one does. -/
def slot (evs : List EventTuple) (n : UInt16) : Option EventTuple :=
  evs.find? fun e => startOf e = n

/-- What queueing an event makes of its network's slot. -/
def put : Option EventTuple → EventTuple → Option EventTuple
  | none, ev => some ev
  | some p, ev => collapse p ev

theorem slot_cons (e : EventTuple) (evs : List EventTuple) (n : UInt16) :
    slot (e :: evs) n = if startOf e = n then some e else slot evs n := by
  unfold slot
  rw [List.find?_cons]
  split_ifs with h <;> simp [h]

theorem slot_eq_none {evs : List EventTuple} {n : UInt16} :
    slot evs n = none ↔ ∀ e ∈ evs, startOf e ≠ n := by
  simp [slot]

theorem slot_start {evs : List EventTuple} {n : UInt16} {e : EventTuple} (h : slot evs n = some e) :
    startOf e = n := by
  simpa using List.find?_some h

/-- With one event per network, the slots are the events. -/
theorem slot_eq_some {evs : List EventTuple} (hn : (evs.map startOf).Nodup) {n : UInt16}
    {e : EventTuple} : slot evs n = some e ↔ e ∈ evs ∧ startOf e = n := by
  constructor
  · exact fun h => ⟨List.mem_of_find?_eq_some h, slot_start h⟩
  · rintro ⟨he, rfl⟩
    induction evs with
    | nil => cases he
    | cons p evs ih =>
      rw [List.map_cons, List.nodup_cons] at hn
      rw [slot_cons]
      rcases List.mem_cons.1 he with rfl | he
      · exact if_pos rfl
      · have hp : startOf p ≠ startOf e := fun hp => hn.1 (hp ▸ List.mem_map_of_mem he)
        rw [if_neg hp, ih hn.2 he]

/-- **Queueing** puts the event into its network's slot and leaves the others alone. -/
theorem slot_queue {evs : List EventTuple} (hn : (evs.map startOf).Nodup) (ev : EventTuple)
    (n : UInt16) :
    slot (queue evs ev) n = if startOf ev = n then put (slot evs n) ev else slot evs n := by
  induction evs with
  | nil => exact slot_cons ev [] n
  | cons p evs ih =>
    rw [List.map_cons, List.nodup_cons] at hn
    unfold queue
    split_ifs with h1 h2 h2
    · -- The event's own slot: nothing else waits for its network.
      have hp : startOf p = n := Eq.trans h1 h2
      have hnone : slot evs n = none :=
        slot_eq_none.2 fun e he hen => hn.1 (hp.trans hen.symm ▸ List.mem_map_of_mem he)
      rw [slot_cons p, if_pos hp]
      show slot _ n = collapse p ev
      cases hc : collapse p ev with
      | none => exact hnone
      | some e =>
        rw [Option.toList_some, List.singleton_append, slot_cons,
          if_pos ((startOf_collapse h1 hc).trans hp)]
    · have hp : startOf p ≠ n := fun hp => h2 (Eq.trans (Eq.symm h1) hp)
      rw [slot_cons p, if_neg hp]
      cases hc : collapse p ev with
      | none => rfl
      | some e =>
        rw [Option.toList_some, List.singleton_append, slot_cons,
          if_neg ((startOf_collapse h1 hc).trans_ne hp)]
    · have hp : startOf p ≠ n := fun hp => h1 (Eq.trans hp (Eq.symm h2))
      rw [slot_cons, slot_cons, if_neg hp, if_neg hp, ih hn.2, if_pos h2]
    · rw [slot_cons, slot_cons, ih hn.2, if_neg h2]

/-- Queueing a run of events acts on a slot as the events of its own network. -/
theorem slot_foldl (news : List EventTuple) {evs : List EventTuple} (hn : (evs.map startOf).Nodup)
    (n : UInt16) :
    slot (news.foldl queue evs) n =
      (news.filter fun e => startOf e = n).foldl put (slot evs n) := by
  induction news generalizing evs with
  | nil => rfl
  | cons ev news ih =>
    rw [List.foldl_cons, ih (nodup_queue hn ev), slot_queue hn, List.filter_cons]
    split_ifs with h1 h2 h2
    · rfl
    · exact absurd (decide_eq_true h1) h2
    · exact absurd (of_decide_eq_true h2) h1
    · rfl

/-- A condition on the slot of each queued event guards the slot's own events. -/
theorem guarded_slot {ok : Option EventTuple → EventTuple → Prop} (news : List EventTuple)
    {evs : List EventTuple} (hn : (evs.map startOf).Nodup)
    (h : Machine.Guarded queue (fun evs ev => ok (slot evs (startOf ev)) ev) evs news)
    (n : UInt16) :
    Machine.Guarded put ok (slot evs n) (news.filter fun e => startOf e = n) := by
  induction news generalizing evs with
  | nil => trivial
  | cons ev news ih =>
    have hrest := ih (nodup_queue hn ev) h.2
    rw [slot_queue hn] at hrest
    rw [List.filter_cons]
    by_cases h1 : startOf ev = n
    · rw [if_pos h1] at hrest
      rw [if_pos (decide_eq_true h1)]
      exact ⟨h1 ▸ h.1, hrest⟩
    · rw [if_neg h1] at hrest
      rw [if_neg (by simpa using h1)]
      exact hrest

/-- Following the events that wait leaves a network where its slot does. -/
theorem follow_slot {evs : List EventTuple} (hn : (evs.map startOf).Nodup)
    (hk : ∀ e ∈ evs, e.Known) (m : Replica) (n : UInt16) :
    evs.foldl Replica.follow m n = (slot evs n).elim (m n) EventTuple.left := by
  induction evs generalizing m with
  | nil => rfl
  | cons e evs ih =>
    rw [List.map_cons, List.nodup_cons] at hn
    rw [List.foldl_cons, slot_cons]
    split_ifs with h
    · subst h
      have hrest : ∀ e' ∈ evs, startOf e' ≠ startOf e := fun e' he' heq =>
        hn.1 (heq ▸ List.mem_map_of_mem he')
      rw [Replica.foldl_follow_of_ne hrest]
      exact m.follow_self (hk e List.mem_cons_self)
    · rw [ih hn.2 fun e he => hk e (List.mem_cons_of_mem _ he), m.follow_of_ne h]

end Peer

end AppleTalk
