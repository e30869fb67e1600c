import AppleTalk.Properties.ZipTransfer
import AppleTalk.Router.Settling

/-!
# Plain ZIP Replies

A Reply that is no extended one has the whole list of every network in it. The total of an earlier
Extended Reply stays beside the list all the same, so the list counts as complete only when the
names held and the names it adds are as many.
-/

namespace AppleTalk

namespace Tables

variable {t : Tables} {net : UInt16}

/-- A network is done with: its list is complete, nobody is queried for it, and lookups and exports
see it. -/
structure Known (t : Tables) (net : UInt16) : Prop where
  complete : (t.zones net).any ZoneList.complete = true
  asked : ∀ r ∈ t.zoneless, r.range.1 ≠ net
  found : ∀ r, t.bestForStart net = some r → ∀ z, t.zones net = some z → ∀ zone ∈ z.names,
    (net, r.target) ∈ t.netsInZone zone
  exported : ∀ r, t.bestForStart net = some r → r.target.isPort → r.distance < 15 →
    r.tuple ∈ t.export

/-- A complete list is all it takes. -/
theorem known_iff : t.Known net ↔ t.zonesComplete net = true := by
  have hstarts : ∀ {r}, t.bestForStart net = some r → net ∈ t.starts := fun hr =>
    mem_starts.2 ⟨_, (pick_eq_some hr).1, bestForStart_start hr⟩
  refine ⟨Known.complete, fun h => ⟨h, fun r hr hnet => ?_, ?_, ?_⟩⟩
  · obtain ⟨s, hs, hbest⟩ := List.mem_filterMap.1 (List.mem_filter.1 hr).1
    obtain rfl : s = net := (bestForStart_start hbest).symm.trans hnet
    simp [h] at hs
  · intro r hr z hz zone hzone
    have hc : z.complete = true := by simpa [zonesComplete, hz] using h
    refine List.mem_filterMap.2 ⟨net, List.mem_filter.2 ⟨hstarts hr, ?_⟩, by rw [hr]; rfl⟩
    rw [hz, Option.any_some, hc, Bool.true_and]
    exact List.any_eq_true.2 ⟨zone, hzone, eqIgnoreAsciiCase_refl zone⟩
  · intro r hr hport hlt
    have hexp : t.exportable net = true := by simp [exportable, hr, hport, hlt, h]
    exact List.mem_filterMap.2 ⟨net, List.mem_filter.2 ⟨hstarts hr, hexp⟩, by rw [hr]; rfl⟩

/-- How many names a list gains from others, the case of letters apart. -/
def gain (held names : List Str) : ℕ :=
  ((names.map (List.map Char.toLower)).toFinset \
    (held.map (List.map Char.toLower)).toFinset).card

/-- **A plain Reply is final** exactly as long as no earlier total is above the number of names that
the list holds and gains. -/
theorem plain_reply_final_iff (hr : ∃ r ∈ t.routes, r.range.1 = net ∧ ¬r.direct)
    {zones : List (UInt16 × Str)} (hn : namesOf net zones ≠ []) :
    (learnZones zones none t).1.Known net ↔
      ∀ z, t.zones net = some z → ∀ total ∈ z.expected,
        total ≤ z.names.length + gain z.names (namesOf net zones) := by
  have hrouted : Routed net t := by
    obtain ⟨r, hmem, hnet, -⟩ := hr
    exact ⟨r, hmem, hnet⟩
  have hlength : ∀ held, (Gather.addAll eqIgnoreAsciiCase held (namesOf net zones)).length =
      held.length + gain held (namesOf net zones) :=
    fun held => Gather.length_addAll (fun a b => by simp [eqIgnoreAsciiCase]) held _
  have hnames : ∀ held,
      (Gather.addAll eqIgnoreAsciiCase held (namesOf net zones)).isEmpty = false := fun held =>
    List.isEmpty_eq_false_iff.2 (Gather.addAll_ne_nil hn)
  rw [known_iff, zonesComplete, zones_learnZones hrouted, fill, if_neg hn, Option.map_none,
    Option.any_some, ZoneList.complete, hnames, hlength]
  cases hz : t.zones net with
  | none => simp [ZoneList.empty]
  | some z =>
    cases he : z.expected with
    | none => simp [he]
    | some total => simp [he]

/-- Network 5 is reached through a router on port 0. -/
def through : Tables :=
  (TableOp.after new [.learn { range := (5, 6), extended := true, distance := 0 } (.port 0)
    { net := 6800, node := 1 } 0])

/-- An Extended Reply announced two zones and named one; a plain Reply with both is the last. -/
theorem plain_reply_final_both :
    (learnZones [(5, ['E']), (5, ['F'])] none
      (learnZones [(5, ['E'])] (some 2) through).1).1.Known 5 := by
  have hr : ∃ r ∈ (learnZones [(5, ['E'])] (some 2) through).1.routes,
      r.range.1 = 5 ∧ ¬r.direct := by decide
  refine (plain_reply_final_iff hr (by decide)).2 fun z hz total htotal => ?_
  have hheld : (learnZones [(5, ['E'])] (some 2) through).1.zones 5 =
      some { names := [['E']], expected := some 2 } := by decide
  obtain rfl := Option.some.inj (hheld.symm.trans hz)
  obtain rfl := Option.some.inj htotal
  decide

/-- An Extended Reply announced two zones and named one; a plain Reply with that one, which is all
there are, leaves the list incomplete. -/
theorem plain_reply_not_final :
    ¬(learnZones [(5, ['E'])] none (learnZones [(5, ['E'])] (some 2) through).1).1.Known 5 :=
  fun h => absurd h.complete (by decide)

end Tables

end AppleTalk
