import AppleTalk.Properties.Heard
import AppleTalk.Router.Reach

/-!
# The export mirror

What a peer has been told since its latest RI-Req, with the events that wait, is the export: in
every run in which no event collapses with an addition the peer has heard of already, no network
leaves the export by its zones alone, and no page of the export is dropped. An addition waits while
the export it is part of goes out again in answer to an RI-Req; the deletion that follows takes the
addition out of the queue and leaves the peer with the network.
-/

namespace AppleTalk

open Tables

/-! ### Where an operation leaves a network -/

/-- In the midst of a batch that leaves the tables `tz`, a network stands where the export does, or
where the last event about it has to leave it. -/
def Tables.Follows (tz t : Tables) (n : UInt16) (x : Option UInt8) : Prop :=
  if tz.zonesComplete n then x = t.near n ∨ x = none ∧ ¬t.exportable n
  else x = none ∨ t.exportable n

namespace Tables.Follows

variable {tz t t' : Tables} {n : UInt16} {x : Option UInt8} {e : EventTuple}

theorem of_exports (tz t : Tables) (n : UInt16) : tz.Follows t n (t.exports n) := by
  have hexp := t.exportable_iff n
  unfold Follows
  unfold exports at hexp ⊢
  split_ifs with hz hc hc
  · exact Or.inl rfl
  · exact Or.inr ⟨rfl, fun h => hexp.1 h (if_neg hc)⟩
  · rw [if_pos hc] at hexp
    exact (eq_or_ne (t.near n) none).imp_right hexp.2
  · exact Or.inl rfl

/-- At the end of the batch a network stands where the export does. -/
theorem exports (h : tz.Follows tz n x) : x = tz.exports n := by
  have hexp := tz.exportable_iff_near n
  unfold Follows at h
  unfold Tables.exports
  split_ifs at h ⊢ with hc
  · rcases h with h | ⟨rfl, hnot⟩
    · exact h
    · by_contra hne
      exact hnot (hexp.2 ⟨hc, Ne.symm hne⟩)
  · exact h.resolve_right fun h => hc (hexp.1 h).1

/-- An event leaves its network where it has to stand. -/
theorem left (h : tz.Turn t t' n (some e)) : tz.Follows t' n e.left := by
  unfold Follows
  split_ifs with hz
  · exact Or.inl (h.of_complete hz).1
  · exact Or.inl (h.of_incomplete (Bool.eq_false_iff.2 hz))

/-- An operation that reports nothing leaves a network where it stands. -/
theorem silent (h : tz.Turn t t' n none)
    (hkeep : t'.bestForStart n = t.bestForStart n → t.exportable n → t'.exportable n)
    (hx : tz.Follows t n x) : tz.Follows t' n x := by
  unfold Follows at hx ⊢
  split_ifs at hx ⊢ with hz
  · obtain ⟨hnear, hexp⟩ := h.silent_of_complete hz
    exact hx.imp (fun hx => hx.trans hnear.symm) fun hx => ⟨hx.1, fun h' => hx.2 (hexp h')⟩
  · exact hx.imp_right (h.silent_of_incomplete hkeep)

end Tables.Follows

/-- Zone names for a network of the export announce no more zones than its list then holds. -/
def TableOp.KeepsExport (t : Tables) : TableOp → Prop
  | .addZones start names (some total) => t.exportable start →
    total ≤ (extendNames ((t.zones start).getD .empty).names names).length
  | _ => True

instance (t : Tables) : ∀ op : TableOp, Decidable (op.KeepsExport t)
  | .addZones _ _ (some _) => inferInstanceAs (Decidable (_ → _))
  | .addZones _ _ none => .isTrue trivial
  | .learn .. => .isTrue trivial
  | .setDistance .. => .isTrue trivial
  | .remove .. => .isTrue trivial
  | .removeTarget .. => .isTrue trivial
  | .age .. => .isTrue trivial

/-- A complete zone list only grows, and stays complete under a total that it reaches. -/
theorem Tables.addZones_complete {t : Tables} {start : UInt16} (names : List Str)
    {expected : Option ℕ} (hc : t.zonesComplete start = true)
    (htotal : ∀ total, expected = some total →
      total ≤ (extendNames ((t.zones start).getD .empty).names names).length) :
    (t.addZones start names expected).1.zonesComplete start = true := by
  obtain ⟨z, hz, hz'⟩ := (Option.any_eq_true _ _).1 hc
  have hlen : z.names.length ≤ (extendNames z.names names).length :=
    Gather.length_le_addAll z.names names
  simp only [hz, Option.getD_some] at htotal
  simp only [ZoneList.complete, Bool.and_eq_true, Bool.not_eq_true', List.isEmpty_eq_false_iff,
    ← List.length_pos_iff, Option.all_eq_true, decide_eq_true_eq] at hz'
  unfold addZones
  split
  · exact hc
  · rw [hz]
    simp only [zonesComplete, zones, Function.update_self, Option.map_some, Option.any_some,
      Option.getD_some, ZoneList.complete, Bool.and_eq_true, Bool.not_eq_true',
      List.isEmpty_eq_false_iff, ← List.length_pos_iff, Option.all_eq_true, decide_eq_true_eq]
    refine ⟨lt_of_lt_of_le hz'.1 hlen, fun total htot => ?_⟩
    cases expected with
    | none => exact (hz'.2 total htot).trans hlen
    | some e => exact htotal total htot

/-- A network that keeps its best route stays in the export. -/
theorem TableOp.KeepsExport.exportable {t : Tables} {op : TableOp} (h : op.KeepsExport t)
    {n : UInt16} (hbest : (op.apply t).1.bestForStart n = t.bestForStart n)
    (hexp : t.exportable n) : (op.apply t).1.exportable n := by
  obtain ⟨hc, hn⟩ := (t.exportable_iff_near n).1 hexp
  have hn' : (op.apply t).1.near n ≠ none := by rwa [near, hbest]
  refine ((op.apply t).1.exportable_iff_near n).2 ⟨?_, hn'⟩
  by_cases hz : ∃ start names expected, op = .addZones start names expected
  · obtain ⟨start, names, expected, rfl⟩ := hz
    by_cases hs : start = n
    swap
    · rwa [addZones_zones t hs]
    subst hs
    refine addZones_complete names hc fun total htotal => ?_
    subst htotal
    exact h hexp
  · push Not at hz
    have happly := congrArg Prod.fst (apply_eq_update hz t)
    rw [happly] at hn' ⊢
    exact ((routed_zones t _ _ n).resolve_right fun h => hn' h.2).trans hc

/-! ### The mirror -/

namespace View

/-- Queueing the event collapses it with no addition that the peer has heard of already. -/
def Remembers (v : View) (o : Option EventTuple) (ev : EventTuple) : Prop :=
  (o.any fun p => p.code = NA) → ev.code = ND ∨ ev.code = NRC → v.asked →
    v.latest (Peer.startOf ev) = none

instance (v : View) (o : Option EventTuple) (ev : EventTuple) : Decidable (v.Remembers o ev) :=
  inferInstanceAs (Decidable (_ → _ → _ → _))

/-- The peer's map and the event that waits for a network, as an operation finds them. -/
structure Notes (tz t : Tables) (v : View) (n : UInt16) (o : Option EventTuple) : Prop where
  waits : ∀ e, o = some e → tz.Follows t n e.left
  told : o = none → v.asked → tz.Follows t n (v.latest n)

/-- An operation keeps the notes on a network, with the event it reports queued. -/
theorem Notes.turn {tz t t' : Tables} {v : View} {n : UInt16} {o E : Option EventTuple}
    (h : v.Notes tz t n o) (ht : tz.Turn t t' n E)
    (hkeep : t'.bestForStart n = t.bestForStart n → t.exportable n → t'.exportable n)
    (hE : ∀ e, E = some e → Peer.startOf e = n ∧ v.Remembers o e) :
    v.Notes tz t' n (E.elim o (Peer.put o)) := by
  cases E with
  | none =>
    exact ⟨fun e he => (h.waits e he).silent ht hkeep,
      fun ho hasked => (h.told ho hasked).silent ht hkeep⟩
  | some ev =>
    have hleft := Follows.left ht
    cases o with
    | none =>
      refine ⟨fun e he => ?_, fun ho => by cases ho⟩
      obtain rfl := Option.some.inj he
      exact hleft
    | some p =>
      refine ⟨fun e he => ?_, fun hnone hasked => ?_⟩
      · rw [(Peer.left_collapse ht.sayable.1 he).2]
        exact hleft
      · -- An addition and a deletion: the peer has not heard of the network.
        obtain ⟨hna, hdel⟩ := Peer.collapse_eq_none hnone
        obtain ⟨rfl, hrem⟩ := hE ev rfl
        rw [hrem (by simp [hna]) hdel hasked, ← EventTuple.left_eq_none hdel]
        exact hleft

/-- What waits leaves its networks where the export does, and what does not was told so. -/
structure Mirrors (v : View) (t : Tables) : Prop where
  waits : ∀ n e, Peer.slot v.pending n = some e → e.left = t.exports n
  told : ∀ n, Peer.slot v.pending n = none → v.asked → v.latest n = t.exports n

theorem mirrors_blank (t : Tables) : blank.Mirrors t :=
  ⟨fun n e he => (by cases he), fun n _ h => (by cases h)⟩

/-- The map the peer holds once it has been told everything is the export. -/
theorem Mirrors.foldl {v : View} {t : Tables} (h : v.Mirrors t) (hv : v.Tidy) (ha : v.asked) :
    v.pending.foldl .follow v.latest = t.exports := by
  funext n
  rw [Peer.follow_slot hv.single hv.known]
  cases ho : Peer.slot v.pending n with
  | none => exact h.told n ho ha
  | some e => exact h.waits n e ho

/-- What one input tells keeps the mirror. -/
theorem Mirrors.step {v v' : View} {t : Tables} (h : v.Mirrors t) (hv : v.Tidy)
    (hs : v.Step t.export v') : v'.Mirrors t := by
  cases hs with
  | same => exact h
  | exported ever => exact ⟨h.waits, fun n _ _ => congrFun t.foldl_export n⟩
  | updated => exact ⟨fun n e he => (by cases he), fun n _ ha => congrFun (h.foldl hv ha) n⟩

/-- The events of a batch that was reported keep the mirror. -/
theorem Mirrors.queued {v : View} {t : Tables} (h : v.Mirrors t) (hv : v.Tidy)
    {ops : List TableOp}
    (hkeep : Machine.Guarded (fun t op => (op.apply t).1) (fun t op => op.KeepsExport t) t ops)
    (hrem : Machine.Guarded Peer.queue
      (fun evs ev => v.Remembers (Peer.slot evs (Peer.startOf ev)) ev) v.pending
      ((TableOp.applyAll t ops).2.filterMap (Peers.eventOf (TableOp.after t ops)))) :
    (v.queued ((TableOp.applyAll t ops).2.filterMap
      (Peers.eventOf (TableOp.after t ops)))).Mirrors (TableOp.after t ops) := by
  have hnotes : ∀ n, v.Notes (TableOp.after t ops) (TableOp.after t ops) n (Peer.slot
      (v.queued ((TableOp.applyAll t ops).2.filterMap
        (Peers.eventOf (TableOp.after t ops)))).pending n) := by
    intro n
    show v.Notes _ _ n (Peer.slot (List.foldl Peer.queue v.pending _) n)
    rw [Peer.slot_foldl _ hv.single]
    refine TableOp.turns (P := fun t o => v.Notes _ t n o)
      (fun t op E o hP ht hk hE => hP.turn ht hk.exportable hE) ?_ hkeep
      (Peer.guarded_slot _ hv.single hrem n)
    exact ⟨fun e he => h.waits n e he ▸ .of_exports _ t n,
      fun ho ha => h.told n ho ha ▸ .of_exports _ t n⟩
  exact ⟨fun n e he => ((hnotes n).waits e he).exports,
    fun n ho ha => ((hnotes n).told ho ha).exports⟩

end View

/-! ### Runs -/

namespace Core

/-- The input keeps the mirror of an address: zone names announce for no network of the export more
zones than its list then holds, and no event collapses with an addition the peer has heard of
already. -/
def KeepsMirror (ip : Ipv4Addr) (s : Core × Heard) (i : CoreIn × Instant) : Prop :=
  ∀ p ∈ s.1.entryStep i ip,
    Machine.Guarded (fun t op => (op.apply t).1) (fun t op => op.KeepsExport t) s.1.tables
        (s.1.ops i) ∧
      Machine.Guarded Peer.queue
        (fun evs ev => (p.sending.view (listen ip s i).2).Remembers
          (Peer.slot evs (Peer.startOf ev)) ev) p.pending (s.1.reported i)

instance (ip : Ipv4Addr) (s : Core × Heard) (i : CoreIn × Instant) :
    Decidable (KeepsMirror ip s i) :=
  inferInstanceAs (Decidable (∀ p ∈ _, _ ∧ _))

/-- The map of a peer that has asked for an export, once it has been told everything, is the export,
and a network it was told about that has left the export waits to be withdrawn. -/
def Mirrored (ip : Ipv4Addr) (s : Core × Heard) : Prop :=
  ∀ p, s.1.entry ip = some p → p.sender.Serving → s.2.asked →
    p.pending.foldl .follow (p.sending.held s.2.latest) = s.1.tables.export.foldl .add .empty ∧
      ∀ n, p.sending.held s.2.latest n ≠ none → (∀ x ∈ s.1.tables.export, x.range.1 ≠ n) →
        ∃ e ∈ p.pending, Peer.startOf e = n ∧ (e.code = ND ∨ e.code = NRC)

/-- One input keeps the mirror. -/
theorem KeepsMirror.mirrors {ip : Ipv4Addr} {s : Core × Heard} {i : CoreIn × Instant}
    (h : KeepsMirror ip s i) {v : View} {p : Peer} (hv : v.Mirrors s.1.tables) (htidy : v.Tidy)
    (hp : s.1.entryStep i ip = some p)
    (hs : v.Step s.1.tables.export (p.sending.view (listen ip s i).2)) :
    ((p.sending.view (listen ip s i).2).queued (s.1.reported i)).Mirrors (s.1.next i).tables := by
  obtain ⟨hexp, hrem⟩ := h p hp
  unfold reported at hrem ⊢
  rw [next_tables] at hrem ⊢
  exact (hv.step htidy hs).queued (htidy.step hs) hexp hrem

end Core

namespace Router

variable {host : Host} {ip : Ipv4Addr}

/-- **The export mirror.** -/
theorem export_mirrored {r0 : Router} (h : Built host r0) {es : List (Event × Instant)}
    (hes : Machine.Guarded (Core.observe ip (Core.KeepsMirror ip))
      (Core.Keeps ip (Core.KeepsMirror ip)) ((r0.core, .nothing), false) (r0.coreTrace host es)) :
    Core.Mirrored ip ((r0.after host es).core, r0.heard host ip es) := by
  intro p hp hserv hasked
  rw [after_core] at hp ⊢
  obtain ⟨hm, ht⟩ := h.regular.heard_run (P := fun t v => v.Mirrors t) View.mirrors_blank
    (fun s i v p hi hv htidy hp hs => hi.mirrors hv htidy hp hs) (h.no_peers ip) hes hp hserv
  have hmirror : p.pending.foldl .follow (p.sending.held (r0.heard host ip es).latest) = _ :=
    hm.foldl ht hasked
  rw [foldl_export]
  refine ⟨hmirror, fun n htold hgone => ?_⟩
  have hexp : (r0.core.after (r0.coreTrace host es)).tables.exports n = none := by
    by_contra hne
    obtain ⟨d, hd⟩ := Option.ne_none_iff_exists'.1 hne
    obtain ⟨x, hx, hn, -⟩ := (exports_eq_some_iff _ n d).1 hd
    exact hgone x hx hn
  cases ho : Peer.slot p.pending n with
  | none => exact absurd ((hm.told n ho hasked).trans hexp) htold
  | some e =>
    refine ⟨e, ?_, Peer.slot_start ho, EventTuple.code_of_left_eq_none ?_ ?_⟩
    · exact ((Peer.slot_eq_some ht.single).1 ho).1
    · exact ht.known e ((Peer.slot_eq_some ht.single).1 ho).1
    · exact (hm.waits n e ho).trans hexp

/-- An RTMP packet from node 1 of network 10's cable that has network 20 at a distance. -/
def hopTo20 (distance : UInt8) : Llap :=
  { dst := 255, src := 1, typ := LLAP_SHORT_DDP
    data := [0, 15, RTMP_SOCKET, RTMP_SOCKET, DDP_RTMP_DATA, 0, 10, 8, 1, 0, 0, 0x82,
      0, 20, distance] }

/-- A ZIP Reply that names zone `B` of network 20, broadcast on network 10's cable. -/
def zoneOf20 : Llap :=
  { dst := 255, src := 1, typ := LLAP_SHORT_DDP
    data := [0, 11, ZIP_SOCKET, ZIP_SOCKET, DDP_ZIP, 2, 1, 0, 20, 1, 66] }

/-- A stranger opens its connection 7. -/
def stranger : Event × Instant :=
  (.input (.aurp ⟨192, 0, 2, 1⟩ (peerPacket 7 0 (.openReq Cmd.ALL_SUI 1 []))), 0)

/-- It asks for an export on it. -/
def strangerAsks : Event × Instant :=
  (.input (.aurp ⟨192, 0, 2, 1⟩ (peerPacket 7 0 (.riReq Cmd.ALL_SUI))), 0)

/-- A stranger asks for an export, and network 20 comes into it. -/
def visible : List (Event × Instant) :=
  [stranger, strangerAsks, (.input (.llap 0 (hopTo20 0)), 0), (.input (.llap 0 zoneOf20), 0)]

/-- Nothing of that run opens the connection again. -/
theorem visible_keeps {good : Core × Heard → CoreIn × Instant → Prop}
    [∀ s i, Decidable (good s i)]
    (h : Machine.Guarded (Core.observe ⟨192, 0, 2, 1⟩ good) (fun s i => good s.1 i)
      ((small.core, .nothing), false) (small.coreTrace .lowest visible)) :
    Machine.Guarded (Core.observe ⟨192, 0, 2, 1⟩ good) (Core.Keeps ⟨192, 0, 2, 1⟩ good)
      ((small.core, .nothing), false) (small.coreTrace .lowest visible) := by
  have hasks : Aurp.parse (peerPacket 7 0 (.riReq Cmd.ALL_SUI)) =
      some (.routing ⟨.null, .null⟩ 7 0 (.riReq Cmd.ALL_SUI)) := by decide +kernel
  obtain ⟨h1, h2, h3, h4, -⟩ := h
  refine ⟨⟨fun p hp => (by cases hp), fun _ _ _ => h1⟩,
    ⟨fun p hp conn seq cmd hr sui hcmd => ?_, fun _ _ _ => h2⟩,
    ⟨fun p hp conn seq cmd hr => (by cases hr), fun _ _ _ => h3⟩,
    ⟨fun p hp conn seq cmd hr => (by cases hr), fun _ _ _ => h4⟩, trivial⟩
  have hr' : cmd = .riReq Cmd.ALL_SUI := by
    simpa [CoreIn.routing, hasks] using (congrArg (Option.map fun x => x.2.2) hr).symm
  rw [hr'] at hcmd
  cases (Prod.ext_iff.1 hcmd).2

theorem export_mirrored_visible :
    Core.Mirrored ⟨192, 0, 2, 1⟩
      ((small.after .lowest visible).core, small.heard .lowest ⟨192, 0, 2, 1⟩ visible) :=
  export_mirrored small_built (visible_keeps (by decide +kernel))

/-- A network is added and its addition waits, the export it is part of goes out, and the network
goes: nothing is left to withdraw it. -/
theorem withdrawal_collapses :
    ∃ r es ip, Built Host.lowest r ∧
      ¬Core.Mirrored ip ((r.after .lowest es).core, r.heard .lowest ip es) := by
  refine ⟨small, [stranger, (.input (.llap 0 (hopTo20 0)), 0), (.input (.llap 0 zoneOf20), 0),
    strangerAsks, (.input (.llap 0 (hopTo20 31)), 0)], ⟨192, 0, 2, 1⟩, small_built, ?_⟩
  generalize hes : [stranger, (.input (.llap 0 (hopTo20 0)), 0), (.input (.llap 0 zoneOf20), 0),
    strangerAsks, (.input (.llap 0 (hopTo20 31)), 0)] = es
  have hheld : ((small.after .lowest es).core.entry ⟨192, 0, 2, 1⟩).any (fun p =>
      p.sender.Serving ∧ p.pending = [] ∧
        p.sending.held (small.heard .lowest ⟨192, 0, 2, 1⟩ es).latest 20 = some 1) = true ∧
      (small.heard .lowest ⟨192, 0, 2, 1⟩ es).asked = true ∧
      ((small.after .lowest es).core.tables.export.foldl .add .empty : Replica) 20 = none := by
    rw [← hes]
    decide +kernel
  intro h
  obtain ⟨hany, hasked, hgone⟩ := hheld
  obtain ⟨p, hp, hp'⟩ := (Option.any_eq_true _ _).1 hany
  obtain ⟨hserv, hnil, hheld⟩ := of_decide_eq_true hp'
  have := congrFun (h p hp hserv hasked).1 20
  rw [hnil, hgone] at this
  exact absurd (hheld.symm.trans this) (by decide)

end Router

end AppleTalk
