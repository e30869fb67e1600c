import AppleTalk.Properties.ExportMirror

/-!
# Newly visible networks

A network that a peer has not been told of is announced with NA, in every run in which no addition
is queued on a deletion that waits for a network the peer has not heard of, and none of the
networks changes its distance before the peer has asked for an export. A deletion can wait for a
network that was never exported, since `routeChanged` does not ask whether the zones of the old
route were complete; the addition that follows makes it a change of distance.
-/

namespace AppleTalk

open Tables

namespace View

/-- Queueing the event makes no change of distance of a network the peer has not heard of: an
addition finds no deletion waiting for it, and before the peer has asked a change of distance finds
an addition waiting. -/
def Introduces (v : View) (o : Option EventTuple) (ev : EventTuple) : Prop :=
  v.ever (Peer.startOf ev) = none →
    (ev.code = NA → ¬o.any fun p => p.code = ND ∨ p.code = NRC) ∧
      (ev.code = NDC → ¬v.asked → o.any fun p => p.code = NA)

instance (v : View) (o : Option EventTuple) (ev : EventTuple) : Decidable (v.Introduces o ev) :=
  inferInstanceAs (Decidable (_ → _ ∧ _))

/-- The event that waits for a network, as an operation finds it. -/
structure Fresh (t : Tables) (v : View) (n : UInt16) (o : Option EventTuple) : Prop where
  deletes : ∀ e, o = some e → e.code = ND ∨ e.code = NRC → ¬t.exportable n
  untold : v.ever n = none → t.exportable n →
    (∃ e, o = some e ∧ e.code = NA) ∨ o = none ∧ ¬v.asked

/-- An operation keeps what is known of the event that waits, with the one it reports queued. -/
theorem Fresh.turn {tz t t' : Tables} {v : View} {n : UInt16} {o E : Option EventTuple}
    (hz : tz.zonesComplete n = true) (h : v.Fresh t n o) (ht : tz.Turn t t' n E)
    (hE : ∀ e, E = some e → Peer.startOf e = n ∧ v.Introduces o e) :
    v.Fresh t' n (E.elim o (Peer.put o)) := by
  cases E with
  | none =>
    have hexp := (ht.silent_of_complete hz).2
    exact ⟨fun e he hdel h' => h.deletes e he hdel (hexp h'),
      fun hever h' => h.untold hever (hexp h')⟩
  | some ev =>
    obtain ⟨hleft, hndc⟩ := ht.of_complete hz
    obtain ⟨rfl, hintro⟩ := hE ev rfl
    -- What leaves the network nowhere waits for no network of the export.
    have hgone : ∀ e : EventTuple, e.left = ev.left → e.code = ND ∨ e.code = NRC →
        ¬t'.exportable (Peer.startOf ev) := fun e he hdel h' =>
      ((t'.exportable_iff_near _).1 h').2 (by rw [← hleft, ← he, EventTuple.left_eq_none hdel])
    have hcode : t'.exportable (Peer.startOf ev) → ev.code = NA ∨ ev.code = NDC := fun h' =>
      EventTuple.code_of_left (by rw [hleft]; exact ((t'.exportable_iff_near _).1 h').2)
    cases o with
    | none =>
      refine ⟨fun e he => ?_, fun hever h' => Or.inl ⟨ev, rfl, ?_⟩⟩
      · obtain rfl := Option.some.inj he
        exact hgone _ rfl
      · refine (hcode h').resolve_right fun hc => ?_
        rcases h.untold hever (hndc hc h') with ⟨e, he, -⟩ | ⟨-, hasked⟩
        · cases he
        · exact absurd ((hintro hever).2 hc hasked) (by simp)
    | some p =>
      refine ⟨fun e he => hgone e (Peer.left_collapse ht.sayable.1 he).2,
        fun hever h' => Or.inl ?_⟩
      rcases hcode h' with hc | hc
      · have hp : ¬(p.code = ND ∨ p.code = NRC) := by simpa using (hintro hever).1 hc
        exact ⟨ev, Peer.collapse_added hp hc, hc⟩
      · rcases h.untold hever (hndc hc h') with ⟨e, he, hna⟩ | ⟨hnone, -⟩
        · obtain rfl := Option.some.inj he
          exact ⟨_, Peer.collapse_moved hna hc, hna⟩
        · cases hnone

/-- Every network of the export that the peer has not heard of waits to be added. -/
def Announces (v : View) (t : Tables) : Prop := ∀ n, v.Fresh t n (Peer.slot v.pending n)

theorem announces_blank (t : Tables) : blank.Announces t := fun _ =>
  ⟨fun e he => (by cases he), fun _ _ => Or.inr ⟨rfl, by simp [blank]⟩⟩

/-- What one input tells leaves no network of the export to be announced as anything else. -/
theorem Announces.step {v v' : View} {t : Tables} (h : v.Announces t) (hv : v.Tidy)
    (hs : v.Step t.export v') : v'.Announces t := by
  intro n
  cases hs with
  | same => exact h n
  | exported ever =>
    refine ⟨(h n).deletes, fun hever hexp => ?_⟩
    obtain ⟨d, hd⟩ := Option.ne_none_iff_exists'.1 ((t.exportable_iff n).1 hexp)
    obtain ⟨x, hx, hn, -⟩ := (t.exports_eq_some_iff n d).1 hd
    rcases Replica.foldl_add_cases t.export ever n with ⟨y, -, -, he⟩ | ⟨hnone, -⟩
    · exact absurd (he.symm.trans hever) (by simp)
    · exact absurd hn (hnone x hx)
  | updated =>
    refine ⟨fun e he => (by cases he), fun hever hexp => Or.inr ⟨rfl, ?_⟩⟩
    have hever' : v.pending.foldl .follow v.ever n = none := hever
    rw [Peer.follow_slot hv.single hv.known] at hever'
    cases ho : Peer.slot v.pending n with
    | none =>
      rw [ho] at hever'
      rcases (h n).untold hever' hexp with ⟨e, he, -⟩ | ⟨-, hasked⟩
      · rw [ho] at he
        cases he
      · exact hasked
    | some e =>
      rw [ho] at hever'
      have he := ((Peer.slot_eq_some hv.single).1 ho).1
      have hdel := EventTuple.code_of_left_eq_none (hv.known e he) hever'
      exact absurd hexp ((h n).deletes e ho hdel)

/-- The events of a batch that was reported announce what the peer has not heard of. -/
theorem Announces.queued {v : View} {t : Tables} (h : v.Announces t) (hv : v.Tidy)
    {ops : List TableOp}
    (hintro : Machine.Guarded Peer.queue
      (fun evs ev => v.Introduces (Peer.slot evs (Peer.startOf ev)) ev) v.pending
      ((TableOp.applyAll t ops).2.filterMap (Peers.eventOf (TableOp.after t ops)))) :
    (v.queued ((TableOp.applyAll t ops).2.filterMap
      (Peers.eventOf (TableOp.after t ops)))).Announces (TableOp.after t ops) := by
  intro n
  suffices v.Fresh (TableOp.after t ops) n (Peer.slot (List.foldl Peer.queue v.pending
      ((TableOp.applyAll t ops).2.filterMap (Peers.eventOf (TableOp.after t ops)))) n) from
    ⟨this.deletes, this.untold⟩
  cases hz : (TableOp.after t ops).zonesComplete n with
  | false =>
    have hexp : ¬(TableOp.after t ops).exportable n := fun h =>
      by simp [((exportable_iff_near _ n).1 h).1] at hz
    exact ⟨fun _ _ _ => hexp, fun _ h => absurd h hexp⟩
  | true =>
    rw [Peer.slot_foldl _ hv.single]
    exact TableOp.turns (P := fun t o => v.Fresh t n o)
      (fun t op E o hP ht _ hE => hP.turn hz ht hE) (h n)
      (Machine.guarded_of_forall (P := fun _ => True) fun _ _ => trivial)
      (Peer.guarded_slot _ hv.single hintro n)

end View

/-! ### What an RI-Upd carries -/

namespace Sending

theorem mem_told {asked : Bool} {s : Sending} {sent : List (UInt16 × UInt16 × Cmd)} {cmd : Cmd}
    (h : cmd ∈ told asked s sent) :
    ∃ x ∈ sent, (asked = true ∨ x.2.1 ≠ s.seq) ∧ x.2.2.wire = some cmd := by
  unfold told onWire at h
  obtain ⟨y, hy, rfl⟩ := List.mem_map.1 h
  obtain ⟨hy, hseq⟩ := List.mem_filter.1 hy
  obtain ⟨x, hx, hxy⟩ := List.mem_filterMap.1 hy
  split_ifs at hxy
  obtain ⟨cmd, hw, rfl⟩ := Option.map_eq_some_iff.1 hxy
  exact ⟨x, hx, by simpa using hseq, hw⟩

/-- A move sends the events that waited, or an RI-Upd that says nothing. -/
theorem Move.riUpd {x : List NetworkTuple} {asked : Bool} {s s' : Sending}
    {sent : List (UInt16 × UInt16 × Cmd)} (hm : Move x asked s s' sent) (hsay : s.Sayable)
    {events : List EventTuple} (h : .riUpd events ∈ told asked s sent) :
    (∀ e ∈ events, e.code = 0) ∨
      s'.sender = .waitRiUpdAck ∧ s.pending ≠ [] ∧ s'.pending = [] ∧
        events = s.pending.map EventTuple.onWire ∧
        ∃ o, s'.outstanding = some o ∧ o.nets = (Cmd.riUpd s.pending).nets := by
  obtain ⟨y, hy, hseq, hw⟩ := mem_told h
  have hcode : (4 : UInt16) = y.2.2.code := Cmd.code_of_parse hw
  cases hm with
  | keep | close | accept | acked => cases hy
  | again _ o o' cmd =>
    obtain rfl := List.mem_singleton.1 hy
    exact absurd rfl (hseq.resolve_left Bool.false_ne_true)
  | null =>
    obtain rfl := List.mem_singleton.1 hy
    have hnull : nullUpd.wire = some nullUpd := by decide
    cases hnull.symm.trans hw
    exact Or.inl (by simp)
  | page | exported | down =>
    obtain rfl := List.mem_singleton.1 hy
    exact absurd hcode (by simp [Cmd.code])
  | update _ o _ _ hp hc =>
    obtain rfl := List.mem_singleton.1 hy
    have hwire := Cmd.parse_riUpd fun e he => (hsay.pending e he).bounds
    cases hwire.symm.trans hw
    exact Or.inr ⟨rfl, hp, rfl, rfl, o, rfl, hc.2.1⟩

end Sending

namespace Core

variable {c : Core} {i : CoreIn × Instant} {ip : Ipv4Addr}

/-- **What an RI-Upd carries.** A new RI-Upd that says something carries the events that waited, and
stays outstanding with the networks they add. -/
theorem Regular.riUpd (h : c.Regular) {p : Peer} (hp : c.entry ip = some p)
    {events : List EventTuple} (hev : .riUpd events ∈ c.fresh i ip) :
    (∀ e ∈ events, e.code = 0) ∨
      events = p.pending.map EventTuple.onWire ∧
        ∃ q o, (c.next i).entry ip = some q ∧ q.outstanding = some o ∧
          o.nets = (Cmd.riUpd p.pending).nets := by
  have hs : c.subject i ip = some p := subject_of_entry hp
  obtain ⟨q, sent, opens, acks, hm, hq⟩ := exists_move h.filed h.ok hs
  rw [fresh_eq hs hm] at hev
  refine (hm.sending.riUpd (h.sayable ip p hp) hev).imp_right ?_
  rintro ⟨hsender, hne, hnil, hevents, o, ho, hnets⟩
  refine ⟨hevents, ?_⟩
  rcases hq with hq | ⟨-, hdrops⟩
  · refine ⟨q.hear (c.reported i), o, by rw [next_entry, hq]; rfl, ?_, hnets⟩
    unfold Peer.hear
    split_ifs
    · exact ho
    · exact ho
  · -- An entry with a packet outstanding is not dropped.
    obtain ⟨i, now⟩ := i
    unfold Drops at hdrops
    cases i with
    | tick =>
      have hopen : q.sender = .waitRiUpdAck := hsender
      simp [Peers.keeps, hopen] at hdrops
    | resolved name addr =>
      obtain ⟨rfl, -⟩ := hdrops
      exact absurd hnil hne
    | _ => exact hdrops.elim

/-! ### Runs -/

/-- The input announces to an address what it has not heard of: no event makes a change of distance
of a network the peer has not heard of. -/
def KeepsAnnouncing (ip : Ipv4Addr) (s : Core × Heard) (i : CoreIn × Instant) : Prop :=
  ∀ p ∈ s.1.entryStep i ip, Machine.Guarded Peer.queue
    (fun evs ev => (p.sending.view (listen ip s i).2).Introduces
      (Peer.slot evs (Peer.startOf ev)) ev) p.pending (s.1.reported i)

instance (ip : Ipv4Addr) (s : Core × Heard) (i : CoreIn × Instant) :
    Decidable (KeepsAnnouncing ip s i) :=
  inferInstanceAs (Decidable (∀ p ∈ _, _))

/-- An event about a network of the export that the peer has not been told of is an addition: one
that waits, and one of a new RI-Upd, which stays outstanding with the network among those an
acknowledgement gets the zones of. -/
def Announced (ip : Ipv4Addr) (s : Core × Heard) : Prop :=
  ∀ p, s.1.entry ip = some p → p.sender.Serving →
    (∀ e ∈ p.pending, p.sending.held s.2.ever (Peer.startOf e) = none →
      s.1.tables.exportable (Peer.startOf e) → e.code = NA) ∧
    ∀ i events, .riUpd events ∈ s.1.fresh i ip → ∀ e ∈ events, e.code ≠ 0 →
      p.sending.held s.2.ever (Peer.startOf e) = none →
      s.1.tables.exportable (Peer.startOf e) →
        e.code = NA ∧ ∃ q o, (s.1.next i).entry ip = some q ∧ q.outstanding = some o ∧
          Peer.startOf e ∈ o.nets

/-- One input announces what the peer has not heard of. -/
theorem KeepsAnnouncing.announces {s : Core × Heard} (h : KeepsAnnouncing ip s i) {v : View}
    {p : Peer} (hv : v.Announces s.1.tables) (htidy : v.Tidy)
    (hp : s.1.entryStep i ip = some p)
    (hs : v.Step s.1.tables.export (p.sending.view (listen ip s i).2)) :
    ((p.sending.view (listen ip s i).2).queued (s.1.reported i)).Announces
      (s.1.next i).tables := by
  have hintro := h p hp
  unfold reported at hintro ⊢
  rw [next_tables] at hintro ⊢
  exact (hv.step htidy hs).queued (htidy.step hs) hintro

theorem Regular.after (h : c.Regular) (is : List (CoreIn × Instant)) : (c.after is).Regular :=
  Machine.run_invariant (I := Regular) (fun _ i hc => hc.next i) h is

end Core

namespace Router

variable {host : Host} {ip : Ipv4Addr}

/-- **A newly visible network is announced as an addition.** -/
theorem networks_announced {r0 : Router} (h : Built host r0) {es : List (Event × Instant)}
    (hes : Machine.Guarded (Core.observe ip (Core.KeepsAnnouncing ip))
      (Core.Keeps ip (Core.KeepsAnnouncing ip)) ((r0.core, .nothing), false)
      (r0.coreTrace host es)) :
    Core.Announced ip ((r0.after host es).core, r0.heard host ip es) := by
  intro p hp hserv
  rw [after_core] at hp ⊢
  obtain ⟨ha, ht⟩ := h.regular.heard_run (P := fun t v => v.Announces t) View.announces_blank
    (fun s i v p hi hv htidy hp hs => hi.announces hv htidy hp hs) (h.no_peers ip) hes hp hserv
  have hpending : ∀ e ∈ p.pending,
      p.sending.held (r0.heard host ip es).ever (Peer.startOf e) = none →
      (r0.core.after (r0.coreTrace host es)).tables.exportable (Peer.startOf e) →
      e.code = NA := by
    intro e he hever hexp
    have hslot := (Peer.slot_eq_some ht.single).2 ⟨he, rfl⟩
    rcases (ha _).untold hever hexp with ⟨e', he', hna⟩ | ⟨hnone, -⟩
    · rwa [Option.some.inj (hslot.symm.trans he')]
    · rw [hslot] at hnone
      cases hnone
  refine ⟨hpending, fun i events hev e he h0 hever hexp => ?_⟩
  rcases (h.regular.after _).riUpd hp hev with hnull | ⟨rfl, q, o, hq, ho, hnets⟩
  · exact absurd (hnull e he) h0
  obtain ⟨e, hmem, rfl⟩ := List.mem_map.1 he
  have hstart : Peer.startOf e.onWire = Peer.startOf e := by
    have hcode : e.code ≠ 0 := h0
    simp [Peer.startOf, EventTuple.onWire, hcode, NetworkTuple.onWire_start]
  rw [hstart] at hever hexp ⊢
  have hna := hpending e hmem hever hexp
  refine ⟨hna, q, o, hq, ho, ?_⟩
  rw [hnets]
  exact List.mem_map.2 ⟨e, List.mem_filter.2 ⟨hmem, decide_eq_true hna⟩, rfl⟩

theorem networks_announced_visible :
    Core.Announced ⟨192, 0, 2, 1⟩
      ((small.after .lowest visible).core, small.heard .lowest ⟨192, 0, 2, 1⟩ visible) :=
  networks_announced small_built (visible_keeps (by decide +kernel))

/-- A network without zones changes its distance, and its deletion waits though it was never
exported; once its zones are there it is announced as a change of distance. -/
theorem deletion_hides_addition :
    ∃ r es ip, Built Host.lowest r ∧
      ¬Core.Announced ip ((r.after .lowest es).core, r.heard .lowest ip es) := by
  refine ⟨small, [stranger, strangerAsks, (.input (.llap 0 (hopTo20 0)), 0),
    (.input (.llap 0 (hopTo20 1)), 0), (.input (.llap 0 zoneOf20), 0)], ⟨192, 0, 2, 1⟩,
    small_built, ?_⟩
  generalize hes : [stranger, strangerAsks, (.input (.llap 0 (hopTo20 0)), 0),
    (.input (.llap 0 (hopTo20 1)), 0), (.input (.llap 0 zoneOf20), 0)] = es
  have hheld : ((small.after .lowest es).core.entry ⟨192, 0, 2, 1⟩).any (fun p =>
      p.sender.Serving ∧ (p.pending.any fun e => e.code = NDC ∧ Peer.startOf e = 20) ∧
        p.sending.held (small.heard .lowest ⟨192, 0, 2, 1⟩ es).ever 20 = none) = true ∧
      (small.after .lowest es).core.tables.exportable 20 = true := by
    rw [← hes]
    decide +kernel
  intro h
  obtain ⟨hany, hexp⟩ := hheld
  obtain ⟨p, hp, hp'⟩ := (Option.any_eq_true _ _).1 hany
  obtain ⟨hserv, hpending, hever⟩ := of_decide_eq_true hp'
  obtain ⟨e, he, he'⟩ := List.any_eq_true.1 hpending
  obtain ⟨hcode, hstart⟩ := of_decide_eq_true he'
  have hna := (h p hp hserv).1 e he (by rwa [hstart]) (by rwa [hstart])
  exact absurd (hcode.symm.trans hna) (by decide)

end Router

end AppleTalk
