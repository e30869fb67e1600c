import AppleTalk.Lib.Directory
import AppleTalk.Properties.Reopenings

/-!
# Names that moved

A configured name is to have an entry at one address only, the one it resolved to last. A name that
resolves to an address without an entry is taken from the entry that bears it; a name that resolves
to an address with an entry, such as one that contacted us first, is put there and left where it
was.
-/

namespace AppleTalk

namespace Peers

/-! ### Labels -/

/-- The name the entry of an address is configured under. -/
def label (s : Peers) (ip : Ipv4Addr) : Option Str := (s.entry ip).bind Peer.configured

/-- What a call says about where the names are. -/
def binds (d : Directory Str Ipv4Addr) (c : Call × Instant) : Directory Str Ipv4Addr :=
  match c.1 with
  | .resolved name addr => d.bind name addr
  | _ => d

/-- Where the names are after some calls. -/
def resolutions (cs : List (Call × Instant)) : Directory Str Ipv4Addr :=
  Machine.run binds .empty cs

/-- A packet leaves the labels alone, and an entry it makes has none. -/
theorem label_packet (s : Peers) («from» : Ipv4Addr) (bytes : Bytes) (tables : Tables)
    (now : Instant) : (s.next (.packet «from» bytes tables, now)).label = s.label := by
  funext ip
  unfold label
  by_cases hip : «from» = ip
  · subst hip
    cases hpkt : Aurp.parse bytes with
    | none => rw [entry_unread hpkt]
    | some pkt =>
      cases he : s.entry «from» with
      | some p =>
        rw [entry_received hpkt he]
        exact Peer.configured_eq (p.received_identity «from» pkt tables now)
      | none =>
        rcases entry_admitted hpkt he tables now with hnone | hnew
        · rw [hnone]
        · rw [hnew]
          exact Peer.configured_eq (Peer.received_identity _ «from» pkt tables now)
  · rw [entry_elsewhere hip]

/-- A tick leaves the labels alone: what it evicts has none. -/
theorem label_tick (s : Peers) (tables : Tables) (now : Instant) :
    (s.next (.tick tables, now)).label = s.label := by
  funext ip
  unfold label
  rw [entry_ticked]
  cases s.entry ip with
  | none => rfl
  | some p =>
    have hconf := Peer.configured_eq (p.timed_identity (RECONNECT_SCAN ≤ since now s.lastScan) now)
    rw [Option.map_some, Option.filter_some]
    by_cases hk : keeps now (p.timed (RECONNECT_SCAN ≤ since now s.lastScan) now)
    · rw [if_pos hk]
      exact hconf
    · rw [if_neg hk]
      simp only [keeps, decide_eq_true_eq, not_or, not_not] at hk
      exact (hconf.symm.trans hk.1).symm

/-- A name that resolved is put at an address that has an entry, and moved to one that has none. -/
theorem label_resolved (s : Peers) (name : Str) (addr : Ipv4Addr) (now : Instant) :
    (s.next (.resolved name addr, now)).label =
      if (s.entry addr).isSome then Directory.put s.label name addr
      else Directory.move s.label name addr := by
  funext ip
  have htaken : ∀ o : Option Peer, (o.filter fun p => p.configured ≠ some name).bind
      Peer.configured = if o.bind Peer.configured = some name then none
        else o.bind Peer.configured := by
    intro o
    cases o with
    | none => rfl
    | some q => by_cases hq : q.configured = some name <;> simp [Option.filter_some, hq]
  unfold label Directory.move Directory.put
  cases he : s.entry addr with
  | some p =>
    rw [entry_renamed he, Option.isSome_some, if_pos rfl, Function.update_apply]
    by_cases hip : addr = ip
    · rw [if_pos hip, if_pos hip.symm]
      rfl
    · rw [if_neg hip, if_neg (Ne.symm hip)]
  | none =>
    rw [entry_resolved he, Option.isSome_none, if_neg Bool.false_ne_true, Function.update_apply]
    by_cases hip : addr = ip
    · rw [if_pos hip, if_pos hip.symm]
      rfl
    · rw [if_neg hip, if_neg (Ne.symm hip)]
      exact htaken (s.entry ip)

/-- **What a call does to the labels**: only a name that resolved changes one. -/
theorem label_next (s : Peers) (c : Call × Instant) :
    (s.next c).label =
      match c.1 with
      | .resolved name addr =>
        if (s.entry addr).isSome then Directory.put s.label name addr
        else Directory.move s.label name addr
      | _ => s.label := by
  obtain ⟨c, now⟩ := c
  have hkept : ∀ {t : Peers} {f : Peer → Peer}, (∀ p, (f p).identity = p.identity) →
      (∀ ip, t.entry ip = (s.entry ip).map f) → t.label = s.label := by
    intro t f hf ht
    funext ip
    unfold label
    rw [ht ip, Option.bind_map]
    exact Option.bind_congr fun p _ => Peer.configured_eq (hf p)
  cases c with
  | packet «from» bytes tables => exact s.label_packet «from» bytes tables now
  | tick tables => exact s.label_tick tables now
  | resolved name addr => exact s.label_resolved name addr now
  | routeChanged ch tables =>
    exact hkept (fun p => p.hear_identity _) fun ip => SortedMap.get?_mapValues s.peers _ ip
  | ping => exact hkept (fun p => p.pinged_identity now) fun ip => s.ping_get? ip now
  | shutdown => exact hkept (fun p => p.shut_identity now) fun ip => s.shutdown_get? ip now
  | pingReport =>
    funext ip
    unfold label
    rcases Core.samePeers_pingReport s ip with he | he
    · rw [show (s.next (.pingReport, now)).entry ip = s.entry ip from he]
    · rw [show (s.next (.pingReport, now)).entry ip = (s.entry ip).map pingTaken from he,
        Option.bind_map]
      rfl

/-! ### One address for each name -/

/-- Every name is at one address at most, the one it resolved to last, and it is there unless the
address resolved for another name since; no address that a name has moved away from is dialled. -/
structure OneAddress (s : Peers) (d : Directory Str Ipv4Addr) : Prop where
  unique : ∀ name ip ip', s.label ip = some name → s.label ip' = some name → ip = ip'
  latest : ∀ name ip, s.label ip = some name → d.address name = some ip
  stays : ∀ name ip, d.address name = some ip → d.name ip = some name → s.label ip = some name
  dials : ∀ ip p now, s.entry ip = some p → (p.reconnect now).2.acts ≠ [] →
    ∃ name, p.configured = some name ∧ d.address name = some ip

/-- A name resolves to an address that has an entry while another one bears the name. -/
def LeavesBehind (s : Peers) (c : Call × Instant) : Prop :=
  ∃ name addr ip, c.1 = .resolved name addr ∧ (s.entry addr).isSome ∧ ip ≠ addr ∧
    s.label ip = some name

/-- Entries that bear the names the directory has are as they should be. -/
theorem oneAddress_of_follows {s : Peers} {d : Directory Str Ipv4Addr} (h : d.Follows s.label) :
    s.OneAddress d := by
  refine ⟨fun name ip ip' h1 h2 => ((h name ip).1 h1).unique ((h name ip').1 h2),
    fun name ip h1 => ((h name ip).1 h1).1, fun name ip h1 h2 => (h name ip).2 ⟨h1, h2⟩, ?_⟩
  intro ip p now hp hacts
  cases hconf : p.configured with
  | none =>
    refine absurd ?_ hacts
    unfold Peer.reconnect
    rw [if_pos (Or.inl hconf)]
    rfl
  | some name =>
    have hlabel : s.label ip = some name := by
      unfold label
      rw [hp]
      exact hconf
    exact ⟨name, rfl, ((h name ip).1 hlabel).1⟩

/-- **One call**: the entries go on bearing the names of the directory unless the call leaves a
name behind. -/
theorem follows_next {s : Peers} {d : Directory Str Ipv4Addr} (h : d.Follows s.label)
    {c : Call × Instant} (hc : ¬s.LeavesBehind c) : (binds d c).Follows (s.next c).label := by
  rw [label_next]
  obtain ⟨c, now⟩ := c
  cases c with
  | resolved name addr =>
    dsimp only [binds]
    split_ifs with he
    · refine h.put fun ip hip => ?_
      by_contra hne
      exact hc ⟨name, addr, ip, rfl, he, hne, hip⟩
    · exact h.move
  | _ => exact h

/-- A name left behind is at an address other than its latest. -/
theorem LeavesBehind.not_oneAddress {s : Peers} {c : Call × Instant} (h : s.LeavesBehind c)
    (d : Directory Str Ipv4Addr) : ¬(s.next c).OneAddress (binds d c) := by
  obtain ⟨c, now⟩ := c
  obtain ⟨name, addr, ip, rfl, he, hne, hip⟩ := h
  intro hone
  have hlabel : (s.next (.resolved name addr, now)).label ip = some name := by
    rw [label_resolved, if_pos he]
    exact Directory.put_eq_some.2 (Or.inr ⟨hne, hip⟩)
  have haddr : (binds d (.resolved name addr, now)).address name = some addr := by
    simp [binds, Directory.bind]
  exact hne (Option.some.inj ((hone.latest name ip hlabel).symm.trans haddr))

/-- **A run**, from entries that bear the names of a directory. -/
theorem oneAddress_run {s : Peers} {d : Directory Str Ipv4Addr} (h : d.Follows s.label)
    (cs : List (Call × Instant)) :
    (∀ past, past <+: cs → (s.after past).OneAddress (Machine.run binds d past)) ↔
      Machine.Guarded next (fun s c => ¬s.LeavesBehind c) s cs := by
  induction cs generalizing s d with
  | nil =>
    refine ⟨fun _ => trivial, fun _ past hpast => ?_⟩
    rw [List.prefix_nil.1 hpast]
    exact oneAddress_of_follows h
  | cons c cs ih =>
    constructor
    · intro hall
      have hc : ¬s.LeavesBehind c := fun hc =>
        hc.not_oneAddress d (hall [c] (List.prefix_append [c] cs))
      refine ⟨hc, (ih (follows_next h hc)).1 fun past hpast => ?_⟩
      exact hall (c :: past) (List.cons_prefix_cons.2 ⟨rfl, hpast⟩)
    · rintro ⟨hc, hcs⟩ past hpast
      cases past with
      | nil => exact oneAddress_of_follows h
      | cons b past =>
        obtain ⟨rfl, hrest⟩ := List.cons_prefix_cons.1 hpast
        exact (ih (follows_next h hc)).2 hcs past hrest

/-- **One live address for each configured name.** In a run every state reached has each name at
one address, its latest, just in case no call resolves a name to an address that has an entry while
another address bears the name. -/
theorem one_address_iff («local» : Di) (openPeering : Bool) (configured : List Str)
    (nanos : UInt16) (start : Instant) (cs : List (Call × Instant)) :
    let s := new «local» openPeering configured nanos start
    (∀ past, past <+: cs → (s.after past).OneAddress (resolutions past)) ↔
      Machine.Guarded next (fun s c => ¬s.LeavesBehind c) s cs :=
  oneAddress_run Directory.follows_empty cs

/-- A name resolves, a stranger opens a connection, and the name resolves to the stranger. -/
def movedName : List (Call × Instant) :=
  [(.resolved ['P'] ⟨192, 0, 2, 2⟩, 0), opens 7, (.resolved ['P'] ⟨192, 0, 2, 1⟩, fromSecs 1)]

/-- Both addresses bear the name, and the next scan dials the one it moved away from. -/
theorem movedName_dialled :
    let s := welcoming.after movedName
    s.label ⟨192, 0, 2, 1⟩ = some ['P'] ∧ s.label ⟨192, 0, 2, 2⟩ = some ['P'] ∧
      (resolutions movedName).address ['P'] = some ⟨192, 0, 2, 1⟩ ∧
      (s.entry ⟨192, 0, 2, 2⟩).any fun p => (p.reconnect (fromSecs 10)).2.acts ≠ [] := by
  decide +kernel

theorem name_at_two_addresses :
    ¬∀ («local» : Di) (openPeering : Bool) (configured : List Str) (nanos : UInt16)
        (start : Instant) (cs : List (Call × Instant)),
      ((new «local» openPeering configured nanos start).after cs).OneAddress (resolutions cs) := by
  intro h
  obtain ⟨h1, h2, -⟩ := movedName_dialled
  have hone := (h (.ip ⟨192, 0, 2, 9⟩) true [] 0 0 movedName).unique ['P'] _ _ h1 h2
  exact absurd hone (by decide)

end Peers

end AppleTalk
