import AppleTalk.Lib.Watchdog
import AppleTalk.Properties.KeepAlive
import AppleTalk.Router.Tunnels

/-!
# The operator's ping

A ping sends a Tickle of its own. It shares the state, the counter and the time of the test that
drops a silent peer's routes, so a ping of a connected peer is the first Tickle of that test.
-/

namespace AppleTalk

/-- A Tickle. -/
def isTickle (code : UInt16) : Bool := code = 14

/-- The limits of the test of a connection. -/
def liveness : Watchdog.Limits :=
  { silence := LAST_HEARD, retry := RETRY, tries := TICKLE_RETRIES, tries_pos := by decide }

namespace Peer

/-- How far the test of an open connection is. -/
def watch (p : Peer) : Option Watchdog.State :=
  match p.receiver with
  | .connected => some (.trusted p.lastHeard)
  | .waitTickleAck => some (.tested p.recvTries p.recvAt)
  | _ => none

theorem senderTimers_watch (p : Peer) (now : Instant) : (p.senderTimers now).1.watch = p.watch := by
  have h := p.senderTimers_timed now
  generalize p.senderTimers now = r at h ⊢
  cases h with
  | updated _ _ _ _ hr =>
    rw [hr]
    rfl
  | _ => rfl

/-- The receiver's timers tick the watchdog. -/
theorem receiverTimers_watch (p : Peer) (tables : Tables) (now : Instant) :
    (p.receiverTimers tables now).peer.watch =
      p.watch.bind fun w => (Watchdog.tick liveness now w).1 := by
  unfold receiverTimers watch
  cases hr : p.receiver with
  | connected =>
    dsimp only [Option.bind_some, Watchdog.tick, liveness]
    rw [show since now p.lastHeard = now - p.lastHeard from rfl]
    split_ifs
    · rfl
    · simp [hr]
  | waitTickleAck =>
    dsimp only [Option.bind_some, Watchdog.tick, liveness]
    rw [show since now p.recvAt = now - p.recvAt from rfl]
    split_ifs
    · rfl
    · rfl
    · simp [retry, quiet, hr]
    · simp [hr]
  | waitOpenRsp | waitRiRsp =>
    simp only [reduceCtorEq, if_true, if_false, Option.bind_none]
    split_ifs
    · rfl
    · simp [retry, quiet, hr]
    · simp [hr]
  | unconnected => simp [hr]

/-- **One peer's share of a tick** ticks the watchdog. -/
theorem timed_watch (p : Peer) (scan : Bool) (now : Instant) :
    (p.timed scan now).watch = p.watch.bind fun w => (Watchdog.tick liveness now w).1 := by
  unfold timed
  rw [senderTimers_watch, receiverTimers_watch]
  suffices (if scan then p.reconnect now else (p, .nil)).1.watch = p.watch by rw [this]
  rcases p.scan_cases scan now with hscan | ⟨-, hu, hscan⟩
  · rw [hscan]
  · rw [hscan]
    simp [watch, «open», hu]

/-- The routes of a peer are dropped when the watchdog gives it up. -/
theorem ticklesOut_eq (p : Peer) (now : Instant) :
    p.ticklesOut now = p.watch.any fun w => (Watchdog.tick liveness now w).1.isNone := by
  unfold ticklesOut watch
  cases p.receiver with
  | waitTickleAck =>
    dsimp only [Option.any_some, Watchdog.tick, liveness]
    rw [show since now p.recvAt = now - p.recvAt from rfl]
    split_ifs with h1 h2
    · simp [h1, h2]
    · simp [h2]
    · simp [h1]
  | connected =>
    dsimp only [Option.any_some, Watchdog.tick, liveness]
    split_ifs <;> simp
  | _ => simp

/-- The Tickles of a tick are the probes of the watchdog. -/
theorem timers_tickles {p : Peer} (hok : p.sending.Ok) (scan zi : Bool) (tables : Tables)
    (now : Instant) :
    (sentOf isTickle p.addr (p.timers scan zi tables now).out.acts).length =
      (p.watch.map fun w => (Watchdog.tick liveness now w).2).getD 0 := by
  have htickle : sentOf isTickle p.addr [p.send p.connLocal 0 .tickle] =
      [(p.connLocal, 0, .tickle)] := by
    rw [sentOf_send, onWire_one rfl (show Cmd.tickle.wire = some .tickle by decide +kernel)]
  rw [timers_sentOf rfl rfl (fun code hd => ?_) hok scan zi tables now]
  · unfold receiverTimers watch
    cases hr : p.receiver with
    | connected =>
      dsimp only [Option.map_some, Option.getD_some, Watchdog.tick, liveness]
      rw [show since now p.lastHeard = now - p.lastHeard from rfl]
      split_ifs
      · exact congrArg List.length htickle
      · rfl
    | waitTickleAck =>
      dsimp only [Option.map_some, Option.getD_some, Watchdog.tick, liveness]
      rw [show since now p.recvAt = now - p.recvAt from rfl]
      split_ifs
      · exact congrArg List.length
          ((sentOf_sendSequenced isTickle p.closeReceiver nullUpd [] now).trans (onWire_other rfl))
      · rfl
      · exact congrArg List.length htickle
      · rfl
    | waitOpenRsp | waitRiRsp =>
      simp only [reduceCtorEq, if_true, if_false, Option.map_none, Option.getD_none]
      split_ifs
      · rfl
      · exact congrArg List.length (p.sentOf_send_nil p.connLocal 0 rfl)
      · rfl
    | unconnected => rfl
  · simp only [isData, isTickle, decide_eq_true_eq, decide_eq_false_iff_not] at hd ⊢
    grind

/-- A ping pokes the watchdog. -/
theorem pinged_watch (p : Peer) (now : Instant) :
    (p.pinged now).watch = p.watch.map (Watchdog.poke now) := by
  unfold pinged watch
  cases hr : p.receiver with
  | connected => rfl
  | waitTickleAck => simp [Watchdog.poke]
  | _ => simp [hr]

end Peer

namespace Peers

/-! ### The fate of a silent peer -/

/-- What may still happen once a peer is silent. -/
inductive Beat
  | tick (tables : Tables)
  | ping

def Beat.call (b : Beat × Instant) : Call × Instant :=
  match b.1 with
  | .tick tables => (.tick tables, b.2)
  | .ping => (.ping, b.2)

def Beat.isTick (b : Beat × Instant) : Bool :=
  match b.1 with
  | .tick _ => true
  | .ping => false

/-- Ticks alone, each with the tables it finds. -/
def ticks (ts : List (Tables × Instant)) : List (Beat × Instant) := ts.map fun t => (.tick t.1, t.2)

/-- The tick drops the routes of a peer from the tables. -/
def drops (s : Peers) (ip : Ipv4Addr) (now : Instant) : Bool :=
  (s.tickOps now).any fun op =>
    match op with
    | .removeTarget g => g = .peer ip
    | _ => false

/-- The Tickles a call sends an address. -/
def tickles (s : Peers) (ip : Ipv4Addr) (c : Call × Instant) : ℕ :=
  (sentOf isTickle ip (s.call c).2).length

/-- The tick that drops the routes of a peer, counting from `k`, and how many Tickles the ticks
before it sent, counting from `n`. -/
def fate (ip : Ipv4Addr) : ℕ → ℕ → Peers → List (Beat × Instant) → Option (ℕ × ℕ)
  | _, _, _, [] => none
  | k, n, s, (.tick tables, now) :: bs =>
    if s.drops ip now then some (k, n)
    else fate ip (k + 1) (n + s.tickles ip (.tick tables, now)) (s.next (.tick tables, now)) bs
  | k, n, s, (.ping, now) :: bs => fate ip k n (s.next (.ping, now)) bs

/-- How far the test of the connection to an address is. -/
def watch (s : Peers) (ip : Ipv4Addr) : Option Watchdog.State := (s.entry ip).bind Peer.watch

theorem drops_eq {s : Peers} (hs : s.Reached) (ip : Ipv4Addr) (now : Instant) :
    s.drops ip now = (s.watch ip).any fun w => (Watchdog.tick liveness now w).1.isNone := by
  have hdrops : s.drops ip now ↔ ∃ p, s.entry ip = some p ∧ p.ticklesOut now := by
    unfold drops
    rw [List.any_eq_true]
    constructor
    · rintro ⟨op, hop, hg⟩
      obtain ⟨ip', p, hp, ht, rfl⟩ := mem_tickOps.1 hop
      rw [hs.addr ip' p hp, decide_eq_true_eq] at hg
      cases hg
      exact ⟨p, hp, ht⟩
    · rintro ⟨p, hp, ht⟩
      exact ⟨.removeTarget (.peer ip), mem_tickOps.2 ⟨ip, p, hp, ht, by rw [hs.addr ip p hp]⟩,
        by simp⟩
  rw [Bool.eq_iff_iff, hdrops, watch]
  cases hp : s.entry ip with
  | none => simp
  | some p => simp [p.ticklesOut_eq now]

theorem tickles_eq {s : Peers} (hs : s.Reached) (ip : Ipv4Addr) (tables : Tables) (now : Instant) :
    s.tickles ip (.tick tables, now) =
      ((s.watch ip).map fun w => (Watchdog.tick liveness now w).2).getD 0 := by
  have hf : Core.Filed ⟨tables, s⟩ := hs.addr
  obtain ⟨hnone, hsome⟩ := Core.sentTo_tick hf ip now
  unfold tickles
  rw [sentOf, show (s.call (.tick tables, now)).2 =
    (Core.step ⟨tables, s⟩ (.tick, now)).2 from rfl, watch]
  cases hp : s.entry ip with
  | none =>
    rw [hnone hp]
    rfl
  | some p =>
    obtain ⟨t, ht⟩ := hsome p hp
    have hlen := Peer.timers_tickles (hs.ok ip p hp) (RECONNECT_SCAN ≤ since now s.lastScan)
      (ZI_REREQUEST ≤ since now s.lastZi) t now
    rw [sentOf, hs.addr ip p hp] at hlen
    rw [ht]
    exact hlen

theorem tick_watch (s : Peers) (ip : Ipv4Addr) (tables : Tables) (now : Instant) :
    (s.next (.tick tables, now)).watch ip =
      (s.watch ip).bind fun w => (Watchdog.tick liveness now w).1 := by
  unfold watch
  rw [entry_ticked]
  cases s.entry ip with
  | none => rfl
  | some p =>
    have htimed := p.timed_watch (RECONNECT_SCAN ≤ since now s.lastScan) now
    rw [Option.map_some, Option.bind_some, ← htimed]
    -- An entry that is dropped has no connection left to test.
    cases hk : keeps now (p.timed (RECONNECT_SCAN ≤ since now s.lastScan) now) with
    | true =>
      rw [Option.filter_some, if_pos hk]
      rfl
    | false =>
      rw [Option.filter_some, if_neg (by simp [hk]), Option.bind_none]
      simp only [keeps, decide_eq_false_iff_not] at hk
      push Not at hk
      unfold Peer.watch
      rw [hk.2.1]

theorem ping_watch (s : Peers) (ip : Ipv4Addr) (now : Instant) :
    (s.next (.ping, now)).watch ip = (s.watch ip).map (Watchdog.poke now) := by
  have hentry : (s.next (.ping, now)).entry ip = _ := s.ping_get? ip now
  unfold watch
  rw [hentry, show s.peers.get? ip = s.entry ip from rfl]
  cases s.entry ip with
  | none => rfl
  | some p => exact p.pinged_watch now

/-! ### The watchdog behind it -/

/-- A tick or a ping is a beat of the watchdog. -/
def Beat.beat (b : Beat × Instant) : Watchdog.Beat × ℕ :=
  match b.1 with
  | .tick _ => (.tick, b.2)
  | .ping => (.poke, b.2)

/-- **The refinement.** A silent peer's routes are dropped when the watchdog gives it up, after as
many Tickles as it sent probes. -/
theorem fate_eq {s : Peers} (hs : s.Reached) (ip : Ipv4Addr) (k n : ℕ)
    (bs : List (Beat × Instant)) :
    fate ip k n s bs =
      (s.watch ip).bind fun w => Watchdog.fate liveness k n w (bs.map Beat.beat) := by
  induction bs generalizing s k n with
  | nil => cases s.watch ip <;> rfl
  | cons b bs ih =>
    obtain ⟨b, now⟩ := b
    cases b with
    | tick tables =>
      rw [fate, drops_eq hs, tickles_eq hs, ih (hs.next _), tick_watch]
      cases s.watch ip with
      | none => rfl
      | some w =>
        rw [Option.any_some, Option.map_some, Option.getD_some, Option.bind_some, Option.bind_some]
        cases ht : Watchdog.tick liveness now w with
        | mk o m =>
          cases o with
          | none => exact (Watchdog.fate_dead ht).symm
          | some w' => exact (Watchdog.fate_tick ht).symm
    | ping =>
      rw [fate, ih (hs.next _), ping_watch]
      cases s.watch ip <;> rfl

/-- The call is no ping of a connected peer. -/
def SparesConnected (ip : Ipv4Addr) (s : Peers) (c : Call × Instant) : Prop :=
  c.1 = .ping → ∀ p, s.entry ip = some p → p.receiver ≠ .connected

theorem spares_iff (s : Peers) (ip : Ipv4Addr) (bs : List (Beat × Instant)) :
    Machine.Guarded next (SparesConnected ip) s (bs.map Beat.call) ↔
      ∀ w, s.watch ip = some w → Watchdog.Undisturbed liveness w (bs.map Beat.beat) := by
  induction bs generalizing s with
  | nil => exact ⟨fun _ _ _ => trivial, fun _ => trivial⟩
  | cons b bs ih =>
    obtain ⟨b, now⟩ := b
    cases b with
    | tick tables =>
      rw [List.map_cons, List.map_cons, Machine.guarded_cons, ih]
      have hwatch := tick_watch s ip tables now
      constructor
      · rintro ⟨-, h⟩ w hw w' hw'
        refine h w' (hwatch.trans ?_)
        rw [hw]
        exact hw'
      · intro h
        refine ⟨fun hc => (by cases hc), fun w' hw' => ?_⟩
        obtain ⟨w, hw, hw'⟩ := Option.bind_eq_some_iff.1 (hwatch.symm.trans hw')
        exact h w hw w' hw'
    | ping =>
      rw [List.map_cons, List.map_cons, Machine.guarded_cons, ih]
      have hwatch := ping_watch s ip now
      -- A peer whose watchdog trusts it is a connected one.
      have htrusted : SparesConnected ip s (Beat.call (.ping, now)) ↔
          ∀ w, s.watch ip = some w → ∀ heard, w ≠ .trusted heard := by
        unfold SparesConnected watch
        constructor
        · rintro h w hw heard rfl
          obtain ⟨p, hp, hw⟩ := Option.bind_eq_some_iff.1 hw
          unfold Peer.watch at hw
          split at hw
          · exact h rfl p hp ‹_›
          · cases hw
          · cases hw
        · intro h _ p hp hr
          refine h (.trusted p.lastHeard) ?_ p.lastHeard rfl
          rw [hp, Option.bind_some, Peer.watch, hr]
      rw [htrusted]
      constructor
      · rintro ⟨h, hrest⟩ w hw
        refine ⟨h w hw, hrest _ (hwatch.trans ?_)⟩
        rw [hw]
        rfl
      · intro h
        refine ⟨fun w hw => (h w hw).1, fun w' hw' => ?_⟩
        obtain ⟨w, hw, rfl⟩ := Option.map_eq_some_iff.1 (hwatch.symm.trans hw')
        exact (h w hw).2

theorem map_beat_ticks (ts : List (Tables × Instant)) :
    (ticks ts).map Beat.beat = Watchdog.ticks (ts.map Prod.snd) := by
  simp [ticks, Watchdog.ticks, Beat.beat]

theorem map_beat_filter (bs : List (Beat × Instant)) :
    (bs.filter Beat.isTick).map Beat.beat = (bs.map Beat.beat).filter Watchdog.isTick := by
  rw [List.filter_map]
  refine congrArg _ (List.filter_congr fun b _ => ?_)
  obtain ⟨b, now⟩ := b
  cases b <;> rfl

/-- **When a ping is neutral.** In every run, taking the pings out of what follows the last packet
of a peer changes neither the tick that drops its routes nor the number of Tickles that the ticks
before it send, whatever ticks come after, just in case no ping finds the peer connected. -/
theorem pings_neutral_iff («local» : Di) (openPeering : Bool) (configured : List Str)
    (nanos : UInt16) (start : Instant) (cs : List (Call × Instant)) (ip : Ipv4Addr)
    (bs : List (Beat × Instant)) (later : Instant) :
    let s := (new «local» openPeering configured nanos start).after cs
    (∀ ts, List.IsChain (· ≤ ·) (later :: ts.map Prod.snd) →
        fate ip 0 0 s (bs ++ ticks ts) = fate ip 0 0 s (bs.filter Beat.isTick ++ ticks ts)) ↔
      Machine.Guarded next (SparesConnected ip) s (bs.map Beat.call) := by
  intro s
  have hs : s.Reached := ⟨_, _, _, _, _, cs, rfl⟩
  rw [spares_iff]
  simp only [fate_eq hs, List.map_append, map_beat_ticks, map_beat_filter]
  cases s.watch ip with
  | none => simp
  | some w =>
    simp only [Option.bind_some]
    have hneutral := Watchdog.neutral_iff liveness 0 0 w (bs.map Beat.beat) later
    constructor
    · rintro h w' ⟨⟩
      refine hneutral.1 fun ts hts => ?_
      have hmap : (ts.map fun now => (Tables.new, now)).map Prod.snd = ts := by simp
      have hlift := h (ts.map fun now => (Tables.new, now)) (by rw [hmap]; exact hts)
      rw [hmap] at hlift
      exact hlift
    · intro h ts hts
      exact hneutral.2 (h w rfl) _ hts

/-- Ticks ten seconds apart, from eleven seconds on. -/
def tenTicks : List (Tables × Instant) :=
  (List.range 10).map fun i => (.new, fromSecs (10 * i + 11))

/-- One ping, a second after the last packet, drops the routes of a peer that would otherwise not
have had a second Tickle. -/
theorem ping_hastens :
    ¬∀ («local» : Di) (openPeering : Bool) (configured : List Str) (nanos : UInt16)
        (start : Instant) (cs : List (Call × Instant)) (ip : Ipv4Addr) (bs : List (Beat × Instant)),
      let s := (new «local» openPeering configured nanos start).after cs
      fate ip 0 0 s bs = fate ip 0 0 s (bs.filter Beat.isTick) := by
  intro h
  have hsame := h (.ip ⟨192, 0, 2, 9⟩) true [] 0 0 answers ⟨192, 0, 2, 1⟩
    ((.ping, fromSecs 1) :: ticks tenTicks)
  revert hsame
  decide +kernel

end Peers

end AppleTalk
