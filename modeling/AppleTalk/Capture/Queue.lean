import AppleTalk.Lib.Channel
import AppleTalk.Ltoudp.Datagram
import AppleTalk.Tashtalk.Decoder
import AppleTalk.Wire.Frame

/-!
# The event queue

Every link has a reader thread that posts what comes in as events on one bounded queue
(`capture.rs`, `ltoudp.rs`, `tashtalk.rs`). A link's reader discards what does not fit, counts it
and reports the count as soon as there is room. The AURP socket's reader waits instead
(`spawn_aurp` in `router/mod.rs`).
-/

namespace AppleTalk

namespace Capture

/-- Events that may queue before a reader thread starts dropping. -/
def QUEUE : ℕ := 1024

inductive Event
  | packet («at» : Instant) (port : PortId) (packet : Packet)
  | llap (port : PortId) (llap : Llap)
  /-- One datagram off the AURP socket: where it came from, address and port. -/
  | aurp («from» : Ipv4Addr × UInt16) (bytes : Bytes)
  /-- Frames discarded because the queue was full, counted since the last report. -/
  | dropped (n : ℕ)
  | error (text : String)
  deriving DecidableEq, Repr

/-- How many discarded frames an event reports. -/
def Event.lost : Event → ℕ
  | dropped n => n
  | _ => 0

/-! ### What a read makes -/

/-- What a reader gets: bytes, or an error of the device. -/
abbrev Read := Except String Bytes

/-- The capture thread, on one frame off the NIC. -/
def captureLoop (port : PortId) («at» : Instant) : Read → Option Event
  | .ok bytes => (decode bytes).map (.packet «at» port)
  | .error e => some (.error e)

/-- LToUDP's reader, on one datagram off the group. -/
def ltoudpLoop (port : PortId) (id : Ltoudp.SenderId) : Read → Option Event
  | .ok bytes => (Ltoudp.inbound bytes id).map (.llap port)
  | .error e => some (.error e)

/-- TashTalk's reader, on what one read of the serial port gives. -/
def tashtalkLoop (port : PortId) (d : Decoder) : Read → Decoder × List Event
  | .ok bytes =>
    (Machine.run (Machine.next Decoder.feed) d bytes,
      (Machine.outputs Decoder.feed d bytes).reduceOption.map (.llap port))
  | .error e => (d, [.error e])

/-- The AURP reader, on one datagram off the socket. -/
def spawnAurp («from» : Ipv4Addr × UInt16) : Read → Event
  | .ok bytes => .aurp «from» bytes
  | .error e => .error ("aurp: " ++ e)

/-- No reader makes up a report. -/
theorem lost_captureLoop {port : PortId} {«at» : Instant} {r : Read} {e : Event}
    (h : captureLoop port «at» r = some e) : e.lost = 0 := by
  cases r with
  | ok bytes =>
    obtain ⟨p, -, rfl⟩ := Option.map_eq_some_iff.1 h
    rfl
  | error m =>
    obtain rfl := Option.some.inj h
    rfl

theorem lost_ltoudpLoop {port : PortId} {id : Ltoudp.SenderId} {r : Read} {e : Event}
    (h : ltoudpLoop port id r = some e) : e.lost = 0 := by
  cases r with
  | ok bytes =>
    obtain ⟨l, -, rfl⟩ := Option.map_eq_some_iff.1 h
    rfl
  | error m =>
    obtain rfl := Option.some.inj h
    rfl

theorem lost_tashtalkLoop (port : PortId) (d : Decoder) (r : Read) :
    ∀ e ∈ (tashtalkLoop port d r).2, e.lost = 0 := by
  cases r with
  | ok bytes =>
    intro e he
    obtain ⟨l, -, rfl⟩ := List.mem_map.1 he
    rfl
  | error m =>
    intro e he
    obtain rfl := List.mem_singleton.1 he
    rfl

/-! ### The queue -/

/-- A reader thread: a link's, or the AURP socket's. -/
inductive Reader
  | link (port : PortId)
  | aurp
  deriving DecidableEq, Repr

/-- Whether a full queue makes the reader wait. -/
def Reader.waits : Reader → Bool
  | link _ => false
  | aurp => true

/-- The queue, its readers and the run loop that empties it. -/
abbrev Queue := Channel.State Reader Event

namespace Queue

open Channel (Act)

/-- One step of a reader (`report` and `post` are the two halves of its `post`), or of the loop. -/
def next (s : Queue) (a : Act Reader Event) : Queue :=
  Channel.next QUEUE Reader.waits Event.dropped s a

/-- The queue after a run from the start. -/
def after (acts : List (Act Reader Event)) : Queue :=
  Machine.run next (Channel.init Reader Event) acts

/-- A run of the reader threads: each posts what it read before it reads on, and none reads a
report. -/
structure Run (acts : List (Act Reader Event)) : Prop where
  inOrder : Machine.Guarded next Channel.Ready (Channel.init Reader Event) acts
  read : ∀ i, ∀ e ∈ Channel.offers i acts, Event.lost e = 0

/-- The loop never takes an event while a link's reader is between its report and its post. -/
def Undisturbed (acts : List (Act Reader Event)) : Prop :=
  Machine.Guarded next (Channel.Undisturbed Reader.waits) (Channel.init Reader Event) acts

end Queue

end Capture

end AppleTalk
