import AppleTalk.Wire.Services

/-!
# AURP packets

The tunnel protocol's wire forms (`wire/aurp.rs`): domain identifiers, the routing commands with
their flags and bodies, and the two kinds of packet.
-/

namespace AppleTalk

open Octets

/-- A domain identifier: the four-byte IP form, or the null form. -/
inductive Di
  | null
  | ip (a : Ipv4Addr)
  deriving DecidableEq, Repr

structure DomainHeader where
  dst : Di
  src : Di
  deriving DecidableEq, Repr

/-- One update event. Code 0 is the null event, whose tuple is ignored. -/
structure EventTuple where
  code : UInt8
  tuple : NetworkTuple
  deriving DecidableEq, Repr

inductive Cmd
  | riReq (sui : UInt16)
  | riRsp (last : Bool) (tuples : List NetworkTuple)
  | riAck (szi : Bool)
  | riUpd (events : List EventTuple)
  | rd (code : Int16)
  | ziReq (nets : List UInt16)
  /-- `extended` holds the total of the whole list for subcode 2, and is `none` for subcode 1. -/
  | ziRsp (extended : Option UInt16) (zones : List (UInt16 × Str))
  | gznReq (zone : Str)
  /-- No tuples is "not supported" (count -1). -/
  | gznRsp (zone : Str) (tuples : Option (List NetworkTuple))
  | gdzlReq (start : UInt16)
  | gdzlRsp (last : Bool) (start : Int16) (zones : List Str)
  | openReq (sui version : UInt16) (options : List (UInt8 × Bytes))
  | openRsp (env : UInt16) (rateOrErr : Int16) (options : List (UInt8 × Bytes))
  | tickle
  | tickleAck
  deriving DecidableEq

inductive Aurp
  | data (dh : DomainHeader) (ddp : Bytes)
  | routing (dh : DomainHeader) (conn seq : UInt16) (cmd : Cmd)
  deriving DecidableEq

def VERSION : UInt16 := 1
def TYPE_DATA : UInt16 := 2
def TYPE_ROUTING : UInt16 := 3

/-- The environment flags of an Open-Rsp; the rest of the field is reserved. -/
def ENV : UInt16 := 0x6000

/-- The placeholder in a null event, which is one byte and carries no tuple. -/
def NO_TUPLE : NetworkTuple := { range := (0, 0), extended := false, distance := 0 }

/-- Where an optimized zone tuple's offset is measured from in the body. -/
def ZONE_BASE : ℕ := 6

/-- A 16-bit word as two's complement. -/
def toI16 (n : UInt16) : Int16 := n.toInt16

/-! ### Events and options -/

/-- An event tuple and the bytes after it: a code, then a network tuple whose extended form has
no trailing byte. The null event is a single byte. -/
def parseEvent : Bytes → Option (EventTuple × Bytes)
  | [] => none
  | code :: p =>
    if 5 < code then none
    else if code = 0 then some ({ code := code, tuple := NO_TUPLE }, p)
    else
      match p with
      | b0 :: b1 :: b2 :: rest =>
        if b2 &&& 0x80 = 0 then
          some ({ code := code, tuple :=
            { range := (be16 b0 b1, be16 b0 b1), extended := false, distance := b2 } }, rest)
        else
          match rest with
          | e0 :: e1 :: rest =>
            some ({ code := code, tuple :=
              { range := (be16 b0 b1, be16 e0 e1), extended := true
                distance := b2 &&& 0x7f } }, rest)
          | _ => none
      | _ => none

def encodeEvent (e : EventTuple) : Bytes :=
  if e.code = 0 then [e.code]
  else if !e.tuple.extended then e.code :: (ofWord e.tuple.range.1 ++ [e.tuple.distance &&& 0x7f])
  else e.code :: (ofWord e.tuple.range.1 ++ [e.tuple.distance ||| 0x80] ++
    ofWord e.tuple.range.2)

/-- One option and the bytes after it. The length counts the type byte, so it is never 0. -/
def parseOption : Bytes → Option ((UInt8 × Bytes) × Bytes)
  | [] => none
  | len :: p =>
    if len = 0 ∨ p.length < len.toNat then none
    else
      match p.take len.toNat with
      | [] => none
      | t :: data => some ((t, data), p.drop len.toNat)

/-- Exactly `count` options and nothing after them. -/
def parseOptions (p : Bytes) (count : UInt8) : Option (List (UInt8 × Bytes)) :=
  match times parseOption count.toNat p with
  | some (options, []) => some options
  | _ => none

def encodeOptions (options : List (UInt8 × Bytes)) : Bytes :=
  UInt8.ofNat options.length ::
    options.flatMap fun o => UInt8.ofNat (1 + o.2.length) :: o.1 :: o.2

/-! ### Zone information -/

/-- One zone tuple of a ZI-Rsp and the bytes after it. The long form spells the name out; the
optimized form is an offset into `b`, the whole body. -/
def ziTuple (b : Bytes) : Bytes → Option ((UInt16 × Str) × Bytes)
  | t0 :: t1 :: t2 :: rest =>
    if t2 &&& 0x80 = 0 then
      (pstring (t2 :: rest)).map fun r => ((be16 t0 t1, r.1), r.2)
    else
      match rest with
      | t3 :: rest =>
        let off := (be16 t2 t3 &&& 0x7fff).toNat
        match b.drop (ZONE_BASE + off) with
        | [] => none
        | len :: name =>
          -- It points at another offset, not at a name.
          if len &&& 0x80 ≠ 0 then none
          else (pstring (len :: name)).map fun r => ((be16 t0 t1, r.1), rest)
      | [] => none
  | _ => none

/-- A ZI-Rsp from its whole body, subcode included. -/
def parseZiRsp (sub : UInt16) (b : Bytes) : Option Cmd := do
  let (count, rest) ← word (b.drop 2)
  let zones ← many (ziTuple b) rest
  return .ziRsp (if sub = 2 then some count else none) zones

/-- The zone tuples, each name spelled out once. `seen` has the offset of every name written so
far and `used` is how many bytes the tuples before have taken. -/
def encodeZones (seen : Str → Option UInt16) (used : ℕ) : List (UInt16 × Str) → Bytes
  | [] => []
  | (net, name) :: zones =>
    match seen name with
    | some off => ofWord net ++ ofWord (off ||| 0x8000) ++ encodeZones seen (used + 4) zones
    | none =>
      ofWord net ++ putPstring name ++
        encodeZones (Function.update seen name (some (UInt16.ofNat used)))
          (used + 2 + (putPstring name).length) zones

def encodeZiRsp (extended : Option UInt16) (zones : List (UInt16 × Str)) : Bytes :=
  (match extended with
    | some total => ofWord 2 ++ ofWord total
    | none => ofWord 1 ++ ofWord (UInt16.ofNat zones.length)) ++
  encodeZones (fun _ => none) 0 zones

/-! ### Commands -/

namespace Cmd

/-- All four "send update information" flags. -/
def ALL_SUI : UInt16 := 0x7800

/-- On an RI-Ack: also send the zones of the networks just acked. -/
def SZI : UInt16 := 0x4000

/-- Last packet of a sequence. -/
def LAST : UInt16 := 0x8000

/-- The command code a command travels as. -/
def code : Cmd → UInt16
  | .riReq _ => 1
  | .riRsp .. => 2
  | .riAck _ => 3
  | .riUpd _ => 4
  | .rd _ => 5
  | .ziReq _ | .gznReq _ | .gdzlReq _ => 6
  | .ziRsp .. | .gznRsp .. | .gdzlRsp .. => 7
  | .openReq .. => 8
  | .openRsp .. => 9
  | .tickle => 14
  | .tickleAck => 15

/-- The flags word; everything not listed is reserved and written 0. -/
def flags : Cmd → UInt16
  | .riReq sui | .openReq sui _ _ => sui &&& ALL_SUI
  | .riRsp last _ | .gdzlRsp last _ _ => if last then LAST else 0
  | .riAck szi => if szi then SZI else 0
  | .openRsp env _ _ => env &&& ENV
  | _ => 0

/-- Commands 6 and 7 carry a two-byte subcode as the first field of the body. -/
def parseSub (code flags : UInt16) (b : Bytes) : Option Cmd := do
  let (sub, rest) ← word b
  match code.toNat, sub.toNat with
  | 6, 1 => (many word rest).map .ziReq
  | 7, 1 | 7, 2 => parseZiRsp sub b
  | 6, 3 =>
    let (zone, tail) ← pstring rest
    if tail.isEmpty then some (.gznReq zone) else none
  | 7, 3 =>
    let (zone, tail) ← pstring rest
    let (count, rest) ← word tail
    if toI16 count < 0 then
      if toI16 count = -1 ∧ rest = [] then some (.gznRsp zone none) else none
    else
      match times NetworkTuple.parse count.toNat rest with
      | some (tuples, []) => some (.gznRsp zone (some tuples))
      | _ => none
  | 6, 4 =>
    match word rest with
    | some (start, []) => some (.gdzlReq start)
    | _ => none
  | 7, 4 =>
    let (start, rest) ← word rest
    let zones ← many pstring rest
    return .gdzlRsp (flags &&& LAST ≠ 0) (toI16 start) zones
  | _, _ => none

def parse (code flags : UInt16) (b : Bytes) : Option Cmd :=
  match code.toNat with
  | 1 => if b.isEmpty then some (.riReq (flags &&& ALL_SUI)) else none
  | 2 => (many NetworkTuple.parse b).map (.riRsp (flags &&& LAST ≠ 0))
  | 3 => if b.isEmpty then some (.riAck (flags &&& SZI ≠ 0)) else none
  | 4 => (many parseEvent b).map .riUpd
  | 5 =>
    match b with
    | [hi, lo] => some (.rd (toI16 (be16 hi lo)))
    | _ => none
  | 6 | 7 => parseSub code flags b
  | 8 =>
    match b with
    | h0 :: h1 :: count :: rest =>
      (parseOptions rest count).map (.openReq (flags &&& ALL_SUI) (be16 h0 h1))
    | _ => none
  | 9 =>
    match b with
    | h0 :: h1 :: count :: rest =>
      (parseOptions rest count).map (.openRsp (flags &&& ENV) (toI16 (be16 h0 h1)))
    | _ => none
  | 14 => if b.isEmpty then some .tickle else none
  | 15 => if b.isEmpty then some .tickleAck else none
  | _ => none

/-- The body after the routing header, subcode included. AURP ends an extended tuple in 0 where
RTMP has its version marker. -/
def encodeBody : Cmd → Bytes
  | .riReq _ | .riAck _ | .tickle | .tickleAck => []
  | .riRsp _ tuples => tuples.flatMap (NetworkTuple.encodeWith · 0x00)
  | .riUpd events => events.flatMap encodeEvent
  | .rd code => ofWord code.toUInt16
  | .ziReq nets => ofWord 1 ++ nets.flatMap ofWord
  | .ziRsp extended zones => encodeZiRsp extended zones
  | .gznReq zone => ofWord 3 ++ putPstring zone
  | .gznRsp zone tuples =>
    ofWord 3 ++ putPstring zone ++
      match tuples with
      | none => ofWord (-1 : Int16).toUInt16
      | some tuples =>
        ofWord (UInt16.ofNat tuples.length) ++ tuples.flatMap (NetworkTuple.encodeWith · 0x00)
  | .gdzlReq start => ofWord 4 ++ ofWord start
  | .gdzlRsp _ start zones => ofWord 4 ++ ofWord start.toUInt16 ++ zones.flatMap putPstring
  | .openReq _ version options => ofWord version ++ encodeOptions options
  | .openRsp _ rateOrErr options => ofWord rateOrErr.toUInt16 ++ encodeOptions options

end Cmd

/-! ### Packets -/

/-- A domain identifier and the bytes after it: a length byte, an authority byte, then the
authority's own bytes. -/
def parseDi : Bytes → Option (Di × Bytes)
  | 1 :: 0 :: rest => some (.null, rest)
  | 7 :: 1 :: _ :: _ :: a :: b :: c :: d :: rest => some (.ip ⟨a, b, c, d⟩, rest)
  | _ => none

def encodeDi : Di → Bytes
  | .null => [0x01, 0x00]
  | .ip a => [0x07, 0x01, 0x00, 0x00] ++ a.octets

namespace Aurp

def parse (p : Bytes) : Option Aurp := do
  let (dst, rest) ← parseDi p
  let (src, rest) ← parseDi rest
  match rest with
  | v0 :: v1 :: _ :: _ :: t0 :: t1 :: body =>
    if be16 v0 v1 ≠ VERSION then none
    else if be16 t0 t1 = TYPE_DATA then
      -- One whole datagram and nothing else.
      match body with
      | h0 :: h1 :: _ =>
        if 13 ≤ body.length ∧ (be16 (h0 &&& 0x03) h1).toNat = body.length then
          some (.data { dst := dst, src := src } body)
        else none
      | _ => none
    else if be16 t0 t1 = TYPE_ROUTING then
      match body with
      | c0 :: c1 :: s0 :: s1 :: o0 :: o1 :: f0 :: f1 :: b =>
        (Cmd.parse (be16 o0 o1) (be16 f0 f1) b).map
          (.routing { dst := dst, src := src } (be16 c0 c1) (be16 s0 s1))
      | _ => none
    else none
  | _ => none

def toBytes : Aurp → Bytes
  | .data dh ddp =>
    encodeDi dh.dst ++ encodeDi dh.src ++ ofWord VERSION ++ [0, 0] ++ ofWord TYPE_DATA ++ ddp
  | .routing dh conn seq cmd =>
    encodeDi dh.dst ++ encodeDi dh.src ++ ofWord VERSION ++ [0, 0] ++ ofWord TYPE_ROUTING ++
      ofWord conn ++ ofWord seq ++ ofWord cmd.code ++ ofWord cmd.flags ++ cmd.encodeBody

end Aurp

/-! ### What a packet reads back as -/

theorem consumes_parseEvent : Consumes parseEvent := by
  intro bs e rest h
  unfold parseEvent at h
  split at h
  · cases h
  · split_ifs at h
    · simp only [Option.some.injEq, Prod.mk.injEq] at h
      obtain ⟨-, rfl⟩ := h
      simp
    · split at h
      · split_ifs at h
        · simp only [Option.some.injEq, Prod.mk.injEq] at h
          obtain ⟨-, rfl⟩ := h
          simp; omega
        · split at h
          · simp only [Option.some.injEq, Prod.mk.injEq] at h
            obtain ⟨-, rfl⟩ := h
            simp; omega
          · cases h
      · cases h

/-- An event as it reads back. -/
def EventTuple.onWire (e : EventTuple) : EventTuple :=
  { e with tuple := if e.code = 0 then NO_TUPLE else e.tuple.onWire }

theorem parseEvent_encodeEvent (e : EventTuple) (hc : e.code ≤ 5) (hd : e.tuple.distance ≤ 127)
    (rest : Bytes) : parseEvent (encodeEvent e ++ rest) = some (e.onWire, rest) := by
  obtain ⟨h1, h2, h3, h4⟩ := NetworkTuple.distance_bits hd
  obtain ⟨code, ⟨⟨s, t⟩, ext, d⟩⟩ := e
  simp only at hc h1 h2 h3 h4
  have hc' : ¬ 5 < code := by grind
  by_cases h0 : code = 0
  · simp [encodeEvent, parseEvent, EventTuple.onWire, h0]
  · cases ext
    · simp [encodeEvent, parseEvent, EventTuple.onWire, NetworkTuple.onWire, ofWord, h0, hc', h1,
        h2]
    · simp [encodeEvent, parseEvent, EventTuple.onWire, NetworkTuple.onWire, ofWord, h0, hc', h3,
        h4]

namespace Cmd

theorem code_of_parseZiRsp {sub : UInt16} {b : Bytes} {c : Cmd} (h : parseZiRsp sub b = some c) :
    c.code = 7 := by
  simp only [parseZiRsp, Option.bind_eq_bind, Option.bind_eq_some_iff] at h
  obtain ⟨_, -, _, -, h⟩ := h
  cases h
  rfl

/-- A command read behind a subcode has the code it was read under. -/
theorem code_of_parseSub {code flags : UInt16} {b : Bytes} {c : Cmd}
    (h : parseSub code flags b = some c) : c.code = code := by
  have hn : ∀ n : ℕ, code.toNat = n → UInt16.ofNat n = code := fun n hn => by
    rw [← hn]; simp
  simp only [parseSub, Option.bind_eq_bind, Option.bind_eq_some_iff] at h
  obtain ⟨⟨sub, rest⟩, -, h⟩ := h
  split at h <;> rename_i hc _
  · obtain ⟨_, -, rfl⟩ := Option.map_eq_some_iff.1 h
    exact hn _ hc
  · rw [code_of_parseZiRsp h]
    exact hn _ hc
  · rw [code_of_parseZiRsp h]
    exact hn _ hc
  · simp only [Option.bind_eq_some_iff] at h
    obtain ⟨_, -, h⟩ := h
    split_ifs at h
    cases h
    exact hn _ hc
  · simp only [Option.bind_eq_some_iff] at h
    obtain ⟨_, -, _, -, h⟩ := h
    split_ifs at h
    · cases h
      exact hn _ hc
    · split at h
      · cases h
        exact hn _ hc
      · cases h
  · split at h
    · cases h
      exact hn _ hc
    · cases h
  · simp only [Option.bind_eq_some_iff] at h
    obtain ⟨_, -, _, -, h⟩ := h
    cases h
    exact hn _ hc
  · cases h

/-- A command read under a code has that code. -/
theorem code_of_parse {code flags : UInt16} {b : Bytes} {c : Cmd}
    (h : parse code flags b = some c) : c.code = code := by
  have hn : ∀ n : ℕ, code.toNat = n → UInt16.ofNat n = code := fun n hn => by
    rw [← hn]; simp
  unfold parse at h
  split at h <;> rename_i hc
  · split_ifs at h
    cases h
    exact hn _ hc
  · obtain ⟨_, -, rfl⟩ := Option.map_eq_some_iff.1 h
    exact hn _ hc
  · split_ifs at h
    cases h
    exact hn _ hc
  · obtain ⟨_, -, rfl⟩ := Option.map_eq_some_iff.1 h
    exact hn _ hc
  · split at h
    · cases h
      exact hn _ hc
    · cases h
  · exact code_of_parseSub h
  · exact code_of_parseSub h
  · split at h
    · obtain ⟨_, -, rfl⟩ := Option.map_eq_some_iff.1 h
      exact hn _ hc
    · cases h
  · split at h
    · obtain ⟨_, -, rfl⟩ := Option.map_eq_some_iff.1 h
      exact hn _ hc
    · cases h
  · split_ifs at h
    cases h
    exact hn _ hc
  · split_ifs at h
    cases h
    exact hn _ hc
  · cases h

/-- The RI-Req of every connection reads back as itself. -/
@[simp] theorem parse_riReq :
    parse (riReq ALL_SUI).code (riReq ALL_SUI).flags (riReq ALL_SUI).encodeBody =
      some (riReq ALL_SUI) := by decide

@[simp] theorem parse_openReq :
    parse (openReq ALL_SUI 1 []).code (openReq ALL_SUI 1 []).flags
      (openReq ALL_SUI 1 []).encodeBody = some (openReq ALL_SUI 1 []) := by decide

theorem parse_riAck (szi : Bool) :
    parse (riAck szi).code (riAck szi).flags (riAck szi).encodeBody = some (riAck szi) := by
  cases szi <;> decide

/-- An RI-Rsp reads back with its tuples. -/
theorem parse_riRsp (last : Bool) {tuples : List NetworkTuple}
    (h : ∀ t ∈ tuples, t.distance ≤ 127) :
    parse (riRsp last tuples).code (riRsp last tuples).flags (riRsp last tuples).encodeBody =
      some (riRsp last (tuples.map NetworkTuple.onWire)) := by
  have hm : many NetworkTuple.parse (tuples.flatMap (NetworkTuple.encodeWith · 0x00)) =
      some (tuples.map NetworkTuple.onWire) :=
    many_flatMap NetworkTuple.consumes_parse fun t ht rest =>
      NetworkTuple.parse_encodeWith t 0 (h t ht) rest
  have hl : decide ((riRsp last tuples).flags &&& LAST ≠ 0) = last := by
    cases last <;> simp [flags, LAST]
  show (many NetworkTuple.parse _).map (riRsp (decide ((riRsp last tuples).flags &&& LAST ≠ 0)))
    = _
  rw [hl]
  simp only [encodeBody, hm, Option.map_some]

/-- An RI-Upd reads back with its events. -/
theorem parse_riUpd {events : List EventTuple}
    (h : ∀ e ∈ events, e.code ≤ 5 ∧ e.tuple.distance ≤ 127) :
    parse (riUpd events).code (riUpd events).flags (riUpd events).encodeBody =
      some (riUpd (events.map EventTuple.onWire)) := by
  have hm : many parseEvent (events.flatMap encodeEvent) =
      some (events.map EventTuple.onWire) :=
    many_flatMap consumes_parseEvent fun e he rest =>
      parseEvent_encodeEvent e (h e he).1 (h e he).2 rest
  show (many parseEvent _).map _ = _
  simp only [encodeBody, hm, Option.map_some]

end Cmd

@[simp] theorem parseDi_encodeDi (di : Di) (rest : Bytes) :
    parseDi (encodeDi di ++ rest) = some (di, rest) := by
  cases di <;> rfl

namespace Aurp

/-- **A routing packet reads back** with its header, its connection and its sequence number, and
whatever its command reads back as. -/
theorem parse_routing (dh : DomainHeader) (conn seq : UInt16) (cmd : Cmd) :
    parse (routing dh conn seq cmd).toBytes =
      (Cmd.parse cmd.code cmd.flags cmd.encodeBody).map (routing dh conn seq) := by
  simp only [toBytes, parse, List.append_assoc, parseDi_encodeDi, Option.bind_eq_bind,
    Option.bind_some, ofWord, List.cons_append, List.nil_append, be16_hi8_lo8]
  rw [if_neg (by simp), if_neg (by decide), if_pos trivial]

/-- A data packet reads back as itself or not at all. -/
theorem parse_data {dh : DomainHeader} {ddp : Bytes} {a : Aurp}
    (h : parse (data dh ddp).toBytes = some a) : a = data dh ddp := by
  simp only [toBytes, parse, List.append_assoc, parseDi_encodeDi, Option.bind_eq_bind,
    Option.bind_some, ofWord, List.cons_append, List.nil_append, be16_hi8_lo8] at h
  rw [if_neg (by simp), if_pos trivial] at h
  split at h
  · split_ifs at h
    cases h
    rfl
  · cases h

end Aurp

end AppleTalk
