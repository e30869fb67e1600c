import AppleTalk.Wire.Aurp

/-!
# The AURP codec reads back what it writes

The limits of the wire, and the round trip of every packet within them: names, tuples, events and
options item by item, the zone tuples of a ZI-Rsp with their references back to names already
written, the fifteen commands and the two kinds of packet.
-/

namespace AppleTalk

open Octets

/-! ### The limits of the wire -/

/-- A name of at most 32 characters, each one octet on the wire. -/
def NameOk (s : Str) : Prop := s.length ≤ 32 ∧ ∀ c ∈ s, c.toNat ≤ 0xff

instance (s : Str) : Decidable (NameOk s) :=
  @instDecidableAnd _ _ _ (List.decidableBAll (fun c : Char => c.toNat ≤ 0xff) s)

/-- A tuple whose distance has room, and which is one network when it is not extended. -/
def NetworkTuple.WireOk (t : NetworkTuple) : Prop :=
  t.distance ≤ 127 ∧ (t.extended = false → t.range.1 = t.range.2)

/-- An event with a defined code. The null event carries the null tuple. -/
def EventTuple.WireOk (e : EventTuple) : Prop :=
  e.code ≤ 5 ∧ e.tuple.WireOk ∧ (e.code = 0 → e.tuple = NO_TUPLE)

/-- Options whose count and lengths fit their bytes. -/
def OptionsOk (options : List (UInt8 × Bytes)) : Prop :=
  options.length ≤ 255 ∧ ∀ o ∈ options, o.2.length ≤ 254

def Cmd.WireOk : Cmd → Prop
  | .riReq sui => sui &&& ALL_SUI = sui
  | .riRsp _ tuples => ∀ t ∈ tuples, t.WireOk
  | .riUpd events => ∀ e ∈ events, e.WireOk
  | .ziRsp extended zones => (∀ z ∈ zones, NameOk z.2) ∧ (encodeZiRsp extended zones).length < 32768
  | .gznReq zone => NameOk zone
  | .gznRsp zone tuples => NameOk zone ∧
    ∀ ts, tuples = some ts → ts.length ≤ 32767 ∧ ∀ t ∈ ts, t.WireOk
  | .gdzlRsp _ _ zones => ∀ z ∈ zones, NameOk z
  | .openReq sui _ options => sui &&& ALL_SUI = sui ∧ OptionsOk options
  | .openRsp env _ options => env &&& ENV = env ∧ OptionsOk options
  | .riAck _ | .rd _ | .ziReq _ | .gdzlReq _ | .tickle | .tickleAck => True

/-- One datagram whose 10-bit length field is its size. -/
def DatagramOk (ddp : Bytes) : Prop :=
  13 ≤ ddp.length ∧ ∃ h0 h1 rest, ddp = h0 :: h1 :: rest ∧
    (be16 (h0 &&& 0x03) h1).toNat = ddp.length

def Aurp.WireOk : Aurp → Prop
  | .data _ ddp => DatagramOk ddp
  | .routing _ _ _ cmd => cmd.WireOk

/-! ### Items -/

theorem charOfByte_byteOfChar {c : Char} (h : c.toNat ≤ 0xff) : charOfByte (byteOfChar c) = c := by
  have : (UInt8.ofNat c.toNat).toNat = c.toNat := by
    rw [UInt8.toNat_ofNat']
    omega
  rw [charOfByte, byteOfChar, this, Char.ofNat_toNat]

theorem putPstring_eq {s : Str} (h : NameOk s) :
    putPstring s = UInt8.ofNat s.length :: s.map byteOfChar := by
  simp [putPstring, List.take_of_length_le h.1]

/-- A name reads back. -/
theorem pstring_putPstring {s : Str} (h : NameOk s) (rest : Bytes) :
    pstring (putPstring s ++ rest) = some (s, rest) := by
  have hlen : (UInt8.ofNat s.length).toNat = s.length := by
    have := h.1
    rw [UInt8.toNat_ofNat']
    omega
  have hmap : (s.map byteOfChar).map charOfByte = s := by
    rw [List.map_map]
    exact (List.map_congr_left fun c hc => charOfByte_byteOfChar (h.2 c hc)).trans (List.map_id s)
  rw [putPstring_eq h, List.cons_append, pstring, hlen, if_pos (by simp)]
  simp [hmap]

theorem consumes_pstring : Consumes pstring := by
  intro bs s rest h
  unfold pstring at h
  split at h
  · cases h
  · split_ifs at h
    cases h
    simp only [List.length_drop, List.length_cons]
    omega

theorem consumes_word : Consumes word := by
  intro bs n rest h
  unfold word at h
  split at h
  · cases h
    simp only [List.length_cons]
    omega
  · cases h

theorem word_ofWord (n : UInt16) (rest : Bytes) : word (ofWord n ++ rest) = some (n, rest) := by
  simp [ofWord, word]

theorem NetworkTuple.onWire_eq {t : NetworkTuple} (h : t.WireOk) : t.onWire = t := by
  obtain ⟨⟨s, e⟩, ext, d⟩ := t
  cases ext
  · obtain rfl : s = e := h.2 rfl
    rfl
  · rfl

theorem EventTuple.onWire_eq {e : EventTuple} (h : e.WireOk) : e.onWire = e := by
  unfold onWire
  rw [NetworkTuple.onWire_eq h.2.1]
  split_ifs with h0
  · rw [← h.2.2 h0]
  · rfl

/-- Tuples within the limits read back as they are. -/
theorem map_onWire {ts : List NetworkTuple} (h : ∀ t ∈ ts, t.WireOk) :
    ts.map NetworkTuple.onWire = ts :=
  (List.map_congr_left fun t ht => NetworkTuple.onWire_eq (h t ht)).trans (List.map_id ts)

/-- An option reads back. -/
theorem parseOption_encode {o : UInt8 × Bytes} (h : o.2.length ≤ 254) (rest : Bytes) :
    parseOption ((UInt8.ofNat (1 + o.2.length) :: o.1 :: o.2) ++ rest) = some (o, rest) := by
  have hlen : (UInt8.ofNat (1 + o.2.length)).toNat = 1 + o.2.length := by
    rw [UInt8.toNat_ofNat']
    omega
  have hne : UInt8.ofNat (1 + o.2.length) ≠ 0 := by
    intro h0
    rw [h0] at hlen
    simp at hlen
    omega
  rw [List.cons_append, parseOption, hlen, if_neg]
  · simp [Nat.add_comm 1]
  · rintro (h0 | h0)
    · exact hne h0
    · simp at h0
      omega

theorem parseOptions_encodeOptions {options : List (UInt8 × Bytes)} (h : OptionsOk options) :
    ∃ count rest, encodeOptions options = count :: rest ∧
      parseOptions rest count = some options := by
  refine ⟨_, _, rfl, ?_⟩
  have hcount : (UInt8.ofNat options.length).toNat = options.length := by
    have := h.1
    rw [UInt8.toNat_ofNat']
    omega
  have := times_flatMap (f := id) (l := options)
    (fun o ho rest => parseOption_encode (h.2 o ho) rest) []
  rw [List.append_nil, List.map_id] at this
  rw [parseOptions, hcount, this]

/-! ### Zone tuples -/

/-- The octets hold a string at an offset. -/
def Holds (b : Bytes) (off : ℕ) (s : Bytes) : Prop := ∃ rest, b.drop off = s ++ rest

theorem consumes_ziTuple (b : Bytes) : Consumes (ziTuple b) := by
  intro bs z rest h
  unfold ziTuple at h
  split at h
  · split_ifs at h
    · obtain ⟨r, hr, he⟩ := Option.map_eq_some_iff.1 h
      cases he
      have := consumes_pstring _ _ _ hr
      simp only [List.length_cons] at this ⊢
      omega
    · split at h
      · dsimp only at h
        split at h
        · cases h
        · split_ifs at h
          obtain ⟨r, -, he⟩ := Option.map_eq_some_iff.1 h
          cases he
          simp
          omega
      · cases h
  · cases h

/-- The high bit of a length byte is clear. -/
theorem length_bit {name : Str} (h : NameOk name) : UInt8.ofNat name.length &&& 0x80 = 0 := by
  have key : ∀ n : Fin 33, UInt8.ofNat n.val &&& 0x80 = 0 := by decide
  exact key ⟨name.length, by have := h.1; omega⟩

/-- The high bit marks an offset of at most 15 bits, which is not part of it. -/
theorem offset_bits {off : UInt16} (h : off.toNat < 32768) :
    hi8 (off ||| 0x8000) &&& 0x80 ≠ 0 ∧ (off ||| 0x8000) &&& 0x7fff = off := by
  have hor : (off ||| 0x8000).toNat = 32768 + off.toNat := by
    rw [UInt16.toNat_or, Nat.or_comm]
    exact (Nat.two_pow_add_eq_or_of_lt (i := 15) (by omega) 1).symm
  constructor
  · have key : ∀ n : Fin 256, 128 ≤ n.val → UInt8.ofNat n.val &&& 0x80 ≠ 0 := by decide +kernel
    rw [hi8, hor]
    exact key ⟨(32768 + off.toNat) / 256, by omega⟩ (by simp only; omega)
  · apply UInt16.toNat_inj.1
    rw [UInt16.toNat_and, hor, show (0x7fff : UInt16).toNat = 2 ^ 15 - 1 from rfl,
      Nat.and_two_pow_sub_one_eq_mod]
    omega

/-- A name that is spelled out reads back. -/
theorem ziTuple_long (b : Bytes) (net : UInt16) {name : Str} (h : NameOk name) (rest : Bytes) :
    ziTuple b (ofWord net ++ putPstring name ++ rest) = some ((net, name), rest) := by
  have hbit := length_bit h
  have hp := pstring_putPstring h rest
  rw [putPstring_eq h] at hp ⊢
  simp only [List.cons_append] at hp
  simp only [ofWord, List.cons_append, List.nil_append, ziTuple, hbit, if_true, hp,
    Option.map_some, be16_hi8_lo8]

/-- **A reference back resolves** to the name at its offset. -/
theorem ziTuple_optimized {b : Bytes} (net off : UInt16) {name : Str} (h : NameOk name)
    (hoff : off.toNat < 32768) (hb : Holds b (ZONE_BASE + off.toNat) (putPstring name))
    (rest : Bytes) :
    ziTuple b (ofWord net ++ ofWord (off ||| 0x8000) ++ rest) = some ((net, name), rest) := by
  obtain ⟨hhi, hmask⟩ := offset_bits hoff
  have hbit := length_bit h
  obtain ⟨tail, htail⟩ := hb
  have hp := pstring_putPstring h tail
  rw [putPstring_eq h, List.cons_append] at hp htail
  simp only [ofWord, List.cons_append, List.nil_append, ziTuple, hhi, if_false, be16_hi8_lo8, hmask,
    htail, hbit, ne_eq, not_true_eq_false, hp, Option.map_some]

/-- **The zone tuples read back**, the references back among them. A name is written with its
offset below 32768 recorded, so wherever it is referred to, the body holds it there. -/
theorem many_encodeZones {b : Bytes} (hb : b.length < 32768) {zones : List (UInt16 × Str)}
    (hz : ∀ z ∈ zones, NameOk z.2) {seen : Str → Option UInt16} {used : ℕ}
    (hdrop : b.drop (4 + used) = encodeZones seen used zones)
    (hseen : ∀ name off, seen name = some off →
      off.toNat < 32768 ∧ Holds b (ZONE_BASE + off.toNat) (putPstring name)) :
    many (ziTuple b) (encodeZones seen used zones) = some zones := by
  induction zones generalizing seen used with
  | nil => rfl
  | cons z zones ih =>
    obtain ⟨net, name⟩ := z
    have hname : NameOk name := hz _ List.mem_cons_self
    have hz' : ∀ z ∈ zones, NameOk z.2 := fun z h => hz z (List.mem_cons_of_mem _ h)
    unfold encodeZones at hdrop ⊢
    split
    · rename_i off hoff
      rw [hoff] at hdrop
      obtain ⟨hlt, hat⟩ := hseen name off hoff
      have hrest : b.drop (4 + (used + 4)) = encodeZones seen (used + 4) zones := by
        rw [← Nat.add_assoc, ← List.drop_drop, hdrop]
        rfl
      rw [many_cons (consumes_ziTuple b) (ziTuple_optimized net off hname hlt hat _),
        ih hz' hrest hseen]
      rfl
    · rename_i hoff
      rw [hoff] at hdrop
      dsimp only at hdrop
      have hused : used < 32768 := by
        by_contra hle
        rw [List.drop_eq_nil_of_le (by omega)] at hdrop
        simp [ofWord] at hdrop
      have hat : Holds b (6 + used) (putPstring name) := by
        rw [Holds, show 6 + used = 4 + used + 2 by omega, ← List.drop_drop, hdrop]
        exact ⟨_, rfl⟩
      have hrest : b.drop (4 + (used + 2 + (putPstring name).length)) =
          encodeZones (Function.update seen name (some (UInt16.ofNat used)))
            (used + 2 + (putPstring name).length) zones := by
        rw [show 4 + (used + 2 + (putPstring name).length) =
            4 + used + (ofWord net ++ putPstring name).length by simp; omega,
          ← List.drop_drop, hdrop, List.drop_left]
      rw [many_cons (consumes_ziTuple b) (ziTuple_long b net hname _), ih hz' hrest]
      · rfl
      · intro other off h
        by_cases ho : other = name
        · subst ho
          rw [Function.update_self] at h
          cases h
          rw [UInt16.toNat_ofNat_of_lt' (hused.trans (by decide))]
          exact ⟨hused, hat⟩
        · rw [Function.update_of_ne ho] at h
          exact hseen other off h

/-! ### Commands -/

theorem toI16_toUInt16 (n : Int16) : toI16 n.toUInt16 = n := Int16.toInt16_toUInt16 n

namespace Cmd

theorem parse_ziRsp {extended : Option UInt16} {zones : List (UInt16 × Str)}
    (h : (ziRsp extended zones).WireOk) :
    parse (ziRsp extended zones).code (ziRsp extended zones).flags
      (ziRsp extended zones).encodeBody = some (ziRsp extended zones) := by
  obtain ⟨hz, hlen⟩ := h
  have key : ∀ sub count : UInt16,
      encodeZiRsp extended zones =
        ofWord sub ++ ofWord count ++ encodeZones (fun _ => none) 0 zones →
      parseZiRsp sub (encodeZiRsp extended zones) =
        some (ziRsp (if sub = 2 then some count else none) zones) := by
    intro sub count heq
    have hdrop : (encodeZiRsp extended zones).drop (4 + 0) =
        encodeZones (fun _ => none) 0 zones := by
      rw [heq]
      rfl
    have hmany := many_encodeZones hlen hz hdrop (fun _ _ h => nomatch h)
    have hword : word ((encodeZiRsp extended zones).drop 2) =
        some (count, encodeZones (fun _ => none) 0 zones) := by
      rw [heq]
      exact word_ofWord count _
    simp only [parseZiRsp, hword, hmany, Option.bind_eq_bind, Option.bind_some]
    rfl
  cases extended with
  | none =>
    show parseSub 7 0 (encodeZiRsp none zones) = _
    rw [parseSub, show word (encodeZiRsp none zones) = some (1, _) from word_ofWord 1 _]
    exact key 1 _ rfl
  | some total =>
    show parseSub 7 0 (encodeZiRsp (some total) zones) = _
    rw [parseSub, show word (encodeZiRsp (some total) zones) = some (2, _) from word_ofWord 2 _]
    exact key 2 total rfl

theorem parse_ziReq (nets : List UInt16) :
    parse (ziReq nets).code (ziReq nets).flags (ziReq nets).encodeBody = some (ziReq nets) := by
  have hm : many word (nets.flatMap ofWord) = some nets := by
    have := many_flatMap consumes_word (f := id) (l := nets) fun n _ rest => word_ofWord n rest
    rwa [List.map_id] at this
  show parseSub 6 0 (ofWord 1 ++ nets.flatMap ofWord) = _
  rw [parseSub, word_ofWord]
  show (many word (nets.flatMap ofWord)).map ziReq = _
  rw [hm]
  rfl

theorem parse_gznReq {zone : Str} (h : NameOk zone) :
    parse (gznReq zone).code (gznReq zone).flags (gznReq zone).encodeBody =
      some (gznReq zone) := by
  have hp := pstring_putPstring h []
  rw [List.append_nil] at hp
  show parseSub 6 0 (ofWord 3 ++ putPstring zone) = _
  rw [parseSub, word_ofWord]
  show (pstring (putPstring zone)).bind _ = _
  rw [hp]
  rfl

theorem parse_gdzlReq (start : UInt16) :
    parse (gdzlReq start).code (gdzlReq start).flags (gdzlReq start).encodeBody =
      some (gdzlReq start) := by
  show parseSub 6 0 (ofWord 4 ++ ofWord start) = _
  rw [parseSub, word_ofWord]
  show some (gdzlReq (be16 _ _)) = _
  rw [be16_hi8_lo8]

theorem parse_gdzlRsp (last : Bool) (start : Int16) {zones : List Str}
    (h : ∀ z ∈ zones, NameOk z) :
    parse (gdzlRsp last start zones).code (gdzlRsp last start zones).flags
      (gdzlRsp last start zones).encodeBody = some (gdzlRsp last start zones) := by
  have hm : many pstring (zones.flatMap putPstring) = some zones := by
    have := many_flatMap consumes_pstring (f := id) fun z hz rest =>
      pstring_putPstring (h z hz) rest
    rwa [List.map_id] at this
  have hl : decide ((gdzlRsp last start zones).flags &&& LAST ≠ 0) = last := by
    cases last <;> simp [flags, LAST]
  show parseSub 7 (gdzlRsp last start zones).flags
    (ofWord 4 ++ ofWord start.toUInt16 ++ zones.flatMap putPstring) = _
  rw [parseSub, List.append_assoc, word_ofWord]
  show (many pstring (zones.flatMap putPstring)).bind _ = _
  rw [hm]
  show some (gdzlRsp (decide _) (toI16 (be16 _ _)) zones) = _
  rw [hl, be16_hi8_lo8, toI16_toUInt16]

/-- A count of tuples that fits is not negative, so it is not taken for "not supported". -/
theorem toI16_ofNat_nonneg {n : ℕ} (h : n ≤ 32767) : ¬ toI16 (UInt16.ofNat n) < 0 := by
  have hn : (toI16 (UInt16.ofNat n)).toInt = n := by
    show (BitVec.ofNat 16 n).toInt = n
    rw [BitVec.toInt_ofNat', Int.bmod_def]
    omega
  rw [Int16.lt_iff_toInt_lt, hn]
  simp

theorem parse_gznRsp {zone : Str} {tuples : Option (List NetworkTuple)}
    (h : (gznRsp zone tuples).WireOk) :
    parse (gznRsp zone tuples).code (gznRsp zone tuples).flags
      (gznRsp zone tuples).encodeBody = some (gznRsp zone tuples) := by
  obtain ⟨hz, ht⟩ := h
  cases tuples with
  | none =>
    show parseSub 7 0 (ofWord 3 ++ putPstring zone ++ ofWord (-1 : Int16).toUInt16) = _
    rw [parseSub, List.append_assoc, word_ofWord]
    show (pstring (putPstring zone ++ ofWord (-1 : Int16).toUInt16)).bind _ = _
    rw [pstring_putPstring hz]
    rfl
  | some tuples =>
    obtain ⟨hlen, ht⟩ := ht tuples rfl
    have hm : times NetworkTuple.parse tuples.length
        (List.append [] (tuples.flatMap (NetworkTuple.encodeWith · 0x00))) = some (tuples, []) := by
      have := times_flatMap (f := NetworkTuple.onWire) (fun t h rest =>
        NetworkTuple.parse_encodeWith t 0 (ht t h).1 rest) []
      rwa [List.append_nil, map_onWire ht] at this
    show parseSub 7 0 (ofWord 3 ++ putPstring zone ++ (ofWord (UInt16.ofNat tuples.length) ++
      tuples.flatMap (NetworkTuple.encodeWith · 0x00))) = _
    rw [parseSub, List.append_assoc, word_ofWord]
    show (pstring (putPstring zone ++ _)).bind _ = _
    rw [pstring_putPstring hz]
    show (if toI16 (be16 (hi8 (UInt16.ofNat tuples.length)) (lo8 _)) < 0 then _ else _) = _
    rw [be16_hi8_lo8, if_neg (toI16_ofNat_nonneg hlen),
      UInt16.toNat_ofNat_of_lt' (lt_of_le_of_lt hlen (by decide)), hm]

theorem parse_openReq_options {sui version : UInt16} {options : List (UInt8 × Bytes)}
    (h : (openReq sui version options).WireOk) :
    parse (openReq sui version options).code (openReq sui version options).flags
      (openReq sui version options).encodeBody = some (openReq sui version options) := by
  obtain ⟨hsui, ho⟩ := h
  obtain ⟨count, rest, heq, hp⟩ := parseOptions_encodeOptions ho
  show parse 8 (sui &&& ALL_SUI) (ofWord version ++ encodeOptions options) = _
  rw [heq]
  show (parseOptions rest count).map (openReq (sui &&& ALL_SUI &&& ALL_SUI) (be16 _ _)) = _
  rw [hp, be16_hi8_lo8, hsui, hsui]
  rfl

theorem parse_openRsp {env : UInt16} {rateOrErr : Int16} {options : List (UInt8 × Bytes)}
    (h : (openRsp env rateOrErr options).WireOk) :
    parse (openRsp env rateOrErr options).code (openRsp env rateOrErr options).flags
      (openRsp env rateOrErr options).encodeBody = some (openRsp env rateOrErr options) := by
  obtain ⟨henv, ho⟩ := h
  obtain ⟨count, rest, heq, hp⟩ := parseOptions_encodeOptions ho
  show parse 9 (env &&& ENV) (ofWord rateOrErr.toUInt16 ++ encodeOptions options) = _
  rw [heq]
  show (parseOptions rest count).map (openRsp (env &&& ENV &&& ENV) (toI16 (be16 _ _))) = _
  rw [hp, be16_hi8_lo8, toI16_toUInt16, henv, henv]
  rfl

/-- **Every command within the limits reads back.** -/
theorem parse_encodeBody {cmd : Cmd} (h : cmd.WireOk) :
    parse cmd.code cmd.flags cmd.encodeBody = some cmd := by
  cases cmd with
  | riReq sui =>
    show some (riReq (sui &&& ALL_SUI &&& ALL_SUI)) = _
    rw [show sui &&& ALL_SUI = sui from h, show sui &&& ALL_SUI = sui from h]
  | riRsp last tuples =>
    rw [parse_riRsp last fun t ht => (h t ht).1, map_onWire h]
  | riAck szi => exact parse_riAck szi
  | riUpd events =>
    rw [parse_riUpd fun e he => ⟨(h e he).1, (h e he).2.1.1⟩,
      List.map_congr_left fun e he => EventTuple.onWire_eq (h e he), List.map_id']
  | rd code =>
    show some (rd (toI16 (be16 _ _))) = _
    rw [be16_hi8_lo8, toI16_toUInt16]
  | ziReq nets => exact parse_ziReq nets
  | ziRsp extended zones => exact parse_ziRsp h
  | gznReq zone => exact parse_gznReq h
  | gznRsp zone tuples => exact parse_gznRsp h
  | gdzlReq start => exact parse_gdzlReq start
  | gdzlRsp last start zones => exact parse_gdzlRsp last start h
  | openReq sui version options => exact parse_openReq_options h
  | openRsp env rateOrErr options => exact parse_openRsp h
  | tickle => rfl
  | tickleAck => rfl

end Cmd

namespace Aurp

/-- **AURP packets read back.** Every packet within the wire's limits, of either type and any
command, is the packet its bytes are read as. -/
theorem reads_back {p : Aurp} (h : p.WireOk) : parse p.toBytes = some p := by
  cases p with
  | data dh ddp =>
    obtain ⟨hlen, h0, h1, rest, rfl, hsize⟩ := h
    simp only [toBytes, parse, List.append_assoc, parseDi_encodeDi, Option.bind_eq_bind,
      Option.bind_some, ofWord, List.cons_append, List.nil_append, be16_hi8_lo8]
    rw [if_neg (by simp), if_pos trivial, if_pos ⟨hlen, hsize⟩]
  | routing dh conn seq cmd =>
    rw [parse_routing, Cmd.parse_encodeBody h]
    rfl

/-- A ZI-Rsp that spells a zone once and refers back to it reads back with both networks. -/
theorem ziRsp_reads_back :
    parse (routing ⟨.null, .null⟩ 5 9 (.ziRsp none [(7, ['A']), (8, ['A'])])).toBytes =
      some (routing ⟨.null, .null⟩ 5 9 (.ziRsp none [(7, ['A']), (8, ['A'])])) :=
  have hname : NameOk ['A'] := by decide
  have hlen : (encodeZiRsp none [(7, ['A']), (8, ['A'])]).length = 12 := rfl
  reads_back (p := routing ⟨.null, .null⟩ 5 9 (.ziRsp none [(7, ['A']), (8, ['A'])]))
    ⟨by simpa using hname, by rw [hlen]; omega⟩

end Aurp

end AppleTalk
