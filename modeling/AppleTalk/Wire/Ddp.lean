import AppleTalk.Wire.Basic

/-!
# Datagrams and LocalTalk frames

The network layer (`wire/ddp.rs`) and LocalTalk's link layer (`wire/llap.rs`). A datagram has
one form in the stack, the 13-byte extended header; LocalTalk's 5-byte short header leaves out
the hop count, the checksum, the networks and the nodes, and is lifted back from what the LLAP
header and the cable say.
-/

namespace AppleTalk

open Octets

/-- `u16::rotate_left(1)`. -/
def rotateLeft1 (x : UInt16) : UInt16 := (x <<< 1) ||| (x >>> 15)

/-- The DDP checksum: add each byte and rotate left, with `$FFFF` in place of zero. -/
def checksum (bytes : Bytes) : UInt16 :=
  let sum := bytes.foldl (fun sum b => rotateLeft1 (sum + b.toUInt16)) 0
  if sum = 0 then 0xffff else sum

/-- The running total of the checksum, before `$FFFF` stands in for zero. -/
def runningSum (bytes : Bytes) (sum : UInt16) : UInt16 :=
  bytes.foldl (fun sum b => rotateLeft1 (sum + b.toUInt16)) sum

@[simp] theorem runningSum_nil (sum : UInt16) : runningSum [] sum = sum := rfl

@[simp] theorem runningSum_cons (b : UInt8) (bytes : Bytes) (sum : UInt16) :
    runningSum (b :: bytes) sum = runningSum bytes (rotateLeft1 (sum + b.toUInt16)) := rfl

theorem checksum_eq (bytes : Bytes) :
    checksum bytes = if runningSum bytes 0 = 0 then 0xffff else runningSum bytes 0 := rfl

theorem toNat_rotateLeft1 (x : UInt16) :
    (rotateLeft1 x).toNat = 2 * (x.toNat % 32768) + x.toNat / 32768 := by
  have hx := x.toNat_lt
  have hlow : x.toNat / 32768 < 2 ^ 1 := by omega
  unfold rotateLeft1
  simp only [UInt16.toNat_or, UInt16.toNat_shiftLeft, UInt16.toNat_shiftRight, UInt16.toNat_ofNat]
  norm_num [Nat.shiftLeft_eq, Nat.shiftRight_eq_div_pow]
  rw [show x.toNat * 2 % 65536 = 2 ^ 1 * (x.toNat % 32768) by omega,
    ← Nat.two_pow_add_eq_or_of_lt hlow]

theorem toNat_add_byte (sum : UInt16) (b : UInt8) :
    (sum + b.toUInt16).toNat = (sum.toNat + b.toNat) % 65536 := by
  rw [UInt16.toNat_add, UInt8.toNat_toUInt16]

theorem rotateLeft1_injective : Function.Injective rotateLeft1 := by
  intro x y h
  have hx : x.toNat / 32768 < 2 := Nat.div_lt_of_lt_mul x.toNat_lt
  have hy : y.toNat / 32768 < 2 := Nat.div_lt_of_lt_mul y.toNat_lt
  have h := congrArg UInt16.toNat h
  rw [toNat_rotateLeft1, toNat_rotateLeft1] at h
  apply UInt16.toNat_inj.1
  rw [← Nat.div_add_mod x.toNat 32768, ← Nat.div_add_mod y.toNat 32768]
  generalize x.toNat / 32768 = a at *
  generalize y.toNat / 32768 = b at *
  omega

theorem add_byte_injective (b : UInt8) : Function.Injective (· + b.toUInt16) := by
  intro x y h
  have h := congrArg UInt16.toNat h
  simp only [toNat_add_byte] at h
  have hx := x.toNat_lt
  have hy := y.toNat_lt
  apply UInt16.toNat_inj.1
  omega

/-- The same bytes take different totals to different totals. -/
theorem runningSum_injective (bytes : Bytes) : Function.Injective (runningSum bytes) := by
  induction bytes with
  | nil => exact fun _ _ h => h
  | cons b bytes ih => exact fun x y h => add_byte_injective b (rotateLeft1_injective (ih h))

/-- Adding two octets with a rotation between them shows in the total. -/
theorem add_rotate_add {s h l : ℕ} (hs : s < 65536) (hh : h < 256) (hl : l < 256)
    (e : (2 * ((s + h) % 65536 % 32768) + (s + h) % 65536 / 32768 + l) % 65536 =
      2 * (s % 32768) + s / 32768) : h = 0 ∧ l = 0 := by
  -- The carries and the bits rotated out are 0 or 1; with each fixed the equation is linear.
  obtain ⟨p, hp⟩ : ∃ p, s / 32768 = p := ⟨_, rfl⟩
  obtain ⟨w, hw⟩ : ∃ w, (s + h) / 65536 = w := ⟨_, rfl⟩
  obtain ⟨q, hq⟩ : ∃ q, (s + h) % 65536 / 32768 = q := ⟨_, rfl⟩
  have hp2 : p = 0 ∨ p = 1 := by omega
  have hw2 : w = 0 ∨ w = 1 := by omega
  have hq2 : q = 0 ∨ q = 1 := by omega
  have hr : (s + h) % 65536 % 32768 = s + h - 65536 * w - 32768 * q := by omega
  have hu : s % 32768 = s - 32768 * p := by omega
  rw [hr, hu, hq, hp] at e
  rcases hp2 with rfl | rfl <;> rcases hw2 with rfl | rfl <;> rcases hq2 with rfl | rfl <;> omega

/-- A word that is not zero changes the total. -/
theorem runningSum_ofWord {n : UInt16} (hn : n ≠ 0) (sum : UInt16) :
    runningSum (ofWord n) sum ≠ runningSum (ofWord 0) sum := by
  intro h
  have h := congrArg UInt16.toNat (rotateLeft1_injective h)
  simp only [toNat_rotateLeft1, toNat_add_byte, show (hi8 0).toNat = 0 from rfl,
    show (lo8 0).toNat = 0 from rfl, Nat.add_zero, Nat.mod_eq_of_lt sum.toNat_lt] at h
  have hsmall : 2 * (sum.toNat % 32768) + sum.toNat / 32768 < 65536 := by
    have := sum.toNat_lt
    omega
  rw [Nat.mod_eq_of_lt hsmall] at h
  obtain ⟨hhi, hlo⟩ := add_rotate_add sum.toNat_lt (hi8 n).toNat_lt (lo8 n).toNat_lt h
  refine hn ?_
  rw [← be16_hi8_lo8 n]
  unfold be16
  rw [hhi, hlo]
  rfl

/-- A DDP datagram with the extended header. `length` is the field as it was on the wire. -/
structure Ddp where
  hops : UInt8
  length : UInt16
  checksum : UInt16
  dst : Addr
  dstSocket : UInt8
  src : Addr
  srcSocket : UInt8
  typ : UInt8
  data : Bytes
  deriving DecidableEq, Repr

namespace Ddp

/-- Read an extended header and the data after it. -/
def parse : Bytes → Option Ddp
  | h0 :: h1 :: h2 :: h3 :: h4 :: h5 :: h6 :: h7 :: h8 :: h9 :: h10 :: h11 :: h12 :: data =>
    some
      { hops := (h0 >>> 2) &&& 0x0f
        length := be16 (h0 &&& 0x03) h1
        checksum := be16 h2 h3
        dst := { net := be16 h4 h5, node := h8 }
        dstSocket := h10
        src := { net := be16 h6 h7, node := h9 }
        srcSocket := h11
        typ := h12
        data := data }
  | _ => none

/-- Lift a short header: the nodes come from the LLAP header, both networks from the cable. -/
def fromShort (p : Bytes) (net : UInt16) (dstNode srcNode : UInt8) : Option Ddp :=
  match p with
  | h0 :: h1 :: h2 :: h3 :: h4 :: data =>
    -- The upper 6 bits of the length are not significant.
    if (be16 (h0 &&& 0x03) h1).toNat ≠ p.length then none
    else some
      { hops := 0
        length := UInt16.ofNat (13 + data.length)
        checksum := 0
        dst := { net := net, node := dstNode }
        dstSocket := h2
        src := { net := net, node := srcNode }
        srcSocket := h3
        typ := h4
        data := data }
  | _ => none

theorem checksum_of_fromShort {p : Bytes} {net : UInt16} {dstNode srcNode : UInt8} {d : Ddp}
    (h : fromShort p net dstNode srcNode = some d) : d.checksum = 0 := by
  unfold fromShort at h
  split at h
  · split_ifs at h
    cases h
    rfl
  · cases h

/-- The short header and the data. -/
def toShortBytes (d : Ddp) : Bytes :=
  let len := UInt16.ofNat (5 + d.data.length)
  (hi8 len &&& 0x03) :: lo8 len :: d.dstSocket :: d.srcSocket :: d.typ :: d.data

/-- The extended header, its length recomputed, and the data. -/
def toBytes (d : Ddp) : Bytes :=
  let len := UInt16.ofNat (13 + d.data.length)
  (((d.hops &&& 0x0f) <<< 2) ||| (hi8 len &&& 0x03)) :: lo8 len ::
    (ofWord d.checksum ++ ofWord d.dst.net ++ ofWord d.src.net ++
      [d.dst.node, d.src.node, d.dstSocket, d.srcSocket, d.typ] ++ d.data)

/-- The checksum over everything after its field. -/
def computeChecksum (d : Ddp) : UInt16 := AppleTalk.checksum (d.toBytes.drop 4)

/-- What the checksum is taken over. -/
def summed (d : Ddp) : Bytes :=
  ofWord d.dst.net ++ (ofWord d.src.net ++
    ([d.dst.node, d.src.node, d.dstSocket, d.srcSocket, d.typ] ++ d.data))

theorem length_toBytes (d : Ddp) : d.toBytes.length = 13 + d.data.length := by
  simp [toBytes]
  omega

/-- A datagram read from a header carries at most fifteen hops. -/
theorem hops_le_of_parse {p : Bytes} {d : Ddp} (h : parse p = some d) : d.hops ≤ 15 := by
  unfold parse at h
  split at h
  · cases h
    rename_i h0 _ _ _ _ _ _ _ _ _ _ _ _ _
    show (h0 >>> 2) &&& 0x0f ≤ 15
    rw [UInt8.le_iff_toNat_le, UInt8.toNat_and]
    exact Nat.and_le_right
  · cases h

/-- The length field of a datagram read from a header has ten bits. -/
theorem length_lt_of_parse {p : Bytes} {d : Ddp} (h : parse p = some d) :
    d.length.toNat < 1024 := by
  unfold parse at h
  split at h
  · cases h
    rename_i h0 h1 _ _ _ _ _ _ _ _ _ _ _ _
    have hlow : (h0 &&& 0x03).toNat ≤ 3 := by
      rw [UInt8.toNat_and]
      exact Nat.and_le_right
    have := h1.toNat_lt
    simp only [be16, UInt16.toNat_ofNat']
    omega
  · cases h

/-- The hop field of the header byte survives next to the two length bits. -/
theorem hops_field (hops len : UInt8) (h : hops ≤ 15) :
    ((((hops &&& 0x0f) <<< 2) ||| (len &&& 0x03)) >>> 2) &&& 0x0f = hops := by
  revert len h hops
  have key : ∀ n : Fin 16, ∀ l : Fin 4, ((((UInt8.ofNat n.val &&& 0x0f) <<< 2) |||
      UInt8.ofNat l.val) >>> 2) &&& 0x0f = UInt8.ofNat n.val := by decide
  intro hops len h
  have h1 : hops.toNat < 16 := by
    have := UInt8.le_iff_toNat_le.1 h
    simp at this
    omega
  have h2 : (len &&& 3).toNat < 4 := by
    rw [UInt8.toNat_and]
    have := @Nat.and_le_right len.toNat 3
    simp
    omega
  have := key ⟨hops.toNat, h1⟩ ⟨(len &&& 3).toNat, h2⟩
  simpa using this

/-- The two length bits of the header byte survive below the hop field. -/
theorem length_field (hops len : UInt8) :
    (((hops &&& 0x0f) <<< 2) ||| (len &&& 0x03)) &&& 0x03 = len &&& 0x03 := by
  have key : ∀ n : Fin 16, ∀ l : Fin 4, ((UInt8.ofNat n.val <<< 2) ||| UInt8.ofNat l.val) &&& 0x03 =
      UInt8.ofNat l.val := by decide
  have h1 : (hops &&& 15).toNat < 16 := by
    rw [UInt8.toNat_and]
    exact Nat.lt_succ_of_le Nat.and_le_right
  have h2 : (len &&& 3).toNat < 4 := by
    rw [UInt8.toNat_and]
    exact Nat.lt_succ_of_le Nat.and_le_right
  have := key ⟨(hops &&& 15).toNat, h1⟩ ⟨(len &&& 3).toNat, h2⟩
  simpa using this

/-- The length field of a header holds ten bits. -/
theorem be16_tenBits (n : ℕ) :
    be16 (hi8 (UInt16.ofNat n) &&& 0x03) (lo8 (UInt16.ofNat n)) = UInt16.ofNat (n % 1024) := by
  apply UInt16.toNat_inj.1
  have hand : ∀ m : ℕ, m &&& 3 = m % 4 := fun m => Nat.and_two_pow_sub_one_eq_mod m 2
  simp only [be16, hi8, lo8, UInt16.toNat_ofNat', UInt8.toNat_ofNat', UInt8.toNat_and,
    UInt8.toNat_ofNat, hand]
  omega

/-- The datagram with the low four bits of its hop count and its length as ten bits. -/
def written (d : Ddp) : Ddp :=
  { d with
    hops := ((((d.hops &&& 0x0f) <<< 2) |||
      (hi8 (UInt16.ofNat (13 + d.data.length)) &&& 0x03)) >>> 2) &&& 0x0f
    length := UInt16.ofNat ((13 + d.data.length) % 1024) }

/-- What an extended header reads back as. -/
theorem parse_toBytes_eq (d : Ddp) : parse d.toBytes = some d.written := by
  simp only [toBytes, ofWord, List.cons_append, List.nil_append, parse, be16_hi8_lo8, length_field,
    be16_tenBits, written]

theorem written_hops {d : Ddp} (h : d.hops ≤ 15) : d.written.hops = d.hops := hops_field _ _ h

/-- **A datagram survives its extended header**, up to the length field, which is recomputed. -/
theorem parse_toBytes (d : Ddp) (h : d.hops ≤ 15) :
    ∃ len, parse d.toBytes = some { d with length := len } := by
  refine ⟨UInt16.ofNat ((13 + d.data.length) % 1024), ?_⟩
  rw [parse_toBytes_eq, written, hops_field _ _ h]

/-- What a short header reads back as: its ten bits of length have to be the length. -/
theorem fromShort_toShortBytes (d : Ddp) (net : UInt16) (dstNode srcNode : UInt8) :
    fromShort d.toShortBytes net dstNode srcNode =
      if d.data.length < 1019 then
        some
          { d with
            hops := 0, length := UInt16.ofNat (13 + d.data.length), checksum := 0
            dst := { net := net, node := dstNode }, src := { net := net, node := srcNode } }
      else none := by
  have hand : ∀ b : UInt8, b &&& 0x03 &&& 0x03 = b &&& 0x03 := fun b => by
    rw [UInt8.and_assoc, UInt8.and_self]
  simp only [toShortBytes, fromShort, hand, be16_tenBits, List.length_cons, UInt16.toNat_ofNat']
  split_ifs with h1 h2 h2
  · omega
  · rfl
  · rfl
  · omega

end Ddp

/-! ### LocalTalk frames -/

def LLAP_SHORT_DDP : UInt8 := 0x01
def LLAP_LONG_DDP : UInt8 := 0x02
def LLAP_ENQ : UInt8 := 0x81
def LLAP_ACK : UInt8 := 0x82
def LLAP_RTS : UInt8 := 0x84
def LLAP_CTS : UInt8 := 0x85

/-- The largest LLAP data field. -/
def LLAP_MAX_DATA : ℕ := 600

/-- An LLAP packet: the 3-byte header and its data field. -/
structure Llap where
  dst : UInt8
  src : UInt8
  typ : UInt8
  data : Bytes
  deriving DecidableEq, Repr

namespace Llap

/-- Read a packet. A control packet has no data field; a data packet's own length field has to
agree with it. -/
def parse : Bytes → Option Llap
  | dst :: src :: typ :: data =>
    if typ = LLAP_ENQ ∨ typ = LLAP_ACK ∨ typ = LLAP_RTS ∨ typ = LLAP_CTS then
      if data.isEmpty then some { dst := dst, src := src, typ := typ, data := data } else none
    else if typ = 0x00 ∨ 0x80 ≤ typ then none
    else if LLAP_MAX_DATA < data.length then none
    else
      match data with
      | l0 :: l1 :: _ =>
        if (be16 (l0 &&& 0x03) l1).toNat ≠ data.length then none
        else some { dst := dst, src := src, typ := typ, data := data }
      | _ => none
  | _ => none

/-- A control packet. -/
def control (dst src typ : UInt8) : Llap := { dst := dst, src := src, typ := typ, data := [] }

def toBytes (l : Llap) : Bytes := l.dst :: l.src :: l.typ :: l.data

/-- A packet that was read is written as it was, and its data is not too long. -/
theorem of_parse {p : Bytes} {l : Llap} (h : parse p = some l) :
    l.toBytes = p ∧ l.data.length ≤ LLAP_MAX_DATA := by
  unfold parse at h
  split at h
  · split_ifs at h with hc hdata hu hlong
    · obtain rfl := Option.some.inj h
      simp_all [toBytes]
    · split at h
      · split_ifs at h
        obtain rfl := Option.some.inj h
        exact ⟨rfl, not_lt.1 hlong⟩
      · cases h
  · cases h

/-- Reading a packet changes nothing in it. -/
theorem eq_of_parse {l l' : Llap} (h : parse l.toBytes = some l') : l' = l := by
  obtain ⟨dst, src, typ, data⟩ := l
  obtain ⟨dst', src', typ', data'⟩ := l'
  obtain ⟨rfl, rfl, rfl, rfl⟩ : dst' = dst ∧ src' = src ∧ typ' = typ ∧ data' = data := by
    simpa [toBytes] using (of_parse h).1
  rfl

/-- A frame of two length octets and more is legal when they are right and it is not too long. -/
theorem parse_toBytes_iff {dst src typ l0 l1 : UInt8} {rest : Bytes}
    (ht : typ = LLAP_SHORT_DDP ∨ typ = LLAP_LONG_DDP) :
    parse (toBytes ⟨dst, src, typ, l0 :: l1 :: rest⟩) = some ⟨dst, src, typ, l0 :: l1 :: rest⟩ ↔
      (l0 :: l1 :: rest).length ≤ LLAP_MAX_DATA ∧
        (be16 (l0 &&& 0x03) l1).toNat = (l0 :: l1 :: rest).length := by
  have hc : ¬(typ = LLAP_ENQ ∨ typ = LLAP_ACK ∨ typ = LLAP_RTS ∨ typ = LLAP_CTS) := by
    rcases ht with rfl | rfl <;> decide
  have hu : ¬(typ = 0x00 ∨ 0x80 ≤ typ) := by rcases ht with rfl | rfl <;> decide
  unfold parse toBytes
  dsimp only
  rw [if_neg hc, if_neg hu]
  by_cases hlen : LLAP_MAX_DATA < (l0 :: l1 :: rest).length
  · rw [if_pos hlen]
    simp only [reduceCtorEq, false_iff]
    omega
  · rw [if_neg hlen]
    by_cases hfield : (be16 (l0 &&& 0x03) l1).toNat = (l0 :: l1 :: rest).length
    · rw [if_neg (not_not.2 hfield)]
      simp only [true_iff]
      exact ⟨Nat.not_lt.1 hlen, hfield⟩
    · rw [if_pos hfield]
      exact ⟨fun h => (by cases h), fun h => absurd h.2 hfield⟩

theorem short_legal_iff (dst src : UInt8) (d : Ddp) :
    parse (toBytes ⟨dst, src, LLAP_SHORT_DDP, d.toShortBytes⟩) =
        some ⟨dst, src, LLAP_SHORT_DDP, d.toShortBytes⟩ ↔
      5 + d.data.length ≤ LLAP_MAX_DATA := by
  have hand : ∀ b : UInt8, b &&& 0x03 &&& 0x03 = b &&& 0x03 := fun b => by
    rw [UInt8.and_assoc, UInt8.and_self]
  unfold Ddp.toShortBytes
  dsimp only
  rw [parse_toBytes_iff (Or.inl rfl), hand, Ddp.be16_tenBits]
  simp only [List.length_cons, UInt16.toNat_ofNat', LLAP_MAX_DATA]
  omega

theorem long_legal_iff (dst src : UInt8) (d : Ddp) :
    parse (toBytes ⟨dst, src, LLAP_LONG_DDP, d.toBytes⟩) =
        some ⟨dst, src, LLAP_LONG_DDP, d.toBytes⟩ ↔
      13 + d.data.length ≤ LLAP_MAX_DATA := by
  unfold Ddp.toBytes
  dsimp only
  rw [parse_toBytes_iff (Or.inr rfl), Ddp.length_field, Ddp.be16_tenBits]
  simp only [List.length_cons, List.length_append, length_ofWord, List.length_nil,
    UInt16.toNat_ofNat', LLAP_MAX_DATA]
  omega

/-- The datagram a frame reads as on a network. -/
def datagram (l : Llap) (net : UInt16) : Option Ddp :=
  if l.typ = LLAP_SHORT_DDP then Ddp.fromShort l.data net l.dst l.src
  else if l.typ = LLAP_LONG_DDP then Ddp.parse l.data
  else none

end Llap

end AppleTalk
