import AppleTalk.Lib.Stuffing
import AppleTalk.Properties.FrameChecks

/-!
# What the TashTalk decoder makes of a stream

The firmware's stream is frames one after the other, each with its zeros escaped and an ending
behind it. The decoder keeps the first 605 bytes of each, and an over-long one is held to fail its
FCS; it does unless those first bytes are a frame with its FCS by themselves.
-/

namespace AppleTalk

/-- The firmware's escapes: 0, and 255 for a literal zero. -/
def serial : Stuffing UInt8 := { esc := 0x00, lit := 0xff }

/-- A stretch of the firmware's stream: some bytes, and the ending that follows them. -/
abbrev Segment := Stuffing.Frame serial

namespace Segment

/-- A segment carries a frame when it ends well, and is the frame's bytes with their FCS. -/
def Carries (s : Segment) (l : Llap) : Prop :=
  s.ending = 0xfd ∧ s.contents = l.toBytes ++ fcs l.toBytes ∧ Llap.parse l.toBytes = some l

/-- The frames that segments carry, in order. -/
inductive Carried : List Segment → List Llap → Prop
  | nil : Carried [] []
  | frame {s : Segment} {l : Llap} {ss : List Segment} {ls : List Llap} (hs : s.Carries l)
    (h : Carried ss ls) : Carried (s :: ss) (l :: ls)
  | none {s : Segment} {ss : List Segment} {ls : List Llap} (hs : ∀ l, ¬s.Carries l)
    (h : Carried ss ls) : Carried (s :: ss) ls

/-- A segment that ends well and is longer than a frame can be, and whose first bytes are a whole
frame with its FCS. -/
def Overruns (s : Segment) : Prop :=
  s.ending = 0xfd ∧ MAX_FRAME < s.contents.length ∧
    ∃ l, s.contents.take MAX_FRAME = l.toBytes ++ fcs l.toBytes ∧ Llap.parse l.toBytes = some l

end Segment

/-! ### The decoder reads escaped streams -/

namespace Decoder

/-- What the decoder stores, and what it makes of it. -/
def reader : Stuffing.Reader UInt8 Bytes Llap where
  start := []
  store := Stuffing.keep MAX_FRAME
  close buf ending := if ending = 0xfd then frame buf else none

def state (d : Decoder) : Bytes × Bool := (d.buf, d.escaped)

theorem state_injective : Function.Injective state := by
  rintro ⟨buf, escaped, hfits⟩ ⟨buf', escaped', hfits'⟩ h
  obtain ⟨rfl, rfl⟩ := Prod.mk.inj h
  rfl

@[simp] theorem buf_push (d : Decoder) (byte : UInt8) :
    (d.push byte).buf = reader.store d.buf byte := by
  show _ = Stuffing.keep MAX_FRAME d.buf byte
  unfold push Stuffing.keep
  split_ifs <;> rfl

@[simp] theorem escaped_push (d : Decoder) (byte : UInt8) : (d.push byte).escaped = false := by
  unfold push
  split_ifs <;> rfl

/-- **One byte.** -/
theorem feed_eq_read (d : Decoder) (byte : UInt8) :
    ((d.feed byte).1.state, (d.feed byte).2) = reader.read serial d.state byte := by
  obtain ⟨buf, escaped, hfits⟩ := d
  unfold feed Stuffing.Reader.read state
  cases escaped
  · by_cases hzero : byte = 0x00
    · simp [serial, hzero]
    · simp [serial, hzero]
  · by_cases hlit : byte = 0xff
    · simp [serial, hlit]
    · simp [serial, hlit, reader, new]

/-- The frame that the buffer holds: its bytes and their FCS. -/
theorem frame_eq_some_iff {buf : Bytes} {l : Llap} :
    frame buf = some l ↔
      buf = l.toBytes ++ fcs l.toBytes ∧ Llap.parse l.toBytes = some l := by
  unfold frame
  constructor
  · intro h
    split_ifs at h with hok
    obtain ⟨hlen, hres⟩ := hok
    have hl := (Llap.of_parse h).1
    have htwo : (buf.drop (buf.length - 2)).length = 2 := by
      rw [List.length_drop]
      omega
    have hfcs : buf.drop (buf.length - 2) = fcs l.toBytes := by
      rw [hl, ← fcsResidueOk_append_iff htwo, List.take_append_drop]
      exact hres
    rw [← hfcs, hl, List.take_append_drop]
    exact ⟨rfl, hl ▸ h⟩
  · rintro ⟨rfl, hparse⟩
    have hlen : (l.toBytes ++ fcs l.toBytes).length = l.toBytes.length + 2 := List.length_append
    have hres : fcsResidueOk (l.toBytes ++ fcs l.toBytes) :=
      (fcsResidueOk_append_iff (length_fcs _)).2 rfl
    have hfive : 5 ≤ (l.toBytes ++ fcs l.toBytes).length := by simp [Llap.toBytes]
    rw [if_pos ⟨hfive, hres⟩, hlen, Nat.add_sub_cancel, List.take_left, hparse]

/-- **One segment**: its first bytes are read as a frame if it ends well. -/
theorem made_eq_some_iff {s : Segment} {l : Llap} :
    reader.made s = some l ↔ s.ending = 0xfd ∧
      s.contents.take MAX_FRAME = l.toBytes ++ fcs l.toBytes ∧
      Llap.parse l.toBytes = some l := by
  have hstored : s.contents.foldl reader.store reader.start = s.contents.take MAX_FRAME :=
    Stuffing.foldl_keep (Nat.zero_le _) s.contents
  unfold Stuffing.Reader.made
  rw [hstored, ← frame_eq_some_iff]
  unfold reader
  dsimp only
  by_cases hend : s.ending = 0xfd
  · rw [if_pos hend, and_iff_right hend]
  · simp [hend]

/-- **A stream of segments.** -/
theorem feed_stream (segments : List Segment) :
    Machine.run (Machine.next feed) new (Stuffing.stream segments) = new ∧
      (Machine.outputs feed new (Stuffing.stream segments)).reduceOption =
        segments.filterMap reader.made := by
  obtain ⟨hstate, hout⟩ := Stuffing.read_stream reader segments
  have hnext : ∀ d byte, (Machine.next feed d byte).state =
      Machine.next (reader.read serial) d.state byte :=
    fun d byte => congrArg Prod.fst (feed_eq_read d byte)
  constructor
  · refine state_injective ?_
    rw [Machine.run_map (f := state) hnext]
    exact hstate
  · rw [Machine.outputs_map feed_eq_read]
    exact hout

end Decoder

/-! ### Which streams are read exactly -/

namespace Segment

open Decoder

/-- A frame with its FCS is no longer than the buffer. -/
theorem Carries.length_le {s : Segment} {l : Llap} (h : s.Carries l) :
    s.contents.length ≤ MAX_FRAME := by
  have hdata := (Llap.of_parse h.2.2).2
  unfold LLAP_MAX_DATA at hdata
  rw [h.2.1, List.length_append, length_fcs]
  unfold Llap.toBytes MAX_FRAME
  simp only [List.length_cons]
  omega

/-- A frame that a segment carries is read. -/
theorem Carries.made {s : Segment} {l : Llap} (h : s.Carries l) : reader.made s = some l := by
  rw [made_eq_some_iff, List.take_of_length_le h.length_le]
  exact h

/-- A segment that overruns carries nothing. -/
theorem Overruns.not_carries {s : Segment} (h : s.Overruns) (l : Llap) : ¬s.Carries l :=
  fun hl => Nat.not_le.2 h.2.1 hl.length_le

/-- A frame that is read is carried, unless the segment overruns. -/
theorem carries_of_made {s : Segment} {l : Llap} (h : reader.made s = some l)
    (hs : ¬s.Overruns) : s.Carries l := by
  obtain ⟨hend, hfirst, hparse⟩ := made_eq_some_iff.1 h
  have hlen : s.contents.length ≤ MAX_FRAME := by
    by_contra hlong
    exact hs ⟨hend, Nat.not_le.1 hlong, l, hfirst, hparse⟩
  rw [List.take_of_length_le hlen] at hfirst
  exact ⟨hend, hfirst, hparse⟩

/-- There are at most as many frames carried as are read. -/
theorem Carried.length_le {ss : List Segment} {ls : List Llap} (h : Carried ss ls) :
    ls.length ≤ (ss.filterMap reader.made).length := by
  induction h with
  | nil => exact Nat.le_refl _
  | frame hs _ ih => simpa [hs.made] using ih
  | @none s _ _ hs _ ih =>
    rw [List.filterMap_cons]
    cases reader.made s with
    | none => exact ih
    | some l => exact Nat.le_succ_of_le ih

/-- **When what is read is what is carried.** -/
theorem carried_made_iff {ss : List Segment} :
    Carried ss (ss.filterMap reader.made) ↔ ∀ s ∈ ss, ¬s.Overruns := by
  induction ss with
  | nil => simp [Carried.nil]
  | cons s ss ih =>
    rw [List.forall_mem_cons, ← ih]
    cases hmade : reader.made s with
    | none =>
      rw [List.filterMap_cons_none hmade]
      have hcarries : ∀ l, ¬s.Carries l := by
        intro l hl
        cases hmade.symm.trans hl.made
      generalize ss.filterMap reader.made = ls
      constructor
      · intro h
        cases h with
        | frame hs => exact absurd hs (hcarries _)
        | none _ h =>
          refine ⟨?_, h⟩
          rintro ⟨hend, -, l, hfirst, hparse⟩
          cases hmade.symm.trans (made_eq_some_iff.2 ⟨hend, hfirst, hparse⟩)
      · rintro ⟨-, h⟩
        exact .none hcarries h
    | some l =>
      rw [List.filterMap_cons_some hmade]
      constructor
      · intro h
        cases h with
        | frame hs h => exact ⟨fun ho => ho.not_carries l hs, h⟩
        | none _ h =>
          -- One frame more is read than the rest of the segments can carry.
          exact absurd h.length_le (Nat.not_succ_le_self _)
      · rintro ⟨hs, h⟩
        exact .frame (carries_of_made hmade hs) h

/-- The segment a frame is sent in, as the firmware passes it on. -/
def sent (l : Llap) : Segment :=
  { contents := (frameCommand l).tail, ending := 0xfd, ends := by decide }

theorem sent_carries {l : Llap} (h : Llap.parse l.toBytes = some l) : (sent l).Carries l :=
  ⟨rfl, rfl, h⟩

end Segment

namespace Decoder

/-- The decoder reads a stream of segments exactly: it returns the frames they carry, in order, and
is in its initial state after each of them. -/
structure Exact (segments : List Segment) : Prop where
  frames : Segment.Carried segments
    (Machine.outputs feed new (Stuffing.stream segments)).reduceOption
  clean : ∀ past, past <+: segments →
    Machine.run (Machine.next feed) new (Stuffing.stream past) = new

/-- What one TashTalk sends, another reads. -/
theorem reads_sent {ls : List Llap} (h : ∀ l ∈ ls, Llap.parse l.toBytes = some l) :
    (Machine.outputs feed new (Stuffing.stream (ls.map Segment.sent))).reduceOption = ls := by
  rw [(feed_stream _).2]
  induction ls with
  | nil => rfl
  | cons l ls ih =>
    obtain ⟨hl, hls⟩ := List.forall_mem_cons.1 h
    rw [List.map_cons, List.filterMap_cons_some (Segment.sent_carries hl).made, ih hls]

/-- **TashTalk decoding is exact** over a stream of any segments just when none of them overruns
the buffer with a whole frame in front. -/
theorem exact_iff (segments : List Segment) :
    Exact segments ↔ ∀ s ∈ segments, ¬s.Overruns := by
  constructor
  · rintro ⟨hframes, -⟩
    rw [(feed_stream segments).2] at hframes
    exact Segment.carried_made_iff.1 hframes
  · intro h
    refine ⟨?_, fun past _ => (feed_stream past).1⟩
    rw [(feed_stream segments).2]
    exact Segment.carried_made_iff.2 h

/-- The longest frame: 600 bytes of data. -/
def longest : Llap :=
  { dst := 1, src := 2, typ := LLAP_LONG_DDP, data := 0x02 :: 0x58 :: List.replicate 598 0 }

/-- The longest frame with its FCS, and one byte more. -/
def overlong : Segment :=
  { contents := longest.toBytes ++ fcs longest.toBytes ++ [0], ending := 0xfd, ends := by decide }

theorem overlong_overruns : overlong.Overruns := by
  have hdata : longest.data.length = LLAP_MAX_DATA := by
    show (List.replicate 598 (0 : UInt8)).length + 2 = LLAP_MAX_DATA
    rw [List.length_replicate]
    rfl
  have hparse : Llap.parse longest.toBytes = some longest :=
    (Llap.parse_toBytes_iff (Or.inr rfl)).2 ⟨hdata.le, hdata.symm⟩
  have hlen : (longest.toBytes ++ fcs longest.toBytes).length = MAX_FRAME := by
    rw [List.length_append, length_fcs]
    show longest.data.length + 3 + 2 = MAX_FRAME
    rw [hdata]
    rfl
  refine ⟨rfl, ?_, longest, ?_, hparse⟩
  · unfold overlong
    rw [List.length_append, hlen]
    exact Nat.lt_succ_self _
  · unfold overlong
    rw [← hlen, List.take_left]

/-- The over-long segment is read as the frame in front of it. -/
theorem overlong_read : ¬∀ segments, Exact segments := by
  intro h
  have hframes := (h [overlong]).frames
  rw [(feed_stream [overlong]).2] at hframes
  exact Segment.carried_made_iff.1 hframes _ (List.mem_singleton_self _) overlong_overruns

end Decoder

end AppleTalk
