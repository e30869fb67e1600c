import AppleTalk.Wire.Ddp

/-!
# LToUDP

LocalTalk over a UDP multicast group (`ltoudp.rs`). A datagram is the four octets of its sender's ID
and an LLAP frame; the ID is there for a station to know its own datagrams by when they come back.
-/

namespace AppleTalk

namespace Ltoudp

/-- The largest legal datagram: the sender ID, a 3-byte header and the largest data field. -/
def MAX : ℕ := 4 + 3 + 600

/-- Four octets that say which station sent a datagram. -/
structure SenderId where
  a : UInt8
  b : UInt8
  c : UInt8
  d : UInt8
  deriving DecidableEq, Repr

def SenderId.octets (id : SenderId) : Bytes := [id.a, id.b, id.c, id.d]

/-- A frame behind the sender ID, which is the whole of the framing. -/
def datagram (id : SenderId) (f : Llap) : Bytes := id.octets ++ f.toBytes

/-- What an arriving datagram means. One that fills a buffer longer than the largest legal one was
cut off. -/
def inbound (buf : Bytes) (id : SenderId) : Option Llap :=
  if buf.length < 7 ∨ MAX < buf.length ∨ buf.take 4 = id.octets then none
  else Llap.parse (buf.drop 4)

/-! ### Between two stations -/

theorem octets_inj {id id' : SenderId} : id.octets = id'.octets ↔ id = id' := by
  obtain ⟨a, b, c, d⟩ := id
  obtain ⟨a', b', c', d'⟩ := id'
  simp [SenderId.octets]

theorem length_datagram (id : SenderId) (f : Llap) :
    (datagram id f).length = 7 + f.data.length := by
  simp only [datagram, SenderId.octets, Llap.toBytes, List.length_append, List.length_cons,
    List.length_nil]
  omega

/-- **A legal frame** is heard by every other station, and not by its own. -/
theorem inbound_datagram {f : Llap} (h : Llap.parse f.toBytes = some f) (id id' : SenderId) :
    inbound (datagram id f) id' = if id = id' then none else some f := by
  have hlen := (Llap.of_parse h).2
  have htake : (datagram id f).take 4 = id.octets := rfl
  have hdrop : (datagram id f).drop 4 = f.toBytes := rfl
  unfold inbound
  rw [length_datagram]
  simp only [htake, hdrop, h, octets_inj]
  by_cases he : id = id'
  · rw [if_pos (Or.inr (Or.inr he)), if_pos he]
  · rw [if_neg, if_neg he]
    unfold MAX
    unfold LLAP_MAX_DATA at hlen
    rintro (hlt | hlt | he')
    · omega
    · omega
    · exact he he'

/-- **Only legal frames of other stations** are heard. -/
theorem of_inbound {b : Bytes} {id : SenderId} {f : Llap} (h : inbound b id = some f) :
    ∃ id', id' ≠ id ∧ b = datagram id' f ∧ Llap.parse f.toBytes = some f := by
  unfold inbound at h
  split_ifs at h with hbad
  obtain ⟨hlen, hrest⟩ := not_or.1 hbad
  have hread := (Llap.of_parse h).1
  -- Seven octets at the least, so four stand in front.
  match b, hlen, h, hread with
  | x0 :: x1 :: x2 :: x3 :: rest, _, h, hread =>
    refine ⟨⟨x0, x1, x2, x3⟩, fun he => (not_or.1 hrest).2 ?_, ?_, ?_⟩
    · rw [← he]
      rfl
    · rw [datagram, hread]
      rfl
    · rw [hread]
      exact h
  | [], hlen, _, _ | [_], hlen, _, _ | [_, _], hlen, _, _ | [_, _, _], hlen, _, _ =>
    exact absurd (by simp) hlen

end Ltoudp

end AppleTalk
