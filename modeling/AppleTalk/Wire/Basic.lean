import AppleTalk.Lib.Octets
import AppleTalk.Lib.SortedMap

/-!
# Addresses, names and strings on the wire

What every protocol of the stack shares (`wire/mod.rs`): octets, names, length-prefixed strings
and the three kinds of address. A name is a list of characters, as a Rust `String` is of `char`s;
on the wire a character is one octet, its code point.
-/

namespace AppleTalk

/-- A byte slice, or a `Vec<u8>`. -/
abbrev Bytes := List UInt8

/-- A string: its characters. -/
abbrev Str := List Char

/-- A point of the monotonic clock, in nanoseconds. -/
abbrev Instant := ℕ

/-- `now.saturating_duration_since(at)`, in nanoseconds. -/
def since (now «at» : Instant) : ℕ := now - «at»

/-- `Duration::from_secs`. -/
def fromSecs (n : ℕ) : ℕ := n * 1000000000

/-- `Duration::from_millis`. -/
def fromMillis (n : ℕ) : ℕ := n * 1000000

/-- A port of the router (`capture::PortId`). -/
abbrev PortId := UInt8

/-- `s.len()`: the octets of the string in UTF-8. -/
def utf8Len (s : Str) : ℕ := (s.map Char.utf8Size).sum

/-- `str::eq_ignore_ascii_case`. -/
def eqIgnoreAsciiCase (a b : Str) : Bool := a.map Char.toLower == b.map Char.toLower

@[simp] theorem eqIgnoreAsciiCase_refl (a : Str) : eqIgnoreAsciiCase a a = true := by
  simp [eqIgnoreAsciiCase]

/-- `b as char`: the character whose code point is the octet. -/
def charOfByte (b : UInt8) : Char := Char.ofNat b.toNat

/-- `c as u32 as u8`. -/
def byteOfChar (c : Char) : UInt8 := UInt8.ofNat c.toNat

/-- A length-prefixed string and the octets after it. -/
def pstring : Bytes → Option (Str × Bytes)
  | [] => none
  | len :: p =>
    if len.toNat ≤ p.length then some ((p.take len.toNat).map charOfByte, p.drop len.toNat)
    else none

/-- A length-prefixed string, cut at the protocol's 32 characters. -/
def putPstring (s : Str) : Bytes :=
  let bytes := (s.take 32).map byteOfChar
  UInt8.ofNat bytes.length :: bytes

/-- A hardware address. -/
structure MacAddr where
  b0 : UInt8
  b1 : UInt8
  b2 : UInt8
  b3 : UInt8
  b4 : UInt8
  b5 : UInt8
  deriving DecidableEq, Repr

/-- The six octets of a hardware address. -/
def macBytes (m : MacAddr) : Bytes := [m.b0, m.b1, m.b2, m.b3, m.b4, m.b5]

/-- `MacAddr::zero`. -/
def MacAddr.zero : MacAddr := ⟨0, 0, 0, 0, 0, 0⟩

/-- A hardware address from exactly six octets. -/
def mac : Bytes → Option MacAddr
  | [a, b, c, d, e, f] => some ⟨a, b, c, d, e, f⟩
  | _ => none

/-- An AppleTalk network address: 16-bit network, 8-bit node. -/
structure Addr where
  net : UInt16
  node : UInt8
  deriving DecidableEq, Repr

/-- An IPv4 address, by its octets. -/
structure Ipv4Addr where
  a : UInt8
  b : UInt8
  c : UInt8
  d : UInt8
  deriving DecidableEq, Repr

/-- `Ipv4Addr::octets`. -/
def Ipv4Addr.octets (ip : Ipv4Addr) : Bytes := [ip.a, ip.b, ip.c, ip.d]

/-- Node IDs order as numbers. -/
instance : Key UInt8 where
  code := UInt8.toNat
  code_inj _ _ := UInt8.toNat_inj.1

/-- IPv4 addresses order as their octets do. -/
instance : Key Ipv4Addr where
  code ip := ((ip.a.toNat * 256 + ip.b.toNat) * 256 + ip.c.toNat) * 256 + ip.d.toNat
  code_inj := by
    rintro ⟨a, b, c, d⟩ ⟨a', b', c', d'⟩ h
    have := a.toNat_lt; have := b.toNat_lt; have := c.toNat_lt; have := d.toNat_lt
    have := a'.toNat_lt; have := b'.toNat_lt; have := c'.toNat_lt; have := d'.toNat_lt
    simp only at h
    simp only [Ipv4Addr.mk.injEq, ← UInt8.toNat_inj]
    omega

/-! ### How an address prints -/

/-- A number in decimal. -/
def dec (n : ℕ) : String := toString n

def Addr.display (x : Addr) : String := dec x.net.toNat ++ "." ++ dec x.node.toNat

def Ipv4Addr.display (ip : Ipv4Addr) : String :=
  dec ip.a.toNat ++ "." ++ dec ip.b.toNat ++ "." ++ dec ip.c.toNat ++ "." ++ dec ip.d.toNat

/-- An octet as two lower-case hexadecimal digits. -/
def hex2 (b : UInt8) : String :=
  String.ofList [Nat.digitChar (b.toNat / 16), Nat.digitChar (b.toNat % 16)]

def MacAddr.display (m : MacAddr) : String :=
  String.intercalate ":" ((macBytes m).map hex2)

end AppleTalk
