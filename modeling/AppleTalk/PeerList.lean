import AppleTalk.Wire.Basic
import Mathlib.Data.List.DropRight
import Mathlib.Data.List.ReduceOption

/-!
# Lists of peers

The operator can have the peers of a list added to the configuration file (`config.rs`). A list is
a text with one IPv4 literal or host name a line. All its bad lines are told at once, and nothing
is added then. Of the file only the `peers` of its `router` are looked at.
-/

namespace AppleTalk

/-! ### Text -/

/-- `char::is_whitespace`. -/
def whitespace (c : Char) : Bool :=
  (0x09 ≤ c.toNat && c.toNat ≤ 0x0d) || (0x2000 ≤ c.toNat && c.toNat ≤ 0x200a) ||
    [0x20, 0x85, 0xa0, 0x1680, 0x2028, 0x2029, 0x202f, 0x205f, 0x3000].contains c.toNat

/-- `str::trim`. -/
def trim (s : Str) : Str := (s.dropWhile whitespace).rdropWhile whitespace

/-- A line that ended in a newline loses a carriage return with it. -/
def stripCr (l : Str) : Str := if l.getLast? = some '\r' then l.dropLast else l

/-- The lines of a text behind the characters that begin the first one. -/
def linesFrom (cur : Str) : Str → List Str
  | [] => if cur = [] then [] else [cur]
  | c :: s => if c = '\n' then stripCr cur :: linesFrom [] s else linesFrom (cur ++ [c]) s

/-- `str::lines`. -/
def lines (s : Str) : List Str := linesFrom [] s

/-- The pieces of a string between its dots. -/
def labels (s : Str) : List Str := s.splitOn '.'

/-! ### Hosts -/

/-- An octet of an IPv4 literal: one to three digits with no zero in front. -/
def isOctet (s : Str) : Bool :=
  1 ≤ s.length && s.length ≤ 3 && s.all Char.isDigit && (s.length = 1 || s.head? ≠ some '0') &&
    s.foldl (fun n c => n * 10 + (c.toNat - 48)) 0 ≤ 255

/-- `s.parse::<Ipv4Addr>().is_ok()`. -/
def isIpv4 (s : Str) : Bool := (labels s).length = 4 && (labels s).all isOctet

/-- A label of a host name. -/
def isLabel (l : Str) : Bool :=
  1 ≤ utf8Len l && utf8Len l ≤ 63 && l.head? ≠ some '-' && l.getLast? ≠ some '-' &&
    l.all fun c => c.isAlphanum || c = '-'

/-- An IPv4 literal, or labels joined by dots. -/
def isHost (s : Str) : Bool := isIpv4 s || (utf8Len s ≤ 253 && (labels s).all isLabel)

/-! ### The list -/

/-- The hosts seen and the lines found bad before a line of the list, and the number of the line. -/
def scanPeerList (out : List Str) (bad : List String) (i : ℕ) : List Str → List Str × List String
  | [] => (out, bad)
  | line :: ls =>
    let l := trim line
    if l = [] ∨ l.head? = some '#' then scanPeerList out bad (i + 1) ls
    else if isHost l then scanPeerList (out ++ [l]) bad (i + 1) ls
    else scanPeerList out (bad ++ ["line " ++ dec (i + 1)]) (i + 1) ls

def parsePeerList (text : Str) : Except String (List Str) :=
  let r := scanPeerList [] [] 0 (lines text)
  if r.2 ≠ [] then .error ("not an IP address or hostname: " ++ String.intercalate ", " r.2)
  else .ok r.1

/-! ### The file -/

/-- What the file has for `peers`: an array, with its strings told from other values, or else. -/
inductive PeersItem
  | array (values : List (Option Str))
  | other
  deriving DecidableEq

/-- What the file has for `router`: a table, with what it has for `peers`, or else. -/
inductive RouterItem
  | table (peers : Option PeersItem)
  | other
  deriving DecidableEq

/-- A configuration file, as far as the import looks at it. -/
structure Document where
  router : Option RouterItem
  deriving DecidableEq

/-- `str::to_ascii_lowercase`. -/
def toAsciiLowercase (s : Str) : Str := s.map Char.toLower

/-- What is in the array, and how many hosts were added and were already present, when the rest of
the hosts has been gone through. -/
def mergeHosts (seen : List Str) (arr : List (Option Str)) (added present : ℕ) :
    List Str → List (Option Str) × ℕ × ℕ
  | [] => (arr, added, present)
  | host :: new =>
    if seen.contains (toAsciiLowercase host) then mergeHosts seen arr added (present + 1) new
    else mergeHosts (toAsciiLowercase host :: seen) (arr ++ [some host]) (added + 1) present new

/-- Append the peers that are not there yet, and count those added and those already present. A
`router` or `peers` of the wrong shape is left alone. -/
def mergePeers (doc : Document) (new : List Str) : Document × ℕ × ℕ :=
  match doc.router.getD (.table none) with
  | .other => (doc, 0, 0)
  | .table peers =>
    match peers.getD (.array []) with
    | .other => (doc, 0, 0)
    | .array arr =>
      let r := mergeHosts (arr.reduceOption.map toAsciiLowercase) arr 0 0 new
      (⟨some (.table (some (.array r.1)))⟩, r.2)

end AppleTalk
