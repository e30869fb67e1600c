import AppleTalk.PeerList

/-!
# Importing peers

A list of peers is read whole or refused with every bad line. What it is read as can be written out
and read again, and importing it adds what is missing, each host once: a second time adds nothing.
-/

namespace AppleTalk

/-! ### What a list says -/

/-- A line that is left out. -/
abbrev Skipped (l : Str) : Prop := l = [] ∨ l.head? = some '#'

/-- What stands on the lines of a text that are not left out, with their numbers. -/
def hostLines (i : ℕ) (ls : List Str) : List (ℕ × Str) :=
  ((ls.zipIdx (i + 1)).map fun x => (x.2, trim x.1)).filter fun e => ¬Skipped e.2

/-- How a line is told to be bad. -/
def badLine (e : ℕ × Str) : String := "line " ++ dec e.1

theorem hostLines_cons (i : ℕ) (line : Str) (ls : List Str) : hostLines i (line :: ls) =
    if Skipped (trim line) then hostLines (i + 1) ls
    else (i + 1, trim line) :: hostLines (i + 1) ls := by
  unfold hostLines
  rw [List.zipIdx_cons, List.map_cons, List.filter_cons]
  by_cases h : Skipped (trim line) <;> simp [h]

theorem scanPeerList_eq (out : List Str) (bad : List String) (i : ℕ) (ls : List Str) :
    scanPeerList out bad i ls =
      (out ++ ((hostLines i ls).filter fun e => isHost e.2).map Prod.snd,
        bad ++ ((hostLines i ls).filter fun e => !isHost e.2).map badLine) := by
  induction ls generalizing out bad i with
  | nil => simp [scanPeerList, hostLines]
  | cons line ls ih =>
    unfold scanPeerList
    dsimp only
    rw [hostLines_cons]
    by_cases hskip : Skipped (trim line)
    · rw [if_pos hskip, if_pos hskip, ih]
    · rw [if_neg hskip, if_neg hskip]
      by_cases hhost : isHost (trim line)
      · rw [if_pos hhost, ih]
        simp [hhost]
      · rw [if_neg hhost, ih]
        simp [hhost, badLine]

/-- The hosts of a list, if no line is bad, and otherwise every bad line. -/
theorem parsePeerList_eq (text : Str) : parsePeerList text =
    if ∀ e ∈ hostLines 0 (lines text), isHost e.2 then
      .ok ((hostLines 0 (lines text)).map Prod.snd)
    else .error ("not an IP address or hostname: " ++ String.intercalate ", "
      (((hostLines 0 (lines text)).filter fun e => !isHost e.2).map badLine)) := by
  unfold parsePeerList
  simp only [scanPeerList_eq, List.nil_append, ne_eq, List.map_eq_nil_iff, List.filter_eq_nil_iff]
  by_cases hall : ∀ e ∈ hostLines 0 (lines text), isHost e.2
  · rw [if_pos hall, if_neg (by simpa using hall), List.filter_eq_self.2 hall]
  · rw [if_neg hall, if_pos (by simpa using hall)]

example : parsePeerList "ok.example\nbad host\n-x.y\n".toList =
    .error "not an IP address or hostname: line 2, line 3" := by decide +kernel

/-! ### A list written out -/

/-- What a host is spelled with. -/
def HostChar (c : Char) : Prop := c.isAlphanum ∨ c = '-' ∨ c = '.'

theorem mem_labels {s : Str} {c : Char} (hc : c ∈ s) : c = '.' ∨ ∃ l ∈ labels s, c ∈ l := by
  unfold labels
  induction s with
  | nil => cases hc
  | cons a s ih =>
    rw [List.splitOn_cons_eq_if_modifyHead]
    by_cases ha : a = '.'
    · subst ha
      rw [if_pos (beq_self_eq_true _)]
      rcases List.mem_cons.1 hc with rfl | hc
      · exact Or.inl rfl
      · exact (ih hc).imp_right fun ⟨l, hl, hcl⟩ => ⟨l, List.mem_cons_of_mem _ hl, hcl⟩
    · rw [if_neg (by simpa using ha)]
      cases hs : s.splitOn '.' with
      | nil => exact absurd hs (List.splitOn_ne_nil _ _)
      | cons l ls =>
        rw [hs] at ih
        rcases List.mem_cons.1 hc with rfl | hc
        · exact Or.inr ⟨c :: l, List.mem_cons_self, List.mem_cons_self⟩
        · refine (ih hc).imp_right fun ⟨l', hl', hcl⟩ => ?_
          rcases List.mem_cons.1 hl' with rfl | hl'
          · exact ⟨a :: l', List.mem_cons_self, List.mem_cons_of_mem _ hcl⟩
          · exact ⟨l', List.mem_cons_of_mem _ hl', hcl⟩

theorem hostChar_of_isHost {s : Str} (h : isHost s) {c : Char} (hc : c ∈ s) : HostChar c := by
  rcases mem_labels hc with rfl | ⟨l, hl, hcl⟩
  · exact Or.inr (Or.inr rfl)
  rcases Bool.or_eq_true_iff.1 h with hip | hname
  · have hoctet := List.all_eq_true.1 (Bool.and_eq_true_iff.1 hip).2 l hl
    simp only [isOctet, Bool.and_eq_true, List.all_eq_true] at hoctet
    exact Or.inl (Bool.or_eq_true_iff.2 (Or.inr (hoctet.1.1.2 c hcl)))
  · have hlabel := List.all_eq_true.1 (Bool.and_eq_true_iff.1 hname).2 l hl
    simp only [isLabel, Bool.and_eq_true, List.all_eq_true] at hlabel
    have hchar := hlabel.2 c hcl
    rw [Bool.or_eq_true, decide_eq_true_eq] at hchar
    exact hchar.imp_right Or.inl

theorem ne_nil_of_isHost {s : Str} (h : isHost s) : s ≠ [] := by
  rintro rfl
  exact absurd h (by decide)

/-- No host is spelled with what a line of a list is cut at. -/
theorem HostChar.plain {c : Char} (h : HostChar c) :
    whitespace c = false ∧ c ≠ '#' ∧ c ≠ '\n' ∧ c ≠ '\r' := by
  have hrange : 45 ≤ c.toNat ∧ c.toNat ≤ 122 := by
    rcases h with h | rfl | rfl
    · have hupper : c.isUpper = decide (c.val ≥ 'A'.val ∧ c.val ≤ 'Z'.val) := rfl
      have hlower : c.isLower = (decide (c.val ≥ 'a'.val) && decide (c.val ≤ 'z'.val)) := rfl
      have hdigit : c.isDigit = (decide (c.val ≥ '0'.val) && decide (c.val ≤ '9'.val)) := rfl
      have hsplit : c.isAlphanum = (c.isUpper || c.isLower || c.isDigit) := rfl
      simp only [hsplit, hupper, hlower, hdigit, Bool.or_eq_true, Bool.and_eq_true,
        decide_eq_true_eq, ge_iff_le, UInt32.le_iff_toNat_le, Char.toNat_val] at h
      have hends : 'A'.toNat = 65 ∧ 'Z'.toNat = 90 ∧ 'a'.toNat = 97 ∧ 'z'.toNat = 122 ∧
        '0'.toNat = 48 ∧ '9'.toNat = 57 := by decide
      omega
    · decide
    · decide
  have hne : ∀ d : Char, d.toNat < 45 → c ≠ d := by
    rintro d hd rfl
    omega
  refine ⟨?_, hne _ (by decide), hne _ (by decide), hne _ (by decide)⟩
  have hspace : c.toNat ∉ [0x20, 0x85, 0xa0, 0x1680, 0x2028, 0x2029, 0x202f, 0x205f, 0x3000] := by
    simp only [List.mem_cons, List.not_mem_nil, or_false]
    omega
  simp only [whitespace, Bool.or_eq_false_iff, Bool.and_eq_false_iff, decide_eq_false_iff_not,
    List.contains_eq_mem]
  exact ⟨⟨by omega, by omega⟩, hspace⟩

theorem trim_host {s : Str} (h : isHost s) : trim s = s := by
  have hplain : ∀ c ∈ s, ¬whitespace c = true := fun c hc => by
    simp [(hostChar_of_isHost h hc).plain.1]
  unfold trim
  rw [List.dropWhile_eq_self_iff.2 fun hl => hplain _ (List.getElem_mem hl)]
  exact List.rdropWhile_eq_self_iff.2 fun hl => hplain _ (List.getLast_mem hl)

theorem not_skipped_host {s : Str} (h : isHost s) : ¬Skipped s := by
  rintro (hnil | hhash)
  · exact ne_nil_of_isHost h hnil
  · exact (hostChar_of_isHost h (List.mem_of_head? hhash)).plain.2.1 rfl

theorem linesFrom_append {l : Str} (hl : '\n' ∉ l) (cur rest : Str) :
    linesFrom cur (l ++ '\n' :: rest) = stripCr (cur ++ l) :: linesFrom [] rest := by
  induction l generalizing cur with
  | nil => simp [linesFrom]
  | cons c l ih =>
    obtain ⟨hc, hl⟩ := not_or.1 (mt List.mem_cons.2 hl)
    rw [List.cons_append, linesFrom, if_neg (Ne.symm hc), ih hl, List.append_assoc]
    rfl

/-- A list with one host a line. -/
def writtenOut (hosts : List Str) : Str := hosts.flatMap (· ++ ['\n'])

theorem lines_writtenOut {hosts : List Str} (h : ∀ host ∈ hosts, isHost host) :
    lines (writtenOut hosts) = hosts := by
  unfold lines writtenOut
  induction hosts with
  | nil => rfl
  | cons host hosts ih =>
    obtain ⟨hhost, hhosts⟩ := List.forall_mem_cons.1 h
    have hplain := fun c (hc : c ∈ host) => (hostChar_of_isHost hhost hc).plain.2.2
    have hcr : stripCr host = host :=
      if_neg fun hlast => (hplain _ (List.mem_of_getLast? hlast)).2 rfl
    rw [List.flatMap_cons, List.append_assoc, List.singleton_append,
      linesFrom_append fun hn => (hplain _ hn).1 rfl, List.nil_append, hcr, ih hhosts]

theorem map_snd_hostLines {hosts : List Str} (h : ∀ host ∈ hosts, isHost host) (i : ℕ) :
    (hostLines i hosts).map Prod.snd = hosts := by
  induction hosts generalizing i with
  | nil => rfl
  | cons host hosts ih =>
    obtain ⟨hhost, hhosts⟩ := List.forall_mem_cons.1 h
    rw [hostLines_cons, trim_host hhost, if_neg (not_skipped_host hhost), List.map_cons,
      ih hhosts]

/-- **What a list is read as can be written out again**, one host a line, and is read as the same.
Nothing but letters, digits, hyphens and dots is in it. -/
theorem written_out {text : Str} {hosts : List Str} (h : parsePeerList text = .ok hosts) :
    parsePeerList (writtenOut hosts) = .ok hosts ∧
      ∀ host ∈ hosts, host ≠ [] ∧ ∀ c ∈ host, HostChar c := by
  have hhosts : ∀ host ∈ hosts, isHost host := by
    rw [parsePeerList_eq] at h
    split_ifs at h with hall
    obtain rfl := Except.ok.inj h
    exact List.forall_mem_map.2 hall
  have hback : ∀ e ∈ hostLines 0 hosts, isHost e.2 := fun e he =>
    hhosts _ (map_snd_hostLines hhosts 0 ▸ List.mem_map_of_mem he)
  refine ⟨?_, fun host hhost =>
    ⟨ne_nil_of_isHost (hhosts host hhost), fun c => hostChar_of_isHost (hhosts host hhost)⟩⟩
  rw [parsePeerList_eq, lines_writtenOut hhosts, if_pos hback, map_snd_hostLines hhosts]

/-- A comment, a blank line, and lines that end in different ways. -/
def peerList : Str := "# GlobalTalk\n A.example.net \n\n192.0.2.7\r\nNEW.example.org\n".toList

theorem written_out_three : parsePeerList (writtenOut
      ["A.example.net".toList, "192.0.2.7".toList, "NEW.example.org".toList]) =
    .ok ["A.example.net".toList, "192.0.2.7".toList, "NEW.example.org".toList] :=
  (@written_out peerList _ rfl).1

/-! ### What is added -/

/-- The array a document has for the peers, or would be given for them. -/
def Document.peers (doc : Document) : Option (List (Option Str)) :=
  match doc.router.getD (.table none) with
  | .other => none
  | .table peers =>
    match peers.getD (.array []) with
    | .other => none
    | .array arr => some arr

/-- A document with an array of peers. -/
def Document.ofPeers (arr : List (Option Str)) : Document := ⟨some (.table (some (.array arr)))⟩

/-- The hosts that are none of those seen before, whatever their case. -/
def unseen (seen : List Str) : List Str → List Str
  | [] => []
  | host :: new =>
    if seen.contains (toAsciiLowercase host) then unseen seen new
    else host :: unseen (toAsciiLowercase host :: seen) new

theorem unseen_sublist (seen new : List Str) : (unseen seen new).Sublist new := by
  induction new generalizing seen with
  | nil => exact .slnil
  | cons host new ih =>
    unfold unseen
    split_ifs
    · exact (ih seen).cons host
    · exact (ih _).cons_cons host

theorem mergeHosts_eq (seen : List Str) (arr : List (Option Str)) (added present : ℕ)
    (new : List Str) : mergeHosts seen arr added present new =
      (arr ++ (unseen seen new).map some, added + (unseen seen new).length,
        present + (new.length - (unseen seen new).length)) := by
  induction new generalizing seen arr added present with
  | nil => simp [mergeHosts, unseen]
  | cons host new ih =>
    have hlen := (unseen_sublist seen new).length_le
    unfold mergeHosts unseen
    split_ifs with hseen
    · rw [ih, List.length_cons, Nat.add_assoc, Nat.add_comm 1, Nat.sub_add_comm hlen]
    · rw [ih]
      simp [Nat.add_assoc, Nat.add_comm 1]

theorem mergePeers_eq {doc : Document} {arr : List (Option Str)} (hdoc : doc.peers = some arr)
    (new : List Str) : mergePeers doc new =
      let added := unseen (arr.reduceOption.map toAsciiLowercase) new
      (.ofPeers (arr ++ added.map some), added.length, new.length - added.length) := by
  unfold Document.peers at hdoc
  unfold mergePeers
  cases hrouter : doc.router.getD (.table none) with
  | other =>
    rw [hrouter] at hdoc
    cases hdoc
  | table peers =>
    rw [hrouter] at hdoc
    dsimp only at hdoc ⊢
    cases hpeers : peers.getD (.array []) with
    | other =>
      rw [hpeers] at hdoc
      cases hdoc
    | array arr' =>
      rw [hpeers] at hdoc
      obtain rfl := Option.some.inj hdoc
      simp only [mergeHosts_eq, Nat.zero_add]
      rfl

/-- Nothing that is added was seen, and every host is seen in the end. -/
theorem unseen_new (seen new : List Str) :
    (∀ host ∈ unseen seen new, toAsciiLowercase host ∉ seen) ∧
      ((unseen seen new).map toAsciiLowercase).Nodup ∧
      ∀ host ∈ new, toAsciiLowercase host ∈ seen ++ (unseen seen new).map toAsciiLowercase := by
  induction new generalizing seen with
  | nil => simp [unseen]
  | cons host new ih =>
    unfold unseen
    split_ifs with hseen
    · obtain ⟨hout, honce, hall⟩ := ih seen
      have hold := List.contains_iff_mem.1 hseen
      exact ⟨hout, honce, List.forall_mem_cons.2 ⟨List.mem_append_left _ hold, hall⟩⟩
    · obtain ⟨hout, honce, hall⟩ := ih (toAsciiLowercase host :: seen)
      have hnew := mt List.contains_iff_mem.2 hseen
      refine ⟨List.forall_mem_cons.2 ⟨hnew, fun h hh hs => hout h hh (List.mem_cons_of_mem _ hs)⟩,
        List.nodup_cons.2 ⟨fun hmem => ?_, honce⟩, List.forall_mem_cons.2 ⟨?_, fun h hh => ?_⟩⟩
      · obtain ⟨h, hh, he⟩ := List.mem_map.1 hmem
        exact hout h hh (he ▸ List.mem_cons_self)
      · exact List.mem_append_right _ List.mem_cons_self
      · have hin := hall h hh
        simp only [List.mem_append, List.mem_cons, List.map_cons] at hin ⊢
        tauto

/-- Where every host was seen nothing is added. -/
theorem unseen_eq_nil {seen new : List Str} (h : ∀ host ∈ new, toAsciiLowercase host ∈ seen) :
    unseen seen new = [] := by
  induction new with
  | nil => rfl
  | cons host new ih =>
    obtain ⟨hhost, hnew⟩ := List.forall_mem_cons.1 h
    unfold unseen
    rw [if_pos (List.contains_iff_mem.2 hhost), ih hnew]

theorem reduceOption_append_some (arr : List (Option Str)) (added : List Str) :
    (arr ++ added.map some).reduceOption = arr.reduceOption ++ added := by
  rw [List.reduceOption_append]
  simp [List.reduceOption]

/-- **Importing peers.** A list is read as the hosts on its lines if there is no bad line, and is
otherwise refused with the number of every bad line. Of the hosts those are appended, in order,
that are not there yet, each once whatever its case; the counts say how many, and how many not.
All are there then, so that a second time nothing is added. -/
theorem peers_imported (text : Str) {doc : Document} {arr : List (Option Str)}
    (hdoc : doc.peers = some arr) :
    let hosts := (hostLines 0 (lines text)).map Prod.snd
    (parsePeerList text =
      if ∀ host ∈ hosts, isHost host then .ok hosts
      else .error ("not an IP address or hostname: " ++ String.intercalate ", "
        (((hostLines 0 (lines text)).filter fun e => !isHost e.2).map badLine))) ∧
    ∃ added : List Str, added.Sublist hosts ∧
      mergePeers doc hosts =
        (.ofPeers (arr ++ added.map some), added.length, hosts.length - added.length) ∧
      (added.map toAsciiLowercase).Nodup ∧
      (∀ host ∈ added, ∀ p, some p ∈ arr → eqIgnoreAsciiCase p host = false) ∧
      (∀ host ∈ hosts, ∃ p, some p ∈ arr ++ added.map some ∧ eqIgnoreAsciiCase p host = true) ∧
      mergePeers (mergePeers doc hosts).1 hosts = ((mergePeers doc hosts).1, 0, hosts.length) := by
  intro hosts
  have hread := parsePeerList_eq text
  have hforall : (∀ host ∈ hosts, isHost host) ↔ ∀ e ∈ hostLines 0 (lines text), isHost e.2 :=
    List.forall_mem_map
  obtain ⟨hout, honce, hall⟩ := unseen_new (arr.reduceOption.map toAsciiLowercase) hosts
  refine ⟨by simpa only [hforall] using hread,
    unseen (arr.reduceOption.map toAsciiLowercase) hosts, unseen_sublist _ _,
    mergePeers_eq hdoc hosts, honce, fun host hhost p hp => ?fresh, fun host hhost => ?there,
    ?again⟩
  case fresh =>
    refine beq_eq_false_iff_ne.2 fun he => hout host hhost ?_
    exact List.mem_map.2 ⟨p, List.reduceOption_mem_iff.2 hp, he⟩
  case there =>
    have hin := hall host hhost
    rw [← List.map_append, ← reduceOption_append_some] at hin
    obtain ⟨p, hp, he⟩ := List.mem_map.1 hin
    exact ⟨p, List.reduceOption_mem_iff.1 hp, beq_iff_eq.2 he⟩
  case again =>
    have hnext : (mergePeers doc hosts).1.peers =
        some (arr ++ (unseen (arr.reduceOption.map toAsciiLowercase) hosts).map some) := by
      rw [mergePeers_eq hdoc]
      rfl
    rw [← List.map_append, ← reduceOption_append_some] at hall
    rw [mergePeers_eq hnext, unseen_eq_nil hall, mergePeers_eq hdoc]
    simp

/-- A file with a peer and something that is none. -/
def peerFile : Document := .ofPeers [some "a.example.net".toList, none]

theorem peers_imported_twice :
    let hosts := (hostLines 0 (lines peerList)).map Prod.snd
    (mergePeers peerFile hosts).2 = (2, 1) ∧
      mergePeers (mergePeers peerFile hosts).1 hosts = ((mergePeers peerFile hosts).1, 0, 3) := by
  obtain ⟨-, -, -, -, -, -, -, hagain⟩ := @peers_imported peerList peerFile _ rfl
  exact ⟨by decide +kernel, hagain⟩

end AppleTalk
