import AppleTalk.Lib.Run
import AppleTalk.Session.Transactions

/-!
# Transactions do not disturb each other

Below its cap the reassembler is one small machine for each transaction, which takes that
transaction's packets alone. A packet of another transaction can only sweep this one out, and then
its own next packet, which is no earlier, would have done the same.
-/

namespace AppleTalk

namespace Partial

/-- What the packets of one transaction make of it by themselves. -/
def feed (key : TxnKey) (o : Option Partial) (x : Instant × Packet) :
    Option Partial × Option Transaction :=
  let o := o.filter (fresh x.1)
  match x.2.atp with
  | none => (o, none)
  | some (_, atp) =>
    if atp.func ≠ .resp then (o, none)
    else if h : atp.bitmap.toNat < 8 then
      let q := (o.getD (.new x.1)).store ⟨atp.bitmap.toNat, h⟩ atp
      match q.takeIfComplete with
      | none => (some q, none)
      | some data =>
        (none, some { key := key, userBytes := q.userBytes, data := data, «at» := x.1 })
    else (o, none)

/-- What a run of its packets completes. -/
def feedAll (key : TxnKey) : Option Partial → List (Instant × Packet) → List Transaction
  | _, [] => []
  | o, x :: xs => (feed key o x).2.toList ++ feedAll key (feed key o x).1 xs

theorem feed_key {key : TxnKey} {o : Option Partial} {x : Instant × Packet} {t : Transaction}
    (h : (feed key o x).2 = some t) : t.key = key := by
  unfold feed at h
  dsimp only at h
  split at h
  · cases h
  · split_ifs at h
    split at h
    · cases h
    · obtain rfl := Option.some.inj h
      rfl

theorem feed_congr {o o' : Option Partial} {x : Instant × Packet}
    (h : o.filter (fresh x.1) = o'.filter (fresh x.1)) (key : TxnKey) :
    feed key o x = feed key o' x := by
  unfold feed
  rw [h]

/-- What a sweep leaves at some time, a later sweep leaves of what was there. -/
theorem filter_fresh_filter {now now' : Instant} (h : now ≤ now') (o : Option Partial) :
    (o.filter (fresh now)).filter (fresh now') = o.filter (fresh now') := by
  cases o with
  | none => rfl
  | some p =>
    have hle : since now p.firstSeen ≤ since now' p.firstSeen := Nat.sub_le_sub_right h _
    cases hp : fresh now' p with
    | true =>
      have hlate := of_decide_eq_true hp
      have hp' : fresh now p = true := decide_eq_true (hle.trans_lt hlate)
      simp [Option.filter, hp, hp']
    | false => cases hp' : fresh now p <;> simp [Option.filter, hp, hp']

end Partial

namespace Transactions

variable (order : List (TxnKey × Partial) → List (TxnKey × Partial))

/-- Below the cap the sweep only drops what is too old. -/
theorem expire_get? {s : Transactions} (h : s.openCount < MAX_OPEN) (now : Instant) (key : TxnKey) :
    (s.expire order now).open.get? key = (s.open.get? key).filter (Partial.fresh now) := by
  have hkept : (s.open.retain fun _ p => p.fresh now).size < MAX_OPEN :=
    (List.length_filter_le _ _).trans_lt h
  unfold expire
  rw [if_neg (Nat.not_le.2 hkept)]
  exact SortedMap.get?_retain _ _ _

/-- **A packet of the transaction** makes of it what it would by itself. -/
theorem push_own {s : Transactions} (h : s.openCount < MAX_OPEN) {x : Instant × Packet}
    {key : TxnKey} {atp : Atp} (hx : x.2.atp = some (key, atp)) :
    (s.push order x.1 x.2).2 = (Partial.feed key (s.open.get? key) x).2 ∧
      (s.next order x).open.get? key = (Partial.feed key (s.open.get? key) x).1 := by
  have hget := expire_get? order h x.1 key
  unfold next push Partial.feed
  dsimp only
  rw [hx, ← hget]
  dsimp only
  split_ifs with hresp hseq
  · exact ⟨rfl, rfl⟩
  · generalize Partial.store _ _ _ = q
    cases q.takeIfComplete with
    | none => exact ⟨rfl, SortedMap.get?_insert_self _ _ _⟩
    | some data => exact ⟨rfl, SortedMap.get?_erase_self _ _⟩
  · exact ⟨rfl, rfl⟩

/-- **A packet of another transaction**, or of none, can at most sweep it out. -/
theorem push_other {s : Transactions} (h : s.openCount < MAX_OPEN) {x : Instant × Packet}
    {key : TxnKey} (hx : ∀ atp, x.2.atp ≠ some (key, atp)) :
    (∀ t, (s.push order x.1 x.2).2 = some t → t.key ≠ key) ∧
      (s.next order x).open.get? key = (s.open.get? key).filter (Partial.fresh x.1) := by
  have hget := expire_get? order h x.1 key
  unfold next push
  dsimp only
  cases hp : x.2.atp with
  | none => exact ⟨by simp, hget⟩
  | some other =>
    obtain ⟨key', atp⟩ := other
    have hne : key' ≠ key := by
      rintro rfl
      exact hx atp hp
    dsimp only
    split_ifs with hresp hseq
    · exact ⟨by simp, hget⟩
    · split
      · refine ⟨by simp, ?_⟩
        rw [SortedMap.get?_insert, if_neg hne, hget]
      · refine ⟨?_, ?_⟩
        · rintro t ht
          obtain rfl := Option.some.inj ht
          exact hne
        · rw [SortedMap.get?_erase, if_neg (Ne.symm hne), hget]
    · exact ⟨by simp, hget⟩

/-- From some time on, the map and the transaction by itself hold the same of it, sweeps aside. -/
def Agrees (key : TxnKey) (now : Instant) (s : Transactions) (o : Option Partial) : Prop :=
  ∀ now', now ≤ now' → (s.open.get? key).filter (Partial.fresh now') =
    o.filter (Partial.fresh now')

/-- The packet is one of the transaction. -/
def IsOf (key : TxnKey) (x : Instant × Packet) : Bool := x.2.atp.any fun a => a.1 = key

/-- Below the cap a run completes of each transaction what its own packets complete by
themselves. -/
theorem completed_eq_feedAll {key : TxnKey} {s : Transactions} {o : Option Partial}
    {now : Instant} {xs : List (Instant × Packet)} (hs : Agrees key now s o)
    (htimes : (now :: xs.map Prod.fst).Pairwise (· ≤ ·))
    (hroom : Machine.Guarded (next order) (fun s _ => s.openCount < MAX_OPEN) s xs) :
    (completed order s xs).filter (fun t => t.key = key) =
      Partial.feedAll key o (xs.filter (IsOf key)) := by
  induction xs generalizing s o now with
  | nil => rfl
  | cons x xs ih =>
    rw [List.map_cons, List.pairwise_cons] at htimes
    obtain ⟨hnow, htimes⟩ := htimes
    have hx : now ≤ x.1 := hnow x.1 List.mem_cons_self
    unfold completed
    rw [List.filter_append]
    by_cases hof : IsOf key x
    · -- Both take the packet in, and what it leaves is the same.
      obtain ⟨⟨key', atp⟩, hatp, hkey⟩ := (Option.any_eq_true _ _).1 hof
      obtain rfl := of_decide_eq_true hkey
      obtain ⟨hout, hget⟩ := push_own order hroom.1 hatp
      have hfeed := Partial.feed_congr (hs x.1 hx) key'
      rw [hfeed] at hout hget
      rw [List.filter_cons_of_pos hof, Partial.feedAll, hout]
      congr 1
      · cases ho : (Partial.feed key' o x).2 with
        | none => rfl
        | some t => simp [Partial.feed_key ho]
      · exact ih (fun now' _ => by rw [hget]) htimes hroom.2
    · have hother : ∀ atp, x.2.atp ≠ some (key, atp) := by
        intro atp hatp
        exact hof (by simp [IsOf, hatp])
      obtain ⟨hout, hget⟩ := push_other order hroom.1 hother
      have hnone : (s.push order x.1 x.2).2.toList.filter (fun t => t.key = key) = [] := by
        cases ho : (s.push order x.1 x.2).2 with
        | none => rfl
        | some t => simp [hout t ho]
      rw [List.filter_cons_of_neg hof, hnone, List.nil_append]
      refine ih (fun now' hnow' => ?_) htimes hroom.2
      -- What this packet swept out, its own next packet would have.
      rw [hget, Partial.filter_fresh_filter hnow']
      exact hs now' (hx.trans hnow')

/-! ### The packets of one transaction alone -/

/-- Only one transaction is open. -/
def Only (key : TxnKey) (s : Transactions) : Prop := ∀ k, k ≠ key → s.open.get? k = none

/-- There is room for one transaction more than the others that are open. -/
def Spare (key : TxnKey) (s : Transactions) : Prop := (s.open.erase key).size + 1 < MAX_OPEN

theorem Spare.openCount_lt {key : TxnKey} {s : Transactions} (h : Spare key s) :
    s.openCount < MAX_OPEN := (SortedMap.size_le_erase s.open key).trans_lt h

theorem Spare.of_openCount {key : TxnKey} {s : Transactions} (h : s.openCount + 1 < MAX_OPEN) :
    Spare key s := (Nat.succ_le_succ (List.length_filter_le _ _)).trans_lt h

theorem Only.spare {key : TxnKey} {s : Transactions} (h : Only key s) : Spare key s := by
  have hempty : (s.open.erase key).size ≤ (.empty : SortedMap TxnKey Partial).size := by
    refine SortedMap.size_le fun k p hp => ?_
    obtain ⟨hk, hp⟩ := SortedMap.get?_of_get?_erase hp
    rw [h k hk] at hp
    cases hp
  exact (Nat.succ_le_succ hempty).trans_lt (by decide)

/-- A packet of the transaction opens no other. -/
theorem Spare.next {key : TxnKey} {s : Transactions} (h : Spare key s) {x : Instant × Packet}
    (hx : IsOf key x) : Spare key (Transactions.next order s x) := by
  obtain ⟨⟨key', atp⟩, hatp, hkey⟩ := (Option.any_eq_true _ _).1 hx
  obtain rfl := of_decide_eq_true hkey
  refine (Nat.succ_le_succ (SortedMap.size_le fun k p hp => ?_)).trans_lt h
  obtain ⟨hk, hp⟩ := SortedMap.get?_of_get?_erase hp
  have hother : ∀ atp', x.2.atp ≠ some (k, atp') := by
    intro atp' h'
    rw [hatp] at h'
    exact hk (Prod.mk.inj (Option.some.inj h')).1.symm
  rw [(push_other order h.openCount_lt hother).2, Option.filter_eq_some_iff] at hp
  rw [SortedMap.get?_erase, if_neg hk]
  exact hp.1

theorem Spare.guarded {key : TxnKey} {s : Transactions} (h : Spare key s)
    {xs : List (Instant × Packet)} (hxs : ∀ x ∈ xs, IsOf key x) :
    Machine.Guarded (Transactions.next order) (fun s _ => s.openCount < MAX_OPEN) s xs := by
  induction xs generalizing s with
  | nil => trivial
  | cons x xs ih =>
    obtain ⟨hx, hxs⟩ := List.forall_mem_cons.1 hxs
    exact ⟨h.openCount_lt, ih (h.next order hx) hxs⟩

theorem key_of_mem_completed {key : TxnKey} {s : Transactions} (h : Spare key s)
    {xs : List (Instant × Packet)} (hxs : ∀ x ∈ xs, IsOf key x) :
    ∀ t ∈ completed order s xs, t.key = key := by
  induction xs generalizing s with
  | nil => simp [completed]
  | cons x xs ih =>
    obtain ⟨hx, hxs⟩ := List.forall_mem_cons.1 hxs
    obtain ⟨⟨key', atp⟩, hatp, hkey⟩ := (Option.any_eq_true _ _).1 hx
    obtain rfl := of_decide_eq_true hkey
    refine List.forall_mem_append.2 ⟨fun t ht => ?_, ih (h.next order hx) hxs⟩
    rw [(push_own order h.openCount_lt hatp).1] at ht
    exact Partial.feed_key (Option.mem_toList.1 ht)

/-- **Transactions do not disturb each other.** While fewer than the cap are open, and time does
not go back, the transactions of a key that a run of packets completes are those its own packets
complete when nothing else is fed in, whatever order the hash map iterates in there. -/
theorem completed_alone (order' : List (TxnKey × Partial) → List (TxnKey × Partial))
    {xs : List (Instant × Packet)} (htimes : (xs.map Prod.fst).Pairwise (· ≤ ·))
    (hroom : Machine.Guarded (next order) (fun s _ => s.openCount < MAX_OPEN) new xs)
    (key : TxnKey) :
    (completed order new xs).filter (fun t => t.key = key) =
      completed order' new (xs.filter (IsOf key)) := by
  have hagrees : Agrees key 0 new none := fun _ _ => rfl
  have honly : Only key new := fun _ _ => rfl
  have hown : ∀ x ∈ xs.filter (IsOf key), IsOf key x := fun x hx => (List.mem_filter.1 hx).2
  have hzero : ∀ ts : List Instant, ts.Pairwise (· ≤ ·) → (0 :: ts).Pairwise (· ≤ ·) :=
    fun ts h => List.pairwise_cons.2 ⟨fun _ _ => Nat.zero_le _, h⟩
  have halone := completed_eq_feedAll order' hagrees
    (hzero _ (htimes.sublist (List.filter_sublist.map _))) (honly.spare.guarded order' hown)
  rw [List.filter_filter, List.filter_eq_self.2 fun t ht => by
    simpa using key_of_mem_completed order' honly.spare hown t ht] at halone
  rw [completed_eq_feedAll order hagrees (hzero _ htimes) hroom, halone]
  simp

/-- One packet of a response between two fixed sockets. -/
def answer (tid : UInt16) (seq : UInt8) (eom : Bool) (data : Bytes) : Packet :=
  { frame := { dst := ⟨0, 0, 0, 0, 0, 1⟩, src := ⟨0, 0, 0, 0, 0, 2⟩, proto := DDP, snap := true
               payload := [] }
    body := .ddp
      { hops := 0, length := 0, checksum := 0, dst := ⟨1, 1⟩, dstSocket := 8, src := ⟨1, 2⟩
        srcSocket := 9, typ := DDP_ATP, data := [] }
      (.atp (.response tid seq eom false ⟨0, 0, 0, 0⟩ data)) }

/-- Two responses of two packets each, interleaved, their packets not in order. -/
def interleaved : List (Instant × Packet) :=
  [(0, answer 1 1 true [3]), (1, answer 2 0 false [5]), (2, answer 1 0 false [4]),
    (3, answer 2 1 true [6])]

theorem completed_alone_interleaved :
    (completed id new interleaved).filter (fun t => t.key = ⟨⟨1, 2⟩, 9, ⟨1, 1⟩, 8, 1⟩) =
      [{ key := ⟨⟨1, 2⟩, 9, ⟨1, 1⟩, 8, 1⟩, userBytes := ⟨0, 0, 0, 0⟩, data := [4, 3],
         «at» := 2 }] := by
  have hroom : Machine.Guarded (next id) (fun s _ => s.openCount < MAX_OPEN) new interleaved :=
    ⟨by decide, by decide, by decide, by decide, trivial⟩
  rw [completed_alone id List.reverse (by decide) hroom]
  decide

end Transactions

end AppleTalk
