import AppleTalk.Properties.Reassembly
import AppleTalk.Session.Session

/-!
# The sweep of the reassembler

Before a packet is looked at, transactions that are too old are dropped, and while there is no room
for one more the oldest. So the reassembler never holds more than its cap nor anything too old, and
nothing young is lost but to what is younger.
-/

namespace AppleTalk

namespace Transactions

variable {order : List (TxnKey × Partial) → List (TxnKey × Partial)}
  {s : Transactions} {now : Instant} {k : TxnKey} {q : Partial}

/-! ### The oldest -/

/-- The open transactions, the oldest first. -/
def byAge (order : List (TxnKey × Partial) → List (TxnKey × Partial))
    (m : SortedMap TxnKey Partial) : List (Instant × TxnKey) :=
  ((order m.entries).map fun e => (e.2.firstSeen, e.1)).mergeSort fun a b => a.1 ≤ b.1

theorem pairwise_byAge (order : List (TxnKey × Partial) → List (TxnKey × Partial))
    (m : SortedMap TxnKey Partial) : (byAge order m).Pairwise fun a b => a.1 ≤ b.1 := by
  have htrans : ∀ a b c : Instant × TxnKey, decide (a.1 ≤ b.1) → decide (b.1 ≤ c.1) →
      decide (a.1 ≤ c.1) := by
    intro a b c hab hbc
    exact decide_eq_true ((of_decide_eq_true hab).trans (of_decide_eq_true hbc))
  have htotal : ∀ a b : Instant × TxnKey, decide (a.1 ≤ b.1) || decide (b.1 ≤ a.1) := by
    intro a b
    rw [Bool.or_eq_true, decide_eq_true_eq, decide_eq_true_eq]
    exact le_total a.1 b.1
  exact (List.pairwise_mergeSort htrans htotal _).imp of_decide_eq_true

section Order

variable (horder : ∀ l, (order l).Perm l)

include horder

theorem mem_byAge {m : SortedMap TxnKey Partial} {x : Instant × TxnKey} :
    x ∈ byAge order m ↔ ∃ q, m.get? x.2 = some q ∧ x.1 = q.firstSeen := by
  unfold byAge
  rw [(List.mergeSort_perm _ _).mem_iff, ((horder m.entries).map _).mem_iff]
  simp only [List.mem_map, Prod.exists, SortedMap.mem_entries_iff]
  constructor
  · rintro ⟨k, q, hq, rfl⟩
    exact ⟨q, hq, rfl⟩
  · rintro ⟨q, hq, he⟩
    exact ⟨x.2, q, hq, Prod.ext he.symm rfl⟩

theorem length_byAge (m : SortedMap TxnKey Partial) : (byAge order m).length = m.size := by
  unfold byAge
  rw [(List.mergeSort_perm _ _).length_eq, List.length_map, (horder m.entries).length_eq]
  rfl

end Order

/-! ### The sweep -/

/-- What is young enough when the sweep comes. -/
def kept (s : Transactions) (now : Instant) : SortedMap TxnKey Partial :=
  s.open.retain fun _ p => p.fresh now

theorem get?_kept : (s.kept now).get? k = some q ↔ s.open.get? k = some q ∧ q.fresh now := by
  rw [kept, SortedMap.get?_retain, Option.filter_eq_some_iff]

/-- How many of them have to go. -/
def surplus (s : Transactions) (now : Instant) : ℕ := (s.kept now).size - (MAX_OPEN - 1)

theorem expire_eq (order : List (TxnKey × Partial) → List (TxnKey × Partial)) (s : Transactions)
    (now : Instant) : s.expire order now =
      if MAX_OPEN ≤ (s.kept now).size then
        { «open» := ((byAge order (s.kept now)).take (s.surplus now)).foldl
            (fun m t => m.erase t.2) (s.kept now) }
      else { «open» := s.kept now } := rfl

/-- A sweep that finds no room. -/
theorem expire_full (hfull : MAX_OPEN ≤ (s.kept now).size) : (s.expire order now).open =
    ((byAge order (s.kept now)).take (s.surplus now)).foldl (fun m t => m.erase t.2)
      (s.kept now) := by
  rw [expire_eq, if_pos hfull]

/-- A sweep that finds room. -/
theorem expire_room (hroom : ¬MAX_OPEN ≤ (s.kept now).size) :
    (s.expire order now).open = s.kept now := by
  rw [expire_eq, if_neg hroom]

/-- What a sweep leaves: what is young enough, and not among the oldest that have to go. -/
theorem get?_expire : (s.expire order now).open.get? k = some q ↔
    (s.open.get? k = some q ∧ q.fresh now) ∧ (MAX_OPEN ≤ (s.kept now).size →
      k ∉ ((byAge order (s.kept now)).take (s.surplus now)).map Prod.snd) := by
  rw [← get?_kept]
  by_cases hfull : MAX_OPEN ≤ (s.kept now).size
  · rw [expire_full hfull, SortedMap.get?_foldl_erase, imp_iff_right hfull]
  · rw [expire_room hfull]
    exact ⟨fun h => ⟨h, fun hf => absurd hf hfull⟩, And.left⟩

/-- What a sweep drops while it is young is among the oldest that have to go. -/
theorem mem_taken_of_expired (hq : s.open.get? k = some q)
    (hgone : (s.expire order now).open.get? k = none) (hfresh : q.fresh now) :
    MAX_OPEN ≤ (s.kept now).size ∧
      k ∈ ((byAge order (s.kept now)).take (s.surplus now)).map Prod.snd := by
  by_contra hnot
  rw [not_and] at hnot
  rw [get?_expire.2 ⟨⟨hq, hfresh⟩, hnot⟩] at hgone
  cases hgone

section Order

variable (horder : ∀ l, (order l).Perm l)

include horder

/-- A sweep leaves room for one more. -/
theorem openCount_expire_lt (s : Transactions) (now : Instant) :
    (s.expire order now).openCount < MAX_OPEN := by
  by_cases hfull : MAX_OPEN ≤ (s.kept now).size
  · have hrest : ∀ k q, (s.expire order now).open.get? k = some q →
        k ∈ ((byAge order (s.kept now)).drop (s.surplus now)).map Prod.snd := by
      intro k q hq
      obtain ⟨hk, hout⟩ := get?_expire.1 hq
      have hmem : (q.firstSeen, k) ∈ byAge order (s.kept now) :=
        (mem_byAge horder).2 ⟨q, get?_kept.2 hk, rfl⟩
      rw [← List.take_append_drop (s.surplus now) (byAge order (s.kept now))] at hmem
      rcases List.mem_append.1 hmem with htake | hdrop
      · exact absurd (List.mem_map_of_mem htake) (hout hfull)
      · exact List.mem_map_of_mem hdrop
    have hsize := SortedMap.size_le_length hrest
    rw [List.length_map, List.length_drop, length_byAge horder, surplus] at hsize
    have hcap : 0 < MAX_OPEN := by decide
    unfold openCount
    omega
  · have hsub : (s.expire order now).open.size ≤ (s.kept now).size :=
      SortedMap.size_le fun k q hq => get?_kept.2 (get?_expire.1 hq).1
    exact hsub.trans_lt (Nat.not_le.1 hfull)

/-- What a sweep drops is too old, or as old as anything it leaves. -/
theorem oldest_of_expired (hq : s.open.get? k = some q)
    (hgone : (s.expire order now).open.get? k = none) (hfresh : q.fresh now) :
    MAX_OPEN ≤ s.openCount ∧ ∀ k' q', (s.expire order now).open.get? k' = some q' →
      q.firstSeen ≤ q'.firstSeen := by
  obtain ⟨hfull, hk⟩ := mem_taken_of_expired hq hgone hfresh
  refine ⟨hfull.trans (List.length_filter_le ..), fun k' q' hq' => ?_⟩
  obtain ⟨x, hx, hxk⟩ := List.mem_map.1 hk
  obtain ⟨p, hp, hxp⟩ := (mem_byAge horder).1 (List.mem_of_mem_take hx)
  rw [hxk, get?_kept.2 ⟨hq, hfresh⟩] at hp
  obtain rfl := Option.some.inj hp
  obtain ⟨hk', hstay⟩ := get?_expire.1 hq'
  have hmem : (q'.firstSeen, k') ∈ byAge order (s.kept now) :=
    (mem_byAge horder).2 ⟨q', get?_kept.2 hk', rfl⟩
  have hsorted := pairwise_byAge order (s.kept now)
  rw [← List.take_append_drop (s.surplus now) (byAge order (s.kept now))] at hmem hsorted
  rcases List.mem_append.1 hmem with htake | hdrop
  · exact absurd (List.mem_map_of_mem htake) (hstay hfull)
  · have hle := (List.pairwise_append.1 hsorted).2.2 x hx _ hdrop
    rwa [hxp] at hle

end Order

/-! ### One packet -/

/-- What a packet does to the transactions it is not of is the sweep. -/
theorem get?_push_other {x : Instant × Packet} (hother : ∀ atp, x.2.atp ≠ some (k, atp)) :
    (s.next order x).open.get? k = (s.expire order x.1).open.get? k := by
  unfold next push
  dsimp only
  cases hatp : x.2.atp with
  | none => rfl
  | some e =>
    obtain ⟨key, atp⟩ := e
    have hne : k ≠ key := by
      rintro rfl
      exact hother atp hatp
    dsimp only
    split_ifs with hresp hseq
    · rfl
    · cases Partial.takeIfComplete _ with
      | none => exact (SortedMap.get?_insert ..).trans (if_neg hne.symm)
      | some data => exact (SortedMap.get?_erase ..).trans (if_neg hne)
    · rfl

/-- What is open after a packet was left by the sweep, or the packet opened it. -/
theorem firstSeen_of_next {x : Instant × Packet} (h : (s.next order x).open.get? k = some q) :
    q.firstSeen = x.1 ∨
      ∃ p, (s.expire order x.1).open.get? k = some p ∧ q.firstSeen = p.firstSeen := by
  unfold next push at h
  dsimp only at h
  cases hatp : x.2.atp with
  | none =>
    rw [hatp] at h
    exact Or.inr ⟨q, h, rfl⟩
  | some e =>
    obtain ⟨key, atp⟩ := e
    rw [hatp] at h
    dsimp only at h
    split_ifs at h with hresp hseq
    · exact Or.inr ⟨q, h, rfl⟩
    · cases hdone : (((s.expire order x.1).open.get? key).getD (.new x.1)).store
          ⟨atp.bitmap.toNat, hseq⟩ atp |>.takeIfComplete with
      | none =>
        rw [hdone] at h
        dsimp only at h
        rw [SortedMap.get?_insert] at h
        split_ifs at h with hkey
        · subst hkey
          obtain rfl := Option.some.inj h
          cases hold : (s.expire order x.1).open.get? key with
          | none => exact Or.inl rfl
          | some p => exact Or.inr ⟨p, rfl, rfl⟩
        · exact Or.inr ⟨q, h, rfl⟩
      | some data =>
        rw [hdone] at h
        exact Or.inr ⟨q, (SortedMap.get?_of_get?_erase h).2, rfl⟩
    · exact Or.inr ⟨q, h, rfl⟩

theorem openCount_next_le (horder : ∀ l, (order l).Perm l) (s : Transactions)
    (x : Instant × Packet) : (s.next order x).openCount ≤ MAX_OPEN := by
  have hroom := openCount_expire_lt horder s x.1
  unfold next push
  dsimp only
  cases x.2.atp with
  | none => exact hroom.le
  | some e =>
    dsimp only
    split_ifs
    · exact hroom.le
    · cases Partial.takeIfComplete _ with
      | none => exact (SortedMap.length_insertEntry_le _ _ _).trans hroom
      | some data => exact (List.length_filter_le _ _).trans hroom.le
    · exact hroom.le

/-- While no more than the cap are open, a sweep drops at most one that is young. -/
theorem expired_unique {k' : TxnKey} {q' : Partial} (hcap : s.openCount ≤ MAX_OPEN)
    (hq : s.open.get? k = some q) (hfresh : q.fresh now)
    (hgone : (s.expire order now).open.get? k = none)
    (hq' : s.open.get? k' = some q') (hfresh' : q'.fresh now)
    (hgone' : (s.expire order now).open.get? k' = none) : k' = k := by
  have hone : s.surplus now ≤ 1 := by
    have hsize : (s.kept now).size ≤ s.openCount := List.length_filter_le ..
    unfold surplus
    have : MAX_OPEN - (MAX_OPEN - 1) = 1 := by decide
    omega
  obtain ⟨-, hk⟩ := mem_taken_of_expired hq hgone hfresh
  obtain ⟨-, hk'⟩ := mem_taken_of_expired hq' hgone' hfresh'
  obtain ⟨x, hx, rfl⟩ := List.mem_map.1 hk
  obtain ⟨x', hx', rfl⟩ := List.mem_map.1 hk'
  have hfirst : ∀ y ∈ (byAge order (s.kept now)).take (s.surplus now),
      (byAge order (s.kept now)).head? = some y := by
    intro y hy
    have hy := List.take_subset_take_left _ hone hy
    rwa [List.take_one, Option.mem_toList] at hy
  rw [Option.some.inj ((hfirst x' hx').symm.trans (hfirst x hx))]

end Transactions

namespace Session

variable {order : List (TxnKey × Partial) → List (TxnKey × Partial)} {s : Session}

/-- What a frontend hands a session: a packet, or the report that frames were dropped. -/
inductive Act
  | packet (p : Packet)
  | dropped

/-- The session after it. -/
def after (order : List (TxnKey × Partial) → List (TxnKey × Partial)) (s : Session)
    (x : Instant × Act) : Session :=
  match x.2 with
  | .packet p => (s.push order x.1 p).1
  | .dropped => s.flush

/-- The states a session comes to. -/
def Reachable (order : List (TxnKey × Partial) → List (TxnKey × Partial)) (s : Session) : Prop :=
  ∃ xs, s = Machine.run (after order) new xs

/-- A packet at an instant costs a transaction that it is not of and that is not too old. -/
def Costs (order : List (TxnKey × Partial) → List (TxnKey × Partial)) (s : Session)
    (x : Instant × Packet) (k : TxnKey) (q : Partial) : Prop :=
  (∀ atp, x.2.atp ≠ some (k, atp)) ∧ s.transactions.open.get? k = some q ∧ q.fresh x.1 ∧
    (s.push order x.1 x.2).1.transactions.open.get? k = none

/-- What a packet does to the transactions it is not of is the sweep. -/
theorem get?_push_other {x : Instant × Packet} {k : TxnKey}
    (hother : ∀ atp, x.2.atp ≠ some (k, atp)) :
    (s.push order x.1 x.2).1.transactions.open.get? k =
      (s.transactions.expire order x.1).open.get? k := Transactions.get?_push_other hother

theorem openCount_le (horder : ∀ l, (order l).Perm l) (h : Reachable order s) :
    s.transactions.openCount ≤ MAX_OPEN := by
  obtain ⟨xs, rfl⟩ := h
  refine Machine.run_invariant (I := fun s : Session => s.transactions.openCount ≤ MAX_OPEN)
    (fun s x _ => ?_) (Nat.zero_le _) xs
  obtain ⟨t, p | _⟩ := x
  · exact Transactions.openCount_next_le horder s.transactions (t, p)
  · exact Nat.zero_le _

/-- **The sweep is fair.** Whatever packets and reports of dropped frames came in, no more
transactions are open than the cap. After one more packet none of them is too old. One that the
packet is not of is as it was, or gone; and it goes, while not too old, only if the cap was
reached, nothing older stays but what the packet opens itself, and no other goes with it. -/
theorem sweep_fair (horder : ∀ l, (order l).Perm l) (h : Reachable order s)
    (x : Instant × Packet) :
    s.transactions.openCount ≤ MAX_OPEN ∧
      (∀ k q, (s.push order x.1 x.2).1.transactions.open.get? k = some q → q.fresh x.1) ∧
      (∀ k q, (∀ atp, x.2.atp ≠ some (k, atp)) → s.transactions.open.get? k = some q →
        (s.push order x.1 x.2).1.transactions.open.get? k = some q ∨
        (s.push order x.1 x.2).1.transactions.open.get? k = none) ∧
      ∀ k q, s.Costs order x k q →
        s.transactions.openCount = MAX_OPEN ∧
        (∀ k' q', (s.push order x.1 x.2).1.transactions.open.get? k' = some q' →
          ((∃ atp, x.2.atp = some (k', atp)) ∧ q'.firstSeen = x.1) ∨
            q.firstSeen ≤ q'.firstSeen) ∧
        ∀ k' q', s.Costs order x k' q' → k' = k := by
  have hcap := openCount_le horder h
  refine ⟨hcap, fun k q hq => ?fresh, fun k q hk hq => ?same, fun k q hcost => ?cost⟩
  case fresh =>
    rcases Transactions.firstSeen_of_next (s := s.transactions) hq with hseen | ⟨p, hp, hseen⟩
    · unfold Partial.fresh since
      rw [hseen, Nat.sub_self]
      decide
    · have hfresh := (Transactions.get?_expire.1 hp).1.2
      unfold Partial.fresh at hfresh ⊢
      rwa [hseen]
  case same =>
    rw [get?_push_other hk]
    cases hleft : (s.transactions.expire order x.1).open.get? k with
    | none => exact Or.inr rfl
    | some p =>
      have hp := (Transactions.get?_expire.1 hleft).1.1
      exact Or.inl (hp.symm.trans hq)
  case cost =>
    obtain ⟨hk, hq, hfresh, hgone⟩ := hcost
    rw [get?_push_other hk] at hgone
    obtain ⟨hfull, hold⟩ := Transactions.oldest_of_expired horder hq hgone hfresh
    refine ⟨hcap.antisymm hfull, fun k' q' hq' => ?_, fun k' q' hcost' => ?_⟩
    · by_cases hown : ∃ atp, x.2.atp = some (k', atp)
      · rcases Transactions.firstSeen_of_next (s := s.transactions) hq' with
          hseen | ⟨p, hp, hseen⟩
        · exact Or.inl ⟨hown, hseen⟩
        · exact Or.inr ((hold k' p hp).trans_eq hseen.symm)
      · rw [get?_push_other (not_exists.1 hown)] at hq'
        exact Or.inr (hold k' q' hq')
    · obtain ⟨hk', hq', hfresh', hgone'⟩ := hcost'
      rw [get?_push_other hk'] at hgone'
      exact Transactions.expired_unique hcap hq hfresh hgone hq' hfresh' hgone'

/-- The first packet of two of a response. -/
def opening (tid : UInt16) : Packet :=
  { frame := { dst := ⟨0, 0, 0, 0, 0, 1⟩, src := ⟨0, 0, 0, 0, 0, 2⟩, proto := DDP, snap := true
               payload := [] }
    body := .ddp
      { hops := 0, length := 0, checksum := 0, dst := ⟨1, 1⟩, dstSocket := 8, src := ⟨1, 2⟩
        srcSocket := 9, typ := DDP_ATP, data := [] }
      (.atp (.response tid 0 false false ⟨1, 2, 3, 4⟩ [])) }

/-- The transaction it opens. -/
def opens (k : ℕ) : TxnKey := ⟨⟨1, 2⟩, 9, ⟨1, 1⟩, 8, UInt16.ofNat k⟩

theorem opens_inj {j k : ℕ} (hj : j < 65536) (hk : k < 65536) (h : opens j = opens k) : j = k := by
  have htid := congrArg UInt16.toNat (congrArg TxnKey.tid h)
  simp only [opens, UInt16.toNat_ofNat'] at htid
  omega

/-- One transaction after the other is opened, and none goes on. -/
def flooded (n : ℕ) : Session :=
  Machine.run (after id) new ((List.range n).map fun k => (k, .packet (opening (UInt16.ofNat k))))

/-- The packet opens its transaction, which waits for the other one. -/
theorem feed_opening (k : ℕ) :
    (Partial.feed (opens k) none (k, opening (UInt16.ofNat k))).1 =
      some ((Partial.new k).store 0
        (.response (UInt16.ofNat k) 0 false false ⟨1, 2, 3, 4⟩ [])) := by
  have hlast : ∀ tid : UInt16, (Atp.response tid 0 false false ⟨1, 2, 3, 4⟩ []).eom = false := by
    intro tid
    have hbit : (0x80 : UInt8) &&& 0x10 = 0 := by decide
    exact decide_eq_false (not_not.2 hbit)
  have hwaits : ((Partial.new k).store 0
      (.response (UInt16.ofNat k) 0 false false ⟨1, 2, 3, 4⟩ [])).takeIfComplete = none := by
    unfold Partial.takeIfComplete Partial.store
    rw [hlast]
    rfl
  have hatp : (opening (UInt16.ofNat k)).atp =
      some (opens k, .response (UInt16.ofNat k) 0 false false ⟨1, 2, 3, 4⟩ []) := rfl
  unfold Partial.feed
  rw [hatp]
  dsimp only
  rw [if_neg (by simp [Atp.response]), dif_pos (by simp [Atp.response])]
  split
  · rfl
  · rename_i data hdone
    exact absurd (hwaits.symm.trans hdone) (by simp)

/-- While there is room all of them stay open. -/
theorem get?_flooded {n : ℕ} (hn : n ≤ MAX_OPEN) :
    (∀ key q, (flooded n).transactions.open.get? key = some q → ∃ k < n, key = opens k) ∧
      ∀ k < n, ∃ q, (flooded n).transactions.open.get? (opens k) = some q ∧ q.firstSeen = k := by
  induction n with
  | zero => exact ⟨fun key q h => (nomatch h), fun k hk => absurd hk (Nat.not_lt_zero k)⟩
  | succ n ih =>
    obtain ⟨honly, hall⟩ := ih (Nat.le_of_succ_le hn)
    have hroom : (flooded n).transactions.openCount < MAX_OPEN := by
      refine lt_of_le_of_lt
        (SortedMap.size_le_length (l := (List.range n).map opens) fun key q h => ?_) ?_
      · obtain ⟨k, hk, rfl⟩ := honly key q h
        exact List.mem_map_of_mem (List.mem_range.2 hk)
      · rw [List.length_map, List.length_range]
        exact hn
    have hrun : flooded (n + 1) =
        { transactions := (flooded n).transactions.next id (n, opening (UInt16.ofNat n)) } := by
      unfold flooded
      rw [List.range_succ, List.map_append, Machine.run_append]
      rfl
    have hsmall : MAX_OPEN < 65536 := by decide
    have hother : ∀ key, key ≠ opens n → (flooded (n + 1)).transactions.open.get? key =
        ((flooded n).transactions.open.get? key).filter (Partial.fresh n) := by
      intro key hne
      rw [hrun]
      refine (Transactions.push_other id hroom (x := (n, opening (UInt16.ofNat n)))
        fun atp h => hne ?_).2
      exact (congrArg Prod.fst (Option.some.inj h)).symm
    refine ⟨fun key q h => ?_, fun k hk => ?_⟩
    · by_cases hown : key = opens n
      · exact ⟨n, Nat.lt_succ_self n, hown⟩
      · rw [hother key hown, Option.filter_eq_some_iff] at h
        obtain ⟨k, hk, hkey⟩ := honly key q h.1
        exact ⟨k, Nat.lt_succ_of_lt hk, hkey⟩
    · rcases Nat.lt_succ_iff_lt_or_eq.1 hk with hlt | rfl
      · obtain ⟨q, hq, hseen⟩ := hall k hlt
        have hfresh : q.fresh n = true := by
          refine decide_eq_true ?_
          rw [hseen]
          exact (Nat.sub_le n k).trans_lt ((Nat.lt_of_succ_le hn).trans (by decide))
        refine ⟨q, ?_, hseen⟩
        rw [hother _ fun he => hlt.ne (opens_inj (by omega) (by omega) he), hq]
        exact Option.filter_eq_some_iff.2 ⟨rfl, hfresh⟩
      · have hnew : (flooded k).transactions.open.get? (opens k) = none := by
          cases hq : (flooded k).transactions.open.get? (opens k) with
          | none => rfl
          | some q =>
            obtain ⟨j, hj, he⟩ := honly _ q hq
            exact absurd (opens_inj (by omega) (by omega) he).symm hj.ne
        have hatp : (k, opening (UInt16.ofNat k)).2.atp = some (opens k, _) := rfl
        have hown := (Transactions.push_own id hroom hatp).2
        rw [hnew] at hown
        rw [hrun]
        exact ⟨(Partial.new k).store 0 (.response (UInt16.ofNat k) 0 false false ⟨1, 2, 3, 4⟩ []),
          hown.trans (feed_opening k), rfl⟩

/-- With five hundred and twelve open, one more costs just one of them. -/
theorem sweep_fair_flooded : ∃ k q,
    (flooded MAX_OPEN).Costs id (MAX_OPEN, opening (UInt16.ofNat MAX_OPEN)) k q ∧
      (flooded MAX_OPEN).transactions.openCount = MAX_OPEN ∧
      ∀ k' q', (flooded MAX_OPEN).Costs id (MAX_OPEN, opening (UInt16.ofNat MAX_OPEN)) k' q' →
        k' = k := by
  obtain ⟨-, hall⟩ := get?_flooded le_rfl
  have hfair := sweep_fair (fun l => .refl (id l)) (s := flooded MAX_OPEN) ⟨_, rfl⟩
    (MAX_OPEN, opening (UInt16.ofNat MAX_OPEN))
  -- The sweep leaves room, so it drops one of them.
  obtain ⟨k, hk, hgone⟩ : ∃ k < MAX_OPEN,
      ((flooded MAX_OPEN).transactions.expire id MAX_OPEN).open.get? (opens k) = none := by
    by_contra hnone
    push Not at hnone
    have hle : ((List.range MAX_OPEN).map opens).length ≤
        ((flooded MAX_OPEN).transactions.expire id MAX_OPEN).open.keys.length := by
      refine List.Nodup.length_le_of_subset ?_ fun key hkey => ?_
      · refine List.Nodup.map_on (fun j hj k hk he => ?_) List.nodup_range
        have := List.mem_range.1 hj
        have := List.mem_range.1 hk
        have hsmall : MAX_OPEN < 65536 := by decide
        exact opens_inj (by omega) (by omega) he
      · obtain ⟨k, hk, rfl⟩ := List.mem_map.1 hkey
        exact SortedMap.mem_keys.2 (Option.ne_none_iff_exists'.1 (hnone k (List.mem_range.1 hk)))
    have hlt : ((flooded MAX_OPEN).transactions.expire id MAX_OPEN).openCount < MAX_OPEN :=
      Transactions.openCount_expire_lt (fun l => .refl l) _ _
    rw [List.length_map, List.length_range] at hle
    exact absurd hlt (Nat.not_lt.2 (hle.trans_eq (List.length_map ..)))
  obtain ⟨q, hq, hseen⟩ := hall k hk
  have hfresh : q.fresh MAX_OPEN = true := by
    refine decide_eq_true ?_
    rw [hseen]
    exact (Nat.sub_le _ _).trans_lt (by decide)
  have hnot : ∀ atp, (opening (UInt16.ofNat MAX_OPEN)).atp ≠ some (opens k, atp) := by
    intro atp h
    have hsmall : MAX_OPEN < 65536 := by decide
    have he : opens MAX_OPEN = opens k := congrArg Prod.fst (Option.some.inj h)
    exact hk.ne' (opens_inj hsmall (hk.trans hsmall) he)
  have hcost : (flooded MAX_OPEN).Costs id (MAX_OPEN, opening (UInt16.ofNat MAX_OPEN))
      (opens k) q :=
    ⟨hnot, hq, hfresh, (get?_push_other hnot).trans hgone⟩
  obtain ⟨hfull, -, hunique⟩ := hfair.2.2.2 (opens k) q hcost
  exact ⟨opens k, q, hcost, hfull, hunique⟩

end Session

end AppleTalk
