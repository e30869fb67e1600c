import Mathlib.Data.Finset.Card
import Mathlib.Data.List.Nodup
import Mathlib.Data.List.Pairwise
import Mathlib.Data.List.Perm.Subperm

/-!
# Gathering

A list filled in piece by piece: an item is added unless one that counts as the same is held. When
everything comes out of one list whose items all count as different, neither the order of the
pieces nor their repetition matters, and the list is full when it is as long.
-/

namespace Gather

variable {α : Type*}

/-- Add an item, unless one that counts as the same is held. -/
def add (same : α → α → Bool) (held : List α) (a : α) : List α :=
  if held.any fun h => same h a then held else held ++ [a]

/-- Add a piece. -/
def addAll (same : α → α → Bool) (held piece : List α) : List α := piece.foldl (add same) held

/-- No two items of the list count as the same. -/
def Distinct (same : α → α → Bool) (l : List α) : Prop :=
  l.Nodup ∧ ∀ a ∈ l, ∀ b ∈ l, same a b = true → a = b

variable {same : α → α → Bool} {l held piece : List α}

@[simp] theorem addAll_nil (held : List α) : addAll same held [] = held := rfl

@[simp] theorem addAll_cons (held : List α) (a : α) (piece : List α) :
    addAll same held (a :: piece) = addAll same (add same held a) piece := rfl

/-- Gathering loses nothing. -/
theorem length_le_addAll (held piece : List α) :
    held.length ≤ (addAll same held piece).length := by
  induction piece generalizing held with
  | nil => exact Nat.le_refl _
  | cons a piece ih =>
    have hone : held.length ≤ (add same held a).length := by
      unfold add
      split_ifs <;> simp
    exact Nat.le_trans hone (ih _)

/-- A piece with something in it leaves something held. -/
theorem addAll_ne_nil (h : piece ≠ []) : addAll same held piece ≠ [] := by
  obtain ⟨a, rest, rfl⟩ := List.exists_cons_of_ne_nil h
  have hone : add same held a ≠ [] := by
    unfold add
    split_ifs with hany
    · rintro rfl
      simp at hany
    · simp
  have hle : (add same held a).length ≤ (addAll same (add same held a) rest).length :=
    length_le_addAll _ rest
  exact List.ne_nil_of_length_pos (Nat.lt_of_lt_of_le (List.length_pos_of_ne_nil hone) hle)

/-- Where items count as the same when they have the same key, a piece adds as many as it has keys
that are not held. -/
theorem length_addAll {β : Type*} [DecidableEq β] {key : α → β}
    (hkey : ∀ a b, same a b = true ↔ key a = key b) (held piece : List α) :
    (addAll same held piece).length =
      held.length + ((piece.map key).toFinset \ (held.map key).toFinset).card := by
  induction piece generalizing held with
  | nil => simp
  | cons a piece ih =>
    have hany : (held.any fun h => same h a) = true ↔ key a ∈ (held.map key).toFinset := by
      simp [hkey]
    rw [addAll_cons, ih, List.map_cons, List.toFinset_cons]
    unfold add
    split_ifs with h
    · rw [Finset.insert_sdiff_of_mem _ (hany.1 h)]
    · have ha : key a ∉ (held.map key).toFinset := fun hmem => h (hany.2 hmem)
      rw [List.length_append, List.length_singleton, List.map_append, List.toFinset_append,
        List.map_singleton, List.toFinset_cons, List.toFinset_nil, insert_empty_eq,
        Finset.insert_sdiff_of_notMem _ ha, Finset.union_comm, ← Finset.insert_eq,
        Finset.sdiff_insert, Nat.add_assoc]
      by_cases hmem : key a ∈ (piece.map key).toFinset
      · have hsd : key a ∈ (piece.map key).toFinset \ (held.map key).toFinset :=
          Finset.mem_sdiff.2 ⟨hmem, ha⟩
        rw [Finset.insert_eq_self.2 hsd, Finset.card_erase_of_mem hsd]
        have := Finset.card_pos.2 ⟨_, hsd⟩
        omega
      · have hsd : key a ∉ (piece.map key).toFinset \ (held.map key).toFinset :=
          fun h => hmem (Finset.mem_sdiff.1 h).1
        rw [Finset.card_insert_of_notMem hsd, Finset.erase_eq_of_notMem hsd, Nat.add_comm 1]

theorem nodup_add (hrefl : ∀ a, same a a = true) (h : held.Nodup) (a : α) :
    (add same held a).Nodup := by
  unfold add
  split_ifs with hany
  · exact h
  · refine List.nodup_append.2 ⟨h, List.nodup_singleton a, fun b hb c hc hbc => hany ?_⟩
    obtain rfl := List.mem_singleton.1 hc
    exact List.any_eq_true.2 ⟨b, hb, by rw [hbc]; exact hrefl c⟩

theorem nodup_addAll (hrefl : ∀ a, same a a = true) (h : held.Nodup) (piece : List α) :
    (addAll same held piece).Nodup :=
  List.foldlRecOn piece _ h fun _ hheld a _ => nodup_add hrefl hheld a

theorem mem_add (hl : Distinct same l) (hheld : held ⊆ l) {a b : α} (ha : a ∈ l) :
    b ∈ add same held a ↔ b ∈ held ∨ b = a := by
  unfold add
  split_ifs with hany
  · obtain ⟨h, hh, hsame⟩ := List.any_eq_true.1 hany
    obtain rfl := hl.2 h (hheld hh) a ha hsame
    exact ⟨Or.inl, fun hb => hb.elim id fun hb => hb ▸ hh⟩
  · rw [List.mem_append, List.mem_singleton]

/-- What is held after a piece. -/
theorem mem_addAll (hl : Distinct same l) (hheld : held ⊆ l) (hpiece : piece ⊆ l) {b : α} :
    b ∈ addAll same held piece ↔ b ∈ held ∨ b ∈ piece := by
  induction piece generalizing held with
  | nil => simp
  | cons a piece ih =>
    obtain ⟨ha, hpiece⟩ := List.cons_subset.1 hpiece
    have hadd : add same held a ⊆ l := by
      intro c hc
      rcases (mem_add hl hheld ha).1 hc with hc | rfl
      · exact hheld hc
      · exact ha
    rw [addAll_cons, ih hadd hpiece, mem_add hl hheld ha, List.mem_cons, or_assoc]

/-- A list out of another is as long just when it has everything. -/
theorem length_le_iff (hl : l.Nodup) (hn : held.Nodup) (hheld : held ⊆ l) :
    l.length ≤ held.length ↔ l ⊆ held := by
  constructor
  · intro h
    exact ((List.subperm_of_subset hn hheld).perm_of_length_le h).symm.subset
  · intro h
    exact (List.subperm_of_subset hl h).length_le

/-- **All pieces of a list.** Pieces that hold the items of a list once each have all of them
covered just when every piece is there. -/
theorem covered_iff {ps ds : List (List α)} (hps : ps.flatten.Nodup) (hne : ∀ p ∈ ps, p ≠ [])
    (hds : ∀ d ∈ ds, ∀ a ∈ d, a ∈ ps.flatten → d ∈ ps) :
    (∀ a ∈ ps.flatten, ∃ d ∈ ds, a ∈ d) ↔ ps ⊆ ds := by
  constructor
  · intro h p hp
    obtain ⟨a, ha⟩ := List.exists_mem_of_ne_nil p (hne p hp)
    have hflat : a ∈ ps.flatten := List.mem_flatten.2 ⟨p, hp, ha⟩
    obtain ⟨d, hd, had⟩ := h a hflat
    by_contra hmissing
    have hdiff : p ≠ d := fun he => hmissing (he ▸ hd)
    have : Std.Symm (@List.Disjoint α) := ⟨fun _ _ h _ ha hb => h hb ha⟩
    have hdisjoint : List.Disjoint p d :=
      (List.nodup_flatten.1 hps).2.forall hp (hds d hd a had hflat) hdiff
    exact hdisjoint ha had
  · intro h a ha
    obtain ⟨p, hp, hap⟩ := List.mem_flatten.1 ha
    exact ⟨p, h hp, hap⟩

/-! ### The first of each kind -/

theorem addAll_append (held piece more : List α) :
    addAll same held (piece ++ more) = addAll same (addAll same held piece) more :=
  List.foldl_append ..

theorem subset_addAll (held piece : List α) : held ⊆ addAll same held piece := by
  induction piece generalizing held with
  | nil => exact List.Subset.refl _
  | cons a piece ih =>
    have hone : held ⊆ add same held a := by
      unfold add
      split_ifs
      · exact List.Subset.refl _
      · exact List.subset_append_left _ _
    exact List.Subset.trans hone (ih _)

/-- What is held was held before or came with the piece. -/
theorem addAll_subset (held piece : List α) : addAll same held piece ⊆ held ++ piece := by
  induction piece generalizing held with
  | nil => simp
  | cons a piece ih =>
    intro b hb
    rcases List.mem_append.1 (ih _ hb) with hb | hb
    · unfold add at hb
      split_ifs at hb
      · exact List.mem_append_left _ hb
      · rcases List.mem_append.1 hb with hb | hb
        · exact List.mem_append_left _ hb
        · exact List.mem_append_right _ (List.mem_cons.2 (Or.inl (List.mem_singleton.1 hb)))
    · exact List.mem_append_right _ (List.mem_cons_of_mem _ hb)

/-- Of everything that came something is held that counts as the same. -/
theorem exists_same (hrefl : ∀ a, same a a = true) {a : α} (held : List α) (ha : a ∈ piece) :
    ∃ b ∈ addAll same held piece, same b a = true := by
  induction piece generalizing held with
  | nil => cases ha
  | cons c piece ih =>
    rcases List.mem_cons.1 ha with rfl | ha
    · have hone : ∃ b ∈ add same held a, same b a = true := by
        unfold add
        split_ifs with hany
        · exact List.any_eq_true.1 hany
        · exact ⟨a, List.mem_append_right _ (List.mem_singleton_self a), hrefl a⟩
      obtain ⟨b, hb, hsame⟩ := hone
      exact ⟨b, subset_addAll _ piece hb, hsame⟩
    · exact ih _ ha

/-- No two items held count as the same. -/
theorem pairwise_addAll (h : held.Pairwise fun a b => same a b = false) (piece : List α) :
    (addAll same held piece).Pairwise fun a b => same a b = false := by
  refine List.foldlRecOn piece _ h fun held hheld a _ => ?_
  unfold add
  split_ifs with hany
  · exact hheld
  · refine List.pairwise_append.2 ⟨hheld, List.pairwise_singleton _ _, fun b hb c hc => ?_⟩
    obtain rfl := List.mem_singleton.1 hc
    exact Bool.eq_false_iff.2 fun hsame => hany (List.any_eq_true.2 ⟨b, hb, hsame⟩)

/-- Gathering what was gathered apart. -/
theorem addAll_addAll (hrefl : ∀ a, same a a = true)
    (htrans : ∀ a b c, same a b = true → same b c = true → same a c = true)
    (held got piece : List α) :
    addAll same held (addAll same got piece) = addAll same (addAll same held got) piece := by
  induction piece generalizing got with
  | nil => rfl
  | cons a piece ih =>
    rw [addAll_cons, ih, addAll_cons]
    congr 1
    unfold add
    split_ifs with hgot hheld hheld
    · rfl
    · exfalso
      obtain ⟨b, hb, hsame⟩ := List.any_eq_true.1 hgot
      obtain ⟨c, hc, hsame'⟩ := exists_same hrefl held hb
      exact hheld (List.any_eq_true.2 ⟨c, hc, htrans c b a hsame' hsame⟩)
    · rw [addAll_append]
      show add same _ a = _
      unfold add
      rw [if_pos hheld]
    · rw [addAll_append]
      show add same _ a = _
      unfold add
      rw [if_neg hheld]

end Gather
