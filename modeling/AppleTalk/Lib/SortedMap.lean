import Mathlib.Data.List.Pairwise
import Mathlib.Data.List.Sort
import Mathlib.Logic.Function.Basic

/-!
# Ordered maps

A finite map kept as a list of entries in increasing key order, the order a `BTreeMap` iterates
in. The order is carried by the structure, so no operation can build a map that holds a key
twice. Keys are ordered by an injective code in `ℕ`.
-/

/-- Keys with an order: an injective code in `ℕ`. -/
class Key (κ : Type) where
  code : κ → ℕ
  code_inj : Function.Injective code

/-- A map with its entries in strictly increasing key order. -/
structure SortedMap (κ : Type) (ν : Type) [Key κ] where
  entries : List (κ × ν)
  sorted : entries.Pairwise fun a b => Key.code a.1 < Key.code b.1

namespace SortedMap

variable {κ ν : Type}

section Entries

variable [DecidableEq κ]

/-- The first entry under a key in a list of entries. -/
def lookup (l : List (κ × ν)) (k : κ) : Option ν :=
  (l.find? fun e => e.1 = k).map Prod.snd

@[simp] theorem lookup_nil (k : κ) : lookup ([] : List (κ × ν)) k = none := rfl

theorem lookup_cons (e : κ × ν) (l : List (κ × ν)) (k : κ) :
    lookup (e :: l) k = if e.1 = k then some e.2 else lookup l k := by
  unfold lookup
  rw [List.find?_cons]
  split_ifs with h <;> simp [h]

theorem lookup_eq_none {l : List (κ × ν)} {k : κ} (h : ∀ e ∈ l, e.1 ≠ k) :
    lookup l k = none := by
  induction l with
  | nil => rfl
  | cons e l ih => rw [lookup_cons, if_neg (h e (by simp)), ih fun b hb => h b (by simp [hb])]

end Entries

/-- Change every value, threading a state through the entries in order. -/
def mapAccumEntries {α : Type} (f : α → κ → ν → α × ν) : α → List (κ × ν) → α × List (κ × ν)
  | a, [] => (a, [])
  | a, e :: l =>
    let r := f a e.1 e.2
    let s := mapAccumEntries f r.1 l
    (s.1, (e.1, r.2) :: s.2)

theorem map_fst_mapAccumEntries {α : Type} (f : α → κ → ν → α × ν) (a : α)
    (l : List (κ × ν)) : (mapAccumEntries f a l).2.map Prod.fst = l.map Prod.fst := by
  induction l generalizing a with
  | nil => rfl
  | cons e l ih => simp [mapAccumEntries, ih]

variable [Key κ]

theorem pairwise_of_map_fst {l l' : List (κ × ν)} (h : l'.map Prod.fst = l.map Prod.fst)
    (hl : l.Pairwise fun a b => Key.code a.1 < Key.code b.1) :
    l'.Pairwise fun a b => Key.code a.1 < Key.code b.1 := by
  have h1 : (l.map Prod.fst).Pairwise fun a b => Key.code a < Key.code b :=
    List.pairwise_map.2 hl
  rw [← h, List.pairwise_map] at h1
  exact h1

variable [DecidableEq κ]

/-- Put an entry where the key order wants it, in place of one under the same key. -/
def insertEntry (k : κ) (v : ν) : List (κ × ν) → List (κ × ν)
  | [] => [(k, v)]
  | e :: l =>
    if Key.code k < Key.code e.1 then (k, v) :: e :: l
    else if e.1 = k then (k, v) :: l
    else e :: insertEntry k v l

theorem mem_insertEntry {k : κ} {v : ν} {l : List (κ × ν)} {e : κ × ν}
    (h : e ∈ insertEntry k v l) : e = (k, v) ∨ e ∈ l := by
  induction l with
  | nil => simpa [insertEntry] using h
  | cons a l ih =>
    rw [insertEntry] at h
    split_ifs at h <;> grind

theorem insertEntry_sorted (k : κ) (v : ν) {l : List (κ × ν)}
    (h : l.Pairwise fun a b => Key.code a.1 < Key.code b.1) :
    (insertEntry k v l).Pairwise fun a b => Key.code a.1 < Key.code b.1 := by
  induction l with
  | nil => simp [insertEntry]
  | cons a l ih =>
    obtain ⟨ha, hl⟩ := List.pairwise_cons.1 h
    rw [insertEntry]
    split_ifs with h1 h2
    · exact List.pairwise_cons.2 ⟨fun b hb => by
        rcases List.mem_cons.1 hb with rfl | hb
        · exact h1
        · exact h1.trans (ha b hb), h⟩
    · exact List.pairwise_cons.2 ⟨fun b hb => h2 ▸ ha b hb, hl⟩
    · refine List.pairwise_cons.2 ⟨fun b hb => ?_, ih hl⟩
      rcases mem_insertEntry hb with rfl | hb
      · exact lt_of_le_of_ne (not_lt.1 h1) fun he => h2 (Key.code_inj he)
      · exact ha b hb

theorem lookup_insertEntry (k k' : κ) (v : ν) (l : List (κ × ν)) :
    lookup (insertEntry k v l) k' = if k = k' then some v else lookup l k' := by
  induction l with
  | nil => simp [insertEntry, lookup_cons]
  | cons a l ih =>
    rw [insertEntry]
    split_ifs with h1 h2 h3 h4 <;> simp only [lookup_cons] <;> grind

/-- The empty map. -/
def empty : SortedMap κ ν := ⟨[], List.Pairwise.nil⟩

/-- The value under a key. -/
def get? (m : SortedMap κ ν) (k : κ) : Option ν := lookup m.entries k

/-- The keys, in order. -/
def keys (m : SortedMap κ ν) : List κ := m.entries.map Prod.fst

/-- The values, in key order. -/
def values (m : SortedMap κ ν) : List ν := m.entries.map Prod.snd

/-- The number of entries. -/
def size (m : SortedMap κ ν) : ℕ := m.entries.length

/-- Insert an entry or replace the one under its key. -/
def insert (m : SortedMap κ ν) (k : κ) (v : ν) : SortedMap κ ν :=
  ⟨insertEntry k v m.entries, insertEntry_sorted k v m.sorted⟩

/-- Keep the entries that meet a test. -/
def retain (m : SortedMap κ ν) (f : κ → ν → Bool) : SortedMap κ ν :=
  ⟨m.entries.filter fun e => f e.1 e.2, m.sorted.sublist List.filter_sublist⟩

/-- Drop the entry under a key, if there is one. -/
def erase (m : SortedMap κ ν) (k : κ) : SortedMap κ ν :=
  m.retain fun k' _ => k' ≠ k

/-- Change every value in key order, threading a state through. -/
def mapAccum {α : Type} (m : SortedMap κ ν) (f : α → κ → ν → α × ν) (a : α) :
    α × SortedMap κ ν :=
  ((mapAccumEntries f a m.entries).1, ⟨(mapAccumEntries f a m.entries).2,
    pairwise_of_map_fst (map_fst_mapAccumEntries f a m.entries) m.sorted⟩)

/-- Change every value. -/
def mapValues (m : SortedMap κ ν) (f : ν → ν) : SortedMap κ ν :=
  ⟨m.entries.map fun e => (e.1, f e.2), pairwise_of_map_fst (by simp) m.sorted⟩

/-! ### What a lookup finds -/

@[simp] theorem get?_empty (k : κ) : (empty : SortedMap κ ν).get? k = none := rfl

theorem get?_insert (m : SortedMap κ ν) (k k' : κ) (v : ν) :
    (m.insert k v).get? k' = if k = k' then some v else m.get? k' :=
  lookup_insertEntry k k' v m.entries

@[simp] theorem get?_insert_self (m : SortedMap κ ν) (k : κ) (v : ν) :
    (m.insert k v).get? k = some v := by
  simp [get?_insert]

theorem get?_eq_some_iff (m : SortedMap κ ν) (k : κ) (v : ν) :
    m.get? k = some v ↔ (k, v) ∈ m.entries := by
  obtain ⟨l, hl⟩ := m
  simp only [get?]
  induction l with
  | nil => simp
  | cons e l ih =>
    obtain ⟨he, hl'⟩ := List.pairwise_cons.1 hl
    rw [lookup_cons]
    by_cases h : e.1 = k
    · have hk : (k, v) ∉ l := fun hm => by
        have := he _ hm
        simp [h] at this
      obtain ⟨k', v'⟩ := e
      simp only at h
      subst h
      simp [hk, eq_comm]
    · rw [if_neg h, ih hl', List.mem_cons]
      exact ⟨Or.inr, fun hm => hm.resolve_left fun he' => h (by rw [← he'])⟩

/-- The entries of a map are exactly what a lookup finds. -/
theorem mem_entries_iff (m : SortedMap κ ν) (e : κ × ν) :
    e ∈ m.entries ↔ m.get? e.1 = some e.2 := (get?_eq_some_iff m e.1 e.2).symm

theorem get?_retain (m : SortedMap κ ν) (f : κ → ν → Bool) (k : κ) :
    (m.retain f).get? k = (m.get? k).filter (f k) := by
  apply Option.ext
  intro v
  rw [get?_eq_some_iff, Option.filter_eq_some_iff, get?_eq_some_iff]
  simp [retain]

theorem get?_erase (m : SortedMap κ ν) (k k' : κ) :
    (m.erase k).get? k' = if k' = k then none else m.get? k' := by
  rw [erase, get?_retain]
  by_cases h : k' = k <;> cases m.get? k' <;> simp [h]

@[simp] theorem get?_erase_self (m : SortedMap κ ν) (k : κ) : (m.erase k).get? k = none := by
  simp [get?_erase]

theorem get?_of_get?_erase {m : SortedMap κ ν} {k k' : κ} {v : ν}
    (h : (m.erase k).get? k' = some v) : k' ≠ k ∧ m.get? k' = some v := by
  rw [get?_erase] at h
  split_ifs at h with hk
  exact ⟨hk, h⟩

/-! ### How many entries there are -/

/-- A map that has whatever another has is no smaller. -/
theorem size_le {m m' : SortedMap κ ν} (h : ∀ k v, m.get? k = some v → m'.get? k = some v) :
    m.size ≤ m'.size := by
  have hnodup : m.entries.Nodup := by
    refine m.sorted.imp fun hlt he => ?_
    rw [he] at hlt
    exact lt_irrefl _ hlt
  refine hnodup.length_le_of_subset fun e he => ?_
  rw [mem_entries_iff] at he ⊢
  exact h _ _ he

theorem length_insertEntry_le (k : κ) (v : ν) (l : List (κ × ν)) :
    (insertEntry k v l).length ≤ l.length + 1 := by
  induction l with
  | nil => simp [insertEntry]
  | cons e l ih =>
    rw [insertEntry]
    split_ifs <;> simp only [List.length_cons] <;> omega

/-- Only the entry under a key is dropped with it. -/
theorem size_le_erase (m : SortedMap κ ν) (k : κ) : m.size ≤ (m.erase k).size + 1 := by
  cases hk : m.get? k with
  | none =>
    refine (size_le fun k' v hv => ?_).trans (Nat.le_succ _)
    have hne : k' ≠ k := by
      rintro rfl
      rw [hk] at hv
      cases hv
    rw [get?_erase, if_neg hne, hv]
  | some w =>
    have hback : m.size ≤ ((m.erase k).insert k w).size := by
      refine size_le fun k' v hv => ?_
      rw [get?_insert, get?_erase]
      by_cases hne : k = k'
      · subst hne
        rw [if_pos rfl, ← hk, hv]
      · rw [if_neg hne, if_neg (Ne.symm hne), hv]
    exact hback.trans (length_insertEntry_le _ _ _)

omit [DecidableEq κ] in
theorem nodup_keys (m : SortedMap κ ν) : m.keys.Nodup := by
  refine List.pairwise_map.2 (m.sorted.imp fun hlt he => ?_)
  rw [he] at hlt
  exact lt_irrefl _ hlt

theorem mem_keys {m : SortedMap κ ν} {k : κ} : k ∈ m.keys ↔ ∃ v, m.get? k = some v := by
  simp only [keys, List.mem_map, Prod.exists, mem_entries_iff, exists_and_right, exists_eq_right]

/-- A map whose keys are all in a list is no larger. -/
theorem size_le_length {m : SortedMap κ ν} {l : List κ}
    (h : ∀ k v, m.get? k = some v → k ∈ l) : m.size ≤ l.length := by
  have hlen : m.keys.length = m.size := List.length_map ..
  rw [← hlen]
  refine m.nodup_keys.length_le_of_subset fun k hk => ?_
  obtain ⟨v, hv⟩ := mem_keys.1 hk
  exact h k v hv

/-- Erasing one key after another leaves the entries of the others. -/
theorem get?_foldl_erase {α : Type} (f : α → κ) (l : List α) (m : SortedMap κ ν) (k : κ) (v : ν) :
    (l.foldl (fun m a => m.erase (f a)) m).get? k = some v ↔
      m.get? k = some v ∧ k ∉ l.map f := by
  induction l generalizing m with
  | nil => simp
  | cons a l ih =>
    rw [List.foldl_cons, ih, get?_erase, List.map_cons, List.mem_cons]
    by_cases ha : k = f a <;> simp [ha]

theorem get?_mapValues (m : SortedMap κ ν) (f : ν → ν) (k : κ) :
    (m.mapValues f).get? k = (m.get? k).map f := by
  obtain ⟨l, hl⟩ := m
  simp only [get?, mapValues]
  clear hl
  induction l with
  | nil => rfl
  | cons e l ih =>
    rw [List.map_cons, lookup_cons, lookup_cons, ih]
    split_ifs <;> rfl

omit [DecidableEq κ] in
/-- A traversal that changes each value without looking at the state it threads changes them as
`mapValues` does. -/
theorem mapAccum_eq_mapValues {α : Type} (m : SortedMap κ ν) {f : α → κ → ν → α × ν} {g : ν → ν}
    (h : ∀ a k v, (f a k v).2 = g v) (a : α) : (m.mapAccum f a).2 = m.mapValues g := by
  have key : ∀ (l : List (κ × ν)) (a : α),
      (mapAccumEntries f a l).2 = l.map fun e => (e.1, g e.2) := by
    intro l
    induction l with
    | nil => intro a; rfl
    | cons e l ih => intro a; simp only [mapAccumEntries, h, ih, List.map_cons]
  obtain ⟨l, hl⟩ := m
  simp only [mapAccum, mapValues, key]

/-- What every visit of an entry keeps, a traversal keeps. -/
theorem mapAccum_keeps {α : Type} (m : SortedMap κ ν) {f : α → κ → ν → α × ν} {a : α}
    {I : α → Prop} (ha : I a) (hI : ∀ a k v, m.get? k = some v → I a → I (f a k v).1) :
    I (m.mapAccum f a).1 := by
  obtain ⟨l, hl⟩ := m
  simp only [get?_eq_some_iff] at hI
  simp only [mapAccum]
  clear hl
  induction l generalizing a with
  | nil => exact ha
  | cons e l ih =>
    exact ih (hI a e.1 e.2 List.mem_cons_self ha) fun a k v hk =>
      hI a k v (List.mem_cons_of_mem _ hk)

/-- What the visit of one entry establishes and every visit keeps, holds at the end of a
traversal. -/
theorem mapAccum_visit {α : Type} (m : SortedMap κ ν) (f : α → κ → ν → α × ν) (a : α)
    {I : α → Prop} {k : κ} {v : ν} (hk : m.get? k = some v) (hv : ∀ a, I (f a k v).1)
    (hI : ∀ a k v, I a → I (f a k v).1) : I (m.mapAccum f a).1 := by
  obtain ⟨l, hl⟩ := m
  rw [get?_eq_some_iff] at hk
  simp only [mapAccum] at hk ⊢
  clear hl
  have hkeep : ∀ (l : List (κ × ν)) a, I a → I (mapAccumEntries f a l).1 := by
    intro l
    induction l with
    | nil => exact fun a ha => ha
    | cons e l ih => exact fun a ha => ih _ (hI a e.1 e.2 ha)
  induction l generalizing a with
  | nil => cases hk
  | cons e l ih =>
    rcases List.mem_cons.1 hk with rfl | hk
    · exact hkeep l _ (hv a)
    · exact ih _ hk

end SortedMap
