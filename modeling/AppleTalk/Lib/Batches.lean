import Mathlib.Data.List.Basic

/-!
# Batches

Keys with names of their own go out in batches: the names of a key join the open batch as one
block, and the open batch may be flushed between any two keys. Wherever the flushes fall, a batch
that names a key has all of its names, and every key that joined is named in some batch.
-/

/-- The keys that joined, the batches flushed, and the open one. -/
inductive Batched {κ α : Type*} (names : κ → List α) :
    List κ → List (List (κ × α)) → List (κ × α) → Prop
  | start : Batched names [] [] []
  | flush {ks : List κ} {bs : List (List (κ × α))} {b : List (κ × α)} (h : Batched names ks bs b) :
    Batched names ks (bs ++ [b]) []
  | join {ks : List κ} {bs : List (List (κ × α))} {b : List (κ × α)} (h : Batched names ks bs b)
    (k : κ) : Batched names (ks ++ [k]) bs (b ++ (names k).map fun a => (k, a))

namespace Batched

variable {κ α : Type*} {names : κ → List α} {ks : List κ} {bs : List (List (κ × α))}
  {b : List (κ × α)}

/-- A batch names only keys that joined, and each of them whole. -/
theorem whole (h : Batched names ks bs b) {l : List (κ × α)} (hl : l ∈ bs ∨ l = b) {k : κ} {a : α}
    (ha : (k, a) ∈ l) : k ∈ ks ∧ ∀ a', (k, a') ∈ l ↔ a' ∈ names k := by
  induction h generalizing l k a with
  | start => rcases hl with hl | rfl <;> contradiction
  | flush h ih =>
    rcases hl with hl | rfl
    · rcases List.mem_append.1 hl with hl | hl
      · exact ih (Or.inl hl) ha
      · exact ih (Or.inr (List.mem_singleton.1 hl)) ha
    · contradiction
  | join h k' ih =>
    rcases hl with hl | rfl
    · obtain ⟨hk, hwhole⟩ := ih (Or.inl hl) ha
      exact ⟨List.mem_append_left _ hk, hwhole⟩
    · rcases List.mem_append.1 ha with ha | ha
      · obtain ⟨hk, hwhole⟩ := ih (Or.inr rfl) ha
        refine ⟨List.mem_append_left _ hk, fun a' => ?_⟩
        rw [List.mem_append, hwhole]
        constructor
        · rintro (ha' | ha')
          · exact ha'
          · obtain ⟨x, hx, he⟩ := List.mem_map.1 ha'
            obtain ⟨rfl, rfl⟩ := Prod.mk.inj he
            exact hx
        · exact Or.inl
      · obtain ⟨x, hx, he⟩ := List.mem_map.1 ha
        obtain ⟨rfl, rfl⟩ := Prod.mk.inj he
        refine ⟨List.mem_append_right _ (List.mem_singleton.2 rfl), fun a' => ?_⟩
        rw [List.mem_append]
        constructor
        · rintro (ha' | ha')
          · exact ((ih (Or.inr rfl) ha').2 a').1 ha'
          · obtain ⟨y, hy, he⟩ := List.mem_map.1 ha'
            obtain ⟨-, rfl⟩ := Prod.mk.inj he
            exact hy
        · exact fun ha' => Or.inr (List.mem_map.2 ⟨a', ha', rfl⟩)

/-- Every key that joined with a name is in some batch. -/
theorem named (h : Batched names ks bs b) {k : κ} (hk : k ∈ ks) (hne : names k ≠ []) :
    ∃ l, (l ∈ bs ∨ l = b) ∧ ∃ a, (k, a) ∈ l := by
  induction h with
  | start => cases hk
  | flush h ih =>
    obtain ⟨l, hl, a, ha⟩ := ih hk
    refine ⟨l, Or.inl (List.mem_append.2 ?_), a, ha⟩
    exact hl.imp_right List.mem_singleton.2
  | join h k' ih =>
    rcases List.mem_append.1 hk with hk | hk
    · obtain ⟨l, hl | rfl, a, ha⟩ := ih hk
      · exact ⟨l, Or.inl hl, a, ha⟩
      · exact ⟨_, Or.inr rfl, a, List.mem_append_left _ ha⟩
    · obtain rfl := List.mem_singleton.1 hk
      obtain ⟨a, ha⟩ := List.exists_mem_of_ne_nil _ hne
      exact ⟨_, Or.inr rfl, a, List.mem_append_right _ (List.mem_map.2 ⟨a, ha, rfl⟩)⟩

/-- No flushed batch shares a key with the open one when no key joins twice. -/
theorem not_open (h : Batched names ks bs b) (hks : ks.Nodup) {l : List (κ × α)} (hl : l ∈ bs)
    {k : κ} {a a' : α} (ha : (k, a) ∈ l) : (k, a') ∉ b := by
  induction h with
  | start => cases hl
  | flush h ih => exact List.not_mem_nil
  | join h k' ih =>
    obtain ⟨hnodup, -, hnew⟩ := List.nodup_append.1 hks
    intro hopen
    rcases List.mem_append.1 hopen with hopen | hopen
    · exact ih hnodup hl hopen
    · obtain ⟨x, -, he⟩ := List.mem_map.1 hopen
      obtain ⟨rfl, -⟩ := Prod.mk.inj he
      exact hnew _ (h.whole (Or.inl hl) ha).1 _ (List.mem_singleton.2 rfl) rfl

/-- A key that joined once is named by one batch. -/
theorem unique (h : Batched names ks bs b) (hks : ks.Nodup) {l l' : List (κ × α)} (hl : l ∈ bs)
    (hl' : l' ∈ bs) {k : κ} {a a' : α} (ha : (k, a) ∈ l) (ha' : (k, a') ∈ l') : l = l' := by
  induction h with
  | start => cases hl
  | flush h ih =>
    rcases List.mem_append.1 hl with hl | hl <;> rcases List.mem_append.1 hl' with hl' | hl'
    · exact ih hks hl hl'
    · rw [List.mem_singleton.1 hl'] at ha'
      exact absurd ha' (h.not_open hks hl ha)
    · rw [List.mem_singleton.1 hl] at ha
      exact absurd ha (h.not_open hks hl' ha')
    · rw [List.mem_singleton.1 hl, List.mem_singleton.1 hl']
  | join h k' ih => exact ih (List.nodup_append.1 hks).1 hl hl'

end Batched
