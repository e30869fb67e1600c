import AppleTalk.Lib.Run
import Mathlib.Data.List.Infix
import Mathlib.Data.List.ReduceOption

/-!
# Command streams

A receiver takes a stream of commands a symbol at a time. One that knows from the symbols so far
when it has a whole command needs no end mark, and a sender that does not know how far it is sends
padding until whatever it was in the middle of is over.
-/

namespace Commands

variable {σ α β γ : Type*}

/-! ### Receivers -/

/-- Where some symbols leave a receiver. -/
def rest (take : σ → α → σ × Option β) (s : σ) (xs : List α) : σ :=
  Machine.run (Machine.next take) s xs

/-- The commands that some symbols complete. -/
def read (take : σ → α → σ × Option β) (s : σ) (xs : List α) : List β :=
  (Machine.outputs take s xs).reduceOption

section Receivers

variable {take : σ → α → σ × Option β} {s : σ}

@[simp] theorem rest_nil : rest take s [] = s := rfl

@[simp] theorem read_nil : read take s [] = [] := rfl

theorem rest_append (xs ys : List α) :
    rest take s (xs ++ ys) = rest take (rest take s xs) ys :=
  Machine.run_append _ _ _ _

theorem read_append (xs ys : List α) :
    read take s (xs ++ ys) = read take s xs ++ read take (rest take s xs) ys := by
  unfold read rest
  rw [Machine.outputs_append, List.reduceOption_append]

/-- A symbol that ends a command, and the symbols behind it. -/
theorem cons_of_some {x : α} {s' : σ} {c : β} (h : take s x = (s', some c)) (xs : List α) :
    rest take s (x :: xs) = rest take s' xs ∧ read take s (x :: xs) = c :: read take s' xs := by
  constructor
  · show rest take (take s x).1 xs = _
    rw [h]
  · show ((take s x).2 :: Machine.outputs take (take s x).1 xs).reduceOption = _
    rw [h]
    rfl

theorem cons_of_none {x : α} {s' : σ} (h : take s x = (s', none)) (xs : List α) :
    rest take s (x :: xs) = rest take s' xs ∧ read take s (x :: xs) = read take s' xs := by
  constructor
  · show rest take (take s x).1 xs = _
    rw [h]
  · show ((take s x).2 :: Machine.outputs take (take s x).1 xs).reduceOption = _
    rw [h]
    rfl

end Receivers

/-! ### Receivers that collect symbols -/

/-- One symbol, behind those of the command so far. A whole command acts on the receiver. -/
def collect (whole : List α → Option β) (act : γ → β → γ) (s : List α × γ) (x : α) :
    (List α × γ) × Option β :=
  match whole (s.1 ++ [x]) with
  | some c => (([], act s.2 c), some c)
  | none => ((s.1 ++ [x], s.2), none)

/-- The word is a command's: it is whole at its last symbol and at no earlier one. -/
structure Spells (whole : List α → Option β) (w : List α) (c : β) : Prop where
  last : whole w = some c
  early : ∀ u, u <+: w → u ≠ [] → u ≠ w → whole u = none
  ne : w ≠ []

section Collecting

variable {whole : List α → Option β} {act : γ → β → γ} {got : List α} {g : γ}

theorem collect_of_some (act : γ → β → γ) (g : γ) {x : α} {c : β}
    (h : whole (got ++ [x]) = some c) :
    collect whole act (got, g) x = (([], act g c), some c) := by
  simp [collect, h]

theorem collect_of_none (act : γ → β → γ) (g : γ) {x : α} (h : whole (got ++ [x]) = none) :
    collect whole act (got, g) x = ((got ++ [x], g), none) := by
  simp [collect, h]

/-- **Only commands act** on the receiver. -/
theorem rest_snd (s : List α × γ) (xs : List α) :
    (rest (collect whole act) s xs).2 = (read (collect whole act) s xs).foldl act s.2 := by
  induction xs generalizing s with
  | nil => rfl
  | cons x xs ih =>
    obtain ⟨got, g⟩ := s
    cases h : whole (got ++ [x]) with
    | some c =>
      obtain ⟨hrest, hread⟩ := cons_of_some (collect_of_some act g h) xs
      rw [hrest, hread, ih]
      rfl
    | none =>
      obtain ⟨hrest, hread⟩ := cons_of_none (collect_of_none act g h) xs
      rw [hrest, hread, ih]

/-- **The remainder of a command** completes it. -/
theorem Spells.read_rest {w : List α} {c : β} (h : Spells whole w c) {xs : List α}
    (hxs : xs ≠ []) (hw : got ++ xs = w) :
    (rest (collect whole act) (got, g) xs).1 = [] ∧
      read (collect whole act) (got, g) xs = [c] := by
  induction xs generalizing got with
  | nil => exact absurd rfl hxs
  | cons x xs ih =>
    rcases eq_or_ne xs [] with rfl | hne
    · obtain ⟨hrest, hread⟩ := cons_of_some (collect_of_some act g (hw ▸ h.last)) []
      rw [hrest, hread]
      exact ⟨rfl, rfl⟩
    · have hpre : got ++ [x] <+: w := ⟨xs, by rw [List.append_assoc]; exact hw⟩
      have hpart := h.early (got ++ [x]) hpre (by simp) fun heq => by
        have hlen := congrArg List.length (heq.trans hw.symm)
        have hpos := List.length_pos_of_ne_nil hne
        simp only [List.length_append, List.length_cons, List.length_nil] at hlen
        omega
      obtain ⟨hrest, hread⟩ := cons_of_none (collect_of_none act g hpart) xs
      rw [hrest, hread]
      exact ih hne (by rw [List.append_assoc]; exact hw)

/-- Padding that comes between two commands. -/
theorem rest_idle {pad : α} {c : β} (hpad : whole [pad] = some c) (n : ℕ) :
    (rest (collect whole act) ([], g) (List.replicate n pad)).1 = [] := by
  induction n generalizing g with
  | zero => rfl
  | succ n ih =>
    have hword : whole ([] ++ [pad]) = some c := hpad
    rw [List.replicate_succ, (cons_of_some (collect_of_some act g hword) _).1]
    exact ih

/-- **Padding** as long as any command ends whatever the receiver was in the middle of. -/
theorem rest_padding {pad : α} {c : β} (hpad : whole [pad] = some c) {m : ℕ}
    (h : ∀ got : List α, m ≤ got.length → whole got ≠ none) {n : ℕ} (hpos : 0 < n)
    (hn : m ≤ got.length + n) :
    (rest (collect whole act) (got, g) (List.replicate n pad)).1 = [] := by
  induction n generalizing got with
  | zero => omega
  | succ n ih =>
    rw [List.replicate_succ]
    cases hone : whole (got ++ [pad]) with
    | some c =>
      rw [(cons_of_some (collect_of_some act g hone) _).1]
      exact rest_idle hpad n
    | none =>
      have hshort : (got ++ [pad]).length < m := Nat.not_le.1 fun hge => h _ hge hone
      rw [(cons_of_none (collect_of_none act g hone) _).1]
      rw [List.length_append, List.length_singleton] at hshort
      exact ih (by omega) (by rw [List.length_append, List.length_singleton]; omega)

end Collecting

end Commands
