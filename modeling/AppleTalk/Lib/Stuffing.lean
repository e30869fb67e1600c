import AppleTalk.Lib.Run
import Mathlib.Data.List.ReduceOption

/-!
# Escaped streams

One symbol starts an escape. Behind it a literal symbol stands for the first one itself, and every
other symbol ends the frame. A reader stores the symbols of a frame as they come and makes of them
what it can at the frame's end, so it makes of a stream of frames what it makes of each, and is back
where it started after every one of them.
-/

/-- The symbol that starts an escape, and the one that behind it stands for it. -/
structure Stuffing (α : Type*) where
  esc : α
  lit : α

namespace Stuffing

variable {α β γ : Type*} {c : Stuffing α}

/-- A frame: its contents, and the symbol that ends it behind an escape. -/
structure Frame (c : Stuffing α) where
  contents : List α
  ending : α
  ends : ending ≠ c.lit

/-- How a reader stores symbols, and what it makes of those it has stored at an end. -/
structure Reader (α β γ : Type*) where
  start : β
  store : β → α → β
  close : β → α → Option γ

/-- What a reader makes of a frame. -/
def Reader.made (r : Reader α β γ) (f : c.Frame) : Option γ :=
  r.close (f.contents.foldl r.store r.start) f.ending

variable [DecidableEq α]

/-- Contents with every escape symbol escaped. -/
def escape (c : Stuffing α) (xs : List α) : List α :=
  xs.flatMap fun x => if x = c.esc then [c.esc, c.lit] else [x]

/-- A frame in a stream. -/
def Frame.wire (f : c.Frame) : List α := c.escape f.contents ++ [c.esc, f.ending]

/-- Frames one after the other. -/
def stream (fs : List c.Frame) : List α := fs.flatMap Frame.wire

/-- One symbol of a stream. The state says whether it is the second half of an escape. -/
def Reader.read (c : Stuffing α) (r : Reader α β γ) (s : β × Bool) (x : α) :
    (β × Bool) × Option γ :=
  if s.2 then
    if x = c.lit then ((r.store s.1 c.esc, false), none)
    else ((r.start, false), r.close s.1 x)
  else if x = c.esc then ((s.1, true), none)
  else ((r.store s.1 x, false), none)

variable (r : Reader α β γ)

/-- The contents of a frame are stored, and nothing is made of them yet. -/
theorem read_escape (xs : List α) (b : β) :
    Machine.run (Machine.next (r.read c)) (b, false) (c.escape xs) =
        (xs.foldl r.store b, false) ∧
      (Machine.outputs (r.read c) (b, false) (c.escape xs)).reduceOption = [] := by
  induction xs generalizing b with
  | nil => exact ⟨rfl, rfl⟩
  | cons x xs ih =>
    obtain ⟨hstate, hout⟩ := ih (r.store b x)
    unfold escape at hstate hout ⊢
    rw [List.flatMap_cons, List.foldl_cons]
    split_ifs with hx
    · subst hx
      simpa [Machine.next, Reader.read] using ⟨hstate, hout⟩
    · simpa [Machine.next, Reader.read, hx] using ⟨hstate, hout⟩

/-- **One frame**, from the start. -/
theorem read_wire (f : c.Frame) :
    Machine.run (Machine.next (r.read c)) (r.start, false) f.wire = (r.start, false) ∧
      (Machine.outputs (r.read c) (r.start, false) f.wire).reduceOption = (r.made f).toList := by
  obtain ⟨hstate, hout⟩ := read_escape (c := c) r f.contents r.start
  unfold Frame.wire
  rw [Machine.run_append, Machine.outputs_append, List.reduceOption_append, hstate, hout]
  constructor
  · simp [Machine.next, Reader.read, f.ends]
  · have hend : Machine.outputs (r.read c) (f.contents.foldl r.store r.start, false)
        [c.esc, f.ending] = [none, r.made f] := by
      simp [Reader.read, f.ends, Reader.made]
    rw [hend]
    cases r.made f <;> rfl

/-- **A stream of frames**: the reader makes of it what it makes of each frame, and ends where it
started. -/
theorem read_stream (fs : List c.Frame) :
    Machine.run (Machine.next (r.read c)) (r.start, false) (stream fs) = (r.start, false) ∧
      (Machine.outputs (r.read c) (r.start, false) (stream fs)).reduceOption =
        fs.filterMap r.made := by
  induction fs with
  | nil => exact ⟨rfl, rfl⟩
  | cons f fs ih =>
    obtain ⟨hstate, hout⟩ := read_wire r f
    unfold stream at ih ⊢
    rw [List.flatMap_cons, Machine.run_append, Machine.outputs_append, List.reduceOption_append,
      hstate, hout, ih.1, ih.2, List.filterMap_cons]
    cases r.made f <;> exact ⟨rfl, rfl⟩

/-! ### Bounded buffers -/

/-- Store a symbol as long as there is room. -/
def keep (n : ℕ) (b : List α) (x : α) : List α := if b.length < n then b ++ [x] else b

omit [DecidableEq α] in
/-- A bounded buffer keeps the front of what is stored in it. -/
theorem foldl_keep {n : ℕ} {b : List α} (hb : b.length ≤ n) (xs : List α) :
    xs.foldl (keep n) b = (b ++ xs).take n := by
  induction xs generalizing b with
  | nil => rw [List.foldl_nil, List.append_nil, List.take_of_length_le hb]
  | cons x xs ih =>
    rw [List.foldl_cons]
    by_cases hroom : b.length < n
    · have hone : (b ++ [x]).length ≤ n := by simpa [Nat.succ_le_iff] using hroom
      rw [keep, if_pos hroom, ih hone, List.append_assoc, List.singleton_append]
    · obtain rfl : b.length = n := Nat.le_antisymm hb (Nat.not_lt.1 hroom)
      rw [keep, if_neg hroom, ih hb, List.take_left, List.take_left]

end Stuffing
