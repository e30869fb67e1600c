import Mathlib.Data.List.Basic
import Mathlib.Tactic.Linarith

/-!
# Octet strings

Big-endian 16-bit words, and two ways to read a sequence of items off the front of an octet
string: to its end, or a given number of them. An item reader takes the octets and returns the
item with the octets after it. What a writer that emits items back to back wrote, a reader that
undoes the writer of one item reads back.
-/

namespace Octets

/-- A 16-bit word from its two octets, most significant first. -/
def be16 (hi lo : UInt8) : UInt16 := UInt16.ofNat (hi.toNat * 256 + lo.toNat)

/-- The most significant octet of a 16-bit word. -/
def hi8 (n : UInt16) : UInt8 := UInt8.ofNat (n.toNat / 256)

/-- The least significant octet of a 16-bit word. -/
def lo8 (n : UInt16) : UInt8 := UInt8.ofNat n.toNat

@[simp] theorem be16_hi8_lo8 (n : UInt16) : be16 (hi8 n) (lo8 n) = n := by
  apply UInt16.toNat_inj.1
  have := n.toNat_lt
  simp only [be16, hi8, lo8, UInt16.toNat_ofNat', UInt8.toNat_ofNat']
  omega

/-- A 16-bit word as two octets. -/
def ofWord (n : UInt16) : List UInt8 := [hi8 n, lo8 n]

@[simp] theorem length_ofWord (n : UInt16) : (ofWord n).length = 2 := rfl

/-! ### Reading items -/

variable {α : Type}

/-- Read items until the octets run out, at most `fuel` of them. -/
def manyAux (item : List UInt8 → Option (α × List UInt8)) :
    ℕ → List UInt8 → Option (List α)
  | _, [] => some []
  | 0, _ :: _ => none
  | fuel + 1, b :: bs =>
    match item (b :: bs) with
    | none => none
    | some (a, rest) => (manyAux item fuel rest).map (a :: ·)

/-- Read items until the octets run out. An item takes at least one octet, so the octets
themselves bound how many there can be. -/
def many (item : List UInt8 → Option (α × List UInt8)) (bs : List UInt8) : Option (List α) :=
  manyAux item bs.length bs

/-- Read a given number of items. -/
def times (item : List UInt8 → Option (α × List UInt8)) :
    ℕ → List UInt8 → Option (List α × List UInt8)
  | 0, bs => some ([], bs)
  | n + 1, bs =>
    match item bs with
    | none => none
    | some (a, rest) => (times item n rest).map fun r => (a :: r.1, r.2)

/-- A reader that takes at least one octet for every item. -/
def Consumes (item : List UInt8 → Option (α × List UInt8)) : Prop :=
  ∀ bs a rest, item bs = some (a, rest) → rest.length < bs.length

/-- Fuel beyond the number of octets changes nothing. -/
theorem manyAux_eq_many {item : List UInt8 → Option (α × List UInt8)} (h : Consumes item)
    {fuel : ℕ} {bs : List UInt8} (hf : bs.length ≤ fuel) :
    manyAux item fuel bs = many item bs := by
  suffices ∀ n m bs, bs.length ≤ n → bs.length ≤ m → manyAux item n bs = manyAux item m bs from
    this _ _ _ hf le_rfl
  intro n
  induction n with
  | zero =>
    intro m bs hn _
    obtain rfl : bs = [] := List.length_eq_zero_iff.1 (by omega)
    cases m <;> rfl
  | succ n ih =>
    intro m bs hn hm
    cases bs with
    | nil => cases m <;> rfl
    | cons b bs =>
      cases m with
      | zero => simp at hm
      | succ m =>
        simp only [manyAux]
        cases hi : item (b :: bs) with
        | none => rfl
        | some r =>
          obtain ⟨a, rest⟩ := r
          have hlt := h _ _ _ hi
          simp only [List.length_cons] at hn hm hlt
          simp only [ih m rest (by omega) (by omega)]

@[simp] theorem many_nil (item : List UInt8 → Option (α × List UInt8)) :
    many item [] = some [] := rfl

theorem many_cons {item : List UInt8 → Option (α × List UInt8)} (h : Consumes item)
    {bs rest : List UInt8} {a : α} (hi : item bs = some (a, rest)) :
    many item bs = (many item rest).map (a :: ·) := by
  cases bs with
  | nil =>
    have := h _ _ _ hi
    simp at this
  | cons b bs =>
    have hlt := h _ _ _ hi
    simp only [List.length_cons] at hlt
    show manyAux item (bs.length + 1) (b :: bs) = _
    simp only [manyAux, hi]
    rw [manyAux_eq_many h (by omega)]

/-- **Reading back to the end.** Each item written is read back as `f` of it. -/
theorem many_flatMap {item : List UInt8 → Option (α × List UInt8)} (h : Consumes item)
    {β : Type} {enc : β → List UInt8} {f : β → α} {l : List β}
    (hl : ∀ b ∈ l, ∀ rest, item (enc b ++ rest) = some (f b, rest)) :
    many item (l.flatMap enc) = some (l.map f) := by
  induction l with
  | nil => rfl
  | cons b l ih =>
    rw [List.flatMap_cons, many_cons h (hl b (by simp) _), ih fun b hb => hl b (by simp [hb])]
    rfl

/-- **Reading back a number of items.** Each item written is read back as `f` of it, and what
follows them is left. -/
theorem times_flatMap {item : List UInt8 → Option (α × List UInt8)} {β : Type}
    {enc : β → List UInt8} {f : β → α} {l : List β}
    (hl : ∀ b ∈ l, ∀ rest, item (enc b ++ rest) = some (f b, rest)) (rest : List UInt8) :
    times item l.length (l.flatMap enc ++ rest) = some (l.map f, rest) := by
  induction l with
  | nil => rfl
  | cons b l ih =>
    rw [List.flatMap_cons, List.append_assoc, List.length_cons, times, hl b (by simp)]
    dsimp only
    rw [ih fun b hb => hl b (by simp [hb])]
    rfl

/-- What every item a reader can return satisfies, every item it reads to the end satisfies. -/
theorem forall_mem_of_many {item : List UInt8 → Option (α × List UInt8)} {P : α → Prop}
    (hP : ∀ bs a rest, item bs = some (a, rest) → P a) {bs : List UInt8} {l : List α}
    (h : many item bs = some l) : ∀ a ∈ l, P a := by
  suffices ∀ n bs l, manyAux item n bs = some l → ∀ a ∈ l, P a from this _ _ _ h
  intro n
  induction n with
  | zero =>
    intro bs l h
    cases bs with
    | nil => obtain rfl : [] = l := by simpa [manyAux] using h
             simp
    | cons b bs => simp [manyAux] at h
  | succ n ih =>
    intro bs l h
    cases bs with
    | nil => obtain rfl : [] = l := by simpa [manyAux] using h
             simp
    | cons b bs =>
      simp only [manyAux] at h
      cases hi : item (b :: bs) with
      | none => simp [hi] at h
      | some r =>
        rw [hi] at h
        obtain ⟨l', hl', rfl⟩ := Option.map_eq_some_iff.1 h
        intro a ha
        rcases List.mem_cons.1 ha with rfl | ha
        · exact hP _ _ _ hi
        · exact ih _ _ hl' a ha

end Octets
