import Mathlib.Logic.Function.Basic
import Mathlib.Tactic.SplitIfs

/-!
# Names that move between addresses

A directory remembers the bindings of names to addresses: the address each name was bound to last,
and the name each address was bound to last. A name and an address are current for each other while
neither has been bound to another since, so a name is current at one address at most.

Labels stand at the addresses. They follow the directory when each address bears the name that is
current there. Two ways of writing a binding down are compared: moving the name, which takes it from
whoever bears it, and only putting it at its new address.
-/

/-- The last address of each name and the last name of each address. -/
structure Directory (κ α : Type*) where
  address : κ → Option α
  name : α → Option κ

namespace Directory

variable {κ α : Type*} [DecidableEq κ] [DecidableEq α]

/-- No name was bound yet. -/
def empty : Directory κ α := { address := fun _ => none, name := fun _ => none }

def bind (d : Directory κ α) (k : κ) (a : α) : Directory κ α :=
  { address := Function.update d.address k (some a), name := Function.update d.name a (some k) }

/-- Name and address were bound to each other, and neither to another since. -/
def Current (d : Directory κ α) (k : κ) (a : α) : Prop :=
  d.address k = some a ∧ d.name a = some k

/-- Put a name at an address. -/
def put (label : α → Option κ) (k : κ) (a : α) : α → Option κ :=
  Function.update label a (some k)

/-- Take a name from whoever bears it and put it at an address. -/
def move (label : α → Option κ) (k : κ) (a : α) : α → Option κ :=
  put (fun b => if label b = some k then none else label b) k a

/-- Each address bears the name that is current there. -/
def Follows (d : Directory κ α) (label : α → Option κ) : Prop :=
  ∀ k a, label a = some k ↔ d.Current k a

variable {d : Directory κ α} {label : α → Option κ} {k l : κ} {a b : α}

omit [DecidableEq κ] [DecidableEq α] in
theorem Current.unique (ha : d.Current k a) (hb : d.Current k b) : a = b :=
  Option.some.inj (ha.1.symm.trans hb.1)

/-- A binding is current, and ends whatever was current for its name or its address. -/
theorem bind_current :
    (d.bind k a).Current l b ↔ l = k ∧ b = a ∨ l ≠ k ∧ b ≠ a ∧ d.Current l b := by
  unfold Current bind
  dsimp only
  rw [Function.update_apply, Function.update_apply]
  constructor
  · rintro ⟨h1, h2⟩
    split_ifs at h1 h2 with hl hb hb
    · exact Or.inl ⟨hl, hb⟩
    · exact absurd (Option.some.inj h1).symm hb
    · exact absurd (Option.some.inj h2).symm hl
    · exact Or.inr ⟨hl, hb, h1, h2⟩
  · rintro (⟨rfl, rfl⟩ | ⟨hl, hb, h1, h2⟩)
    · simp
    · rw [if_neg hl, if_neg hb]
      exact ⟨h1, h2⟩

omit [DecidableEq κ] in
theorem put_eq_some : put label k a b = some l ↔ b = a ∧ l = k ∨ b ≠ a ∧ label b = some l := by
  unfold put
  rw [Function.update_apply]
  split_ifs with hb
  · simp [hb, eq_comm]
  · simp [hb]

omit [DecidableEq κ] [DecidableEq α] in
theorem follows_empty : (empty : Directory κ α).Follows fun _ => none := by
  intro k a
  constructor
  · rintro ⟨⟩
  · rintro ⟨⟨⟩, -⟩

/-- **Moving the name** follows every binding. -/
theorem Follows.move (h : d.Follows label) : (d.bind k a).Follows (move label k a) := by
  intro l b
  rw [Directory.move, put_eq_some, bind_current, ← h l b]
  constructor
  · rintro (⟨hb, hl⟩ | ⟨hb, hl⟩)
    · exact Or.inl ⟨hl, hb⟩
    · split_ifs at hl with hk
      refine Or.inr ⟨?_, hb, hl⟩
      rintro rfl
      exact hk hl
  · rintro (⟨hl, hb⟩ | ⟨hl, hb, hlab⟩)
    · exact Or.inl ⟨hb, hl⟩
    · refine Or.inr ⟨hb, ?_⟩
      rw [if_neg fun hk => hl (Option.some.inj (hlab.symm.trans hk)), hlab]

/-- **Putting the name** at its new address follows the binding if nobody else bears it. -/
theorem Follows.put (h : d.Follows label) (hnew : ∀ b, label b = some k → b = a) :
    (d.bind k a).Follows (put label k a) := by
  have hmove : Directory.put label k a = Directory.move label k a := by
    funext b
    unfold Directory.move Directory.put
    rw [Function.update_apply, Function.update_apply]
    split_ifs with hb hk
    · rfl
    · exact absurd (hnew b hk) hb
    · rfl
  rw [hmove]
  exact h.move

end Directory
