import AppleTalk.Lib.History
import AppleTalk.Node.Commands

/-!
# What a node does while it waits

A waiting node hears events, and answers those that ask for its address unless it is probing. What
happens meanwhile is a language of happenings.
-/

open scoped Computability

namespace AppleTalk

open Capture (Event)

/-! ### Turns -/

/-- The event objects to a claim of the address. -/
def objects (addr : Addr) (mac : MacAddr) : Event → Bool
  | .packet _ _ p => p.aarpAction addr mac true = .conflict
  | _ => false

/-- The answer to an event that asks for the address. -/
def answerFor (addr : Addr) (mac : MacAddr) : Event → Option Frame
  | .packet _ _ p =>
    match p.aarpAction addr mac false, p.body with
    | .answerTo dst, .aarp a =>
      some (frame mac dst AARP (aarpResponse addr mac a.src dst).toBytes)
    | _, _ => none
  | _ => none

/-- A Probe for an address. -/
def probeFrame (addr : Addr) (mac : MacAddr) : Frame :=
  frame mac BROADCAST_MAC AARP (probe addr mac).toBytes

namespace Occurrence

/-- Something that was to be transmitted. -/
def out (f : Frame) : Language Occurrence := {[.sent f], [.refused f]}

/-- Something heard with the property. -/
def hearing (P : Event → Prop) : Language Occurrence := {seg | ∃ e, P e ∧ seg = [.heard e]}

/-- An event heard, and at once the answer it asks for. -/
def turnOf (addr : Addr) (mac : MacAddr) (e : Event) : Language Occurrence :=
  {seg | ∃ rest, seg = .heard e :: rest ∧
    match answerFor addr mac e with
    | some f => rest ∈ out f
    | none => rest = []}

def turn (addr : Addr) (mac : MacAddr) : Language Occurrence := {seg | ∃ e, seg ∈ turnOf addr mac e}

/-- A wait that ran out. -/
def pause : Language Occurrence := {seg | ∃ interval, seg = [.lapsed interval]}

/-- A datagram of our own. -/
def saying (mac : MacAddr) : Language Occurrence :=
  {seg | ∃ f, f.src = mac ∧ f.proto = DDP ∧ seg ∈ out f}

/-- A Probe. -/
def probing (mac : MacAddr) : Language Occurrence := {seg | ∃ addr, seg ∈ out (probeFrame addr mac)}

/-- Probes and silence: whatever is heard, nothing is answered. -/
def hushed (mac : MacAddr) : Language Occurrence :=
  (hearing (fun _ => True) + probing mac + pause)∗

/-- The address is held: whoever asks for it is answered at once, and nothing else is said but
datagrams. -/
def defended (addr : Addr) (mac : MacAddr) : Language Occurrence :=
  (turn addr mac + saying mac + pause)∗

/-- One Probe for the address, and a whole interval in which nobody objects. -/
def probed (addr : Addr) (mac : MacAddr) : Language Occurrence :=
  {[.sent (probeFrame addr mac)]} * (hearing fun e => objects addr mac e = false)∗ *
    {[.lapsed PROBE_INTERVAL]}

/-- A claim of the address that nobody disputed. -/
def undisputed (addr : Addr) (mac : MacAddr) : Language Occurrence := probed addr mac ^ PROBE_TRIES

theorem hearing_mono {P Q : Event → Prop} (h : ∀ e, P e → Q e) : hearing P ≤ hearing Q := by
  rintro seg ⟨e, he, rfl⟩
  exact ⟨e, h e he, rfl⟩

theorem hearing_le_hushed (P : Event → Prop) (mac : MacAddr) : (hearing P)∗ ≤ hushed mac := by
  refine kstar_mono fun seg hseg => ?_
  exact Or.inl (Or.inl (hearing_mono (fun _ _ => trivial) hseg))

theorem lapsed_le_hushed (interval : ℕ) (mac : MacAddr) : {[.lapsed interval]} ≤ hushed mac :=
  le_trans (fun _ h => Or.inr ⟨interval, h⟩) le_kstar

theorem turn_le_defended (addr : Addr) (mac : MacAddr) : (turn addr mac)∗ ≤ defended addr mac :=
  kstar_mono fun _ h => Or.inl (Or.inl h)

theorem lapsed_le_defended (interval : ℕ) (addr : Addr) (mac : MacAddr) :
    {[.lapsed interval]} ≤ defended addr mac :=
  le_trans (fun _ h => Or.inr ⟨interval, h⟩) le_kstar

end Occurrence

namespace Runtime

open Occurrence

variable (order : List (TxnKey × Partial) → List (TxnKey × Partial)) {n n' : Runtime}

/-! ### One event -/

/-- What a node is called, and what it knows of the cable. -/
structure Identity where
  addr : Addr
  mac : MacAddr
  router : Option Addr
  zone : Option Str

def identity (n : Runtime) : Identity := ⟨n.addr, n.tx.mac, n.router, n.zone⟩

/-- Who a node is, and whether it is probing. -/
structure Stands (who : Identity) (probing : Bool) (n : Runtime) : Prop where
  who : n.identity = who
  probing : n.probing = probing

theorem Stands.addr {who : Identity} {probing : Bool} (h : Stands who probing n) :
    n.addr = who.addr := congrArg Identity.addr h.who

theorem Stands.mac {who : Identity} {probing : Bool} (h : Stands who probing n) :
    n.tx.mac = who.mac := congrArg Identity.mac h.who

/-- What every caller of `wait` does with a packet: nothing is sent, and the node stays where it
stands. -/
structure Tame {α : Type} (f : Runtime → Packet → Runtime × Option α) : Prop where
  past : ∀ n p, (f n p).1.past = n.past
  stands : ∀ n p who probing, Stands who probing n → Stands who probing (f n p).1

/-- A caller that only reads packets. -/
theorem tame_pure {α : Type} (v : Packet → Option α) :
    Tame fun (n : Runtime) p => (n, v p) := ⟨fun _ _ => rfl, fun _ _ _ _ h => h⟩

theorem send_stands {who : Identity} {probing : Bool} (h : Stands who probing n)
    (f : Frame) : Stands who probing (n.send f).1 := by
  unfold send
  split_ifs <;> exact ⟨h.who, h.probing⟩

/-- Transmitting is one happening, and says whether it worked. -/
theorem send_grew (n : Runtime) (f : Frame) :
    ((n.send f).2 = .ok () ∧ Grew past {[.sent f]} n (n.send f).1) ∨
      ∃ e, (n.send f).2 = .error e ∧ Grew past {[.refused f]} n (n.send f).1 := by
  unfold send
  split_ifs
  · exact Or.inr ⟨.nic, rfl, .single rfl⟩
  · exact Or.inl ⟨rfl, .single rfl⟩

theorem send_out (n : Runtime) (f : Frame) : Grew past (out f) n (n.send f).1 := by
  rcases send_grew n f with ⟨-, h⟩ | ⟨e, -, h⟩
  · exact h.mono fun _ hseg => Or.inl hseg
  · exact h.mono fun _ hseg => Or.inr hseg

/-- A probing node answers nothing. -/
theorem aarpAction_probing (p : Packet) (addr : Addr) (mac dst : MacAddr) :
    p.aarpAction addr mac true ≠ .answerTo dst := by
  unfold Packet.aarpAction
  split
  · unfold AppleTalk.aarpAction
    split_ifs <;> simp_all
  · simp

/-- A probing node answers nothing, and one that is not answers whoever asks for its address. -/
theorem answer_grew {who : Identity} {probing : Bool} (h : Stands who probing n)
    (p : Packet) :
    Stands who probing (n.answer p) ∧ (probing = true → (n.answer p).past = n.past) ∧
      (probing = false → ∀ «at» port, ∃ rest, (n.answer p).past = n.past ++ rest ∧
        match answerFor who.addr who.mac (.packet «at» port p) with
        | some f => rest ∈ out f
        | none => rest = []) := by
  cases probing with
  | true =>
    have hquiet : n.answer p = n := by
      unfold answer
      rw [h.addr, h.mac, h.probing]
      split
      · rename_i dst a hact hbody
        exact absurd hact (aarpAction_probing p _ _ _)
      · rfl
    rw [hquiet]
    exact ⟨h, fun _ => rfl, fun hf => by cases hf⟩
  | false =>
    have hanswer : n.answer p = match answerFor who.addr who.mac (.packet 0 0 p) with
        | some f => (n.send f).1
        | none => n := by
      have hfor : answerFor who.addr who.mac (.packet 0 0 p) =
          match p.aarpAction who.addr who.mac false, p.body with
          | .answerTo dst, .aarp a =>
            some (frame who.mac dst AARP (aarpResponse who.addr who.mac a.src dst).toBytes)
          | _, _ => none := rfl
      unfold answer
      rw [hfor, h.addr, h.mac, h.probing]
      rcases p.aarpAction who.addr who.mac false with _ | _ | _ <;> rcases p.body <;> rfl
    refine ⟨?_, fun hf => (by cases hf), fun _ «at» port => ?_⟩
    all_goals rw [hanswer]
    · cases answerFor who.addr who.mac (.packet 0 0 p) with
      | some f => exact send_stands h f
      | none => exact h
    · show ∃ rest, _ ∧ match answerFor who.addr who.mac (.packet 0 0 p) with
        | some f => rest ∈ out f
        | none => rest = []
      cases answerFor who.addr who.mac (.packet 0 0 p) with
      | some f =>
        obtain ⟨rest, hrest, hpast⟩ := send_out n f
        exact ⟨rest, hpast, hrest⟩
      | none => exact ⟨[], (List.append_nil _).symm, rfl⟩

/-- One event of a probing node is only heard. -/
theorem attend_probing {α : Type} {f : Runtime → Packet → Runtime × Option α} (hf : Tame f)
    {who : Identity} (h : Stands who true n) (e : Event)
    (rx : List (Option Event)) :
    Stands who true ((n.hear e rx).attend order f e).1 ∧
      Grew past {[.heard e]} n ((n.hear e rx).attend order f e).1 := by
  have hhear : Stands who true (n.hear e rx) := ⟨h.who, h.probing⟩
  cases e with
  | packet «at» port p =>
    have hlearn : Stands who true ((n.hear (.packet «at» port p) rx).learn order «at» p) :=
      ⟨h.who, h.probing⟩
    obtain ⟨hstands, hpast, -⟩ := answer_grew hlearn p
    exact ⟨hf.stands _ p _ _ hstands, .single ((hf.past _ p).trans (hpast rfl))⟩
  | dropped k => exact ⟨⟨h.who, h.probing⟩, .single rfl⟩
  | llap port l => exact ⟨hhear, .single rfl⟩
  | aurp «from» bytes => exact ⟨hhear, .single rfl⟩
  | error text => exact ⟨hhear, .single rfl⟩

/-- One event of a node that is not probing is heard, and answered if it asks for the address. -/
theorem attend_settled {α : Type} {f : Runtime → Packet → Runtime × Option α} (hf : Tame f)
    {who : Identity} (h : Stands who false n) (e : Event)
    (rx : List (Option Event)) :
    Stands who false ((n.hear e rx).attend order f e).1 ∧
      Grew past (turnOf who.addr who.mac e) n ((n.hear e rx).attend order f e).1 := by
  have hhear : Stands who false (n.hear e rx) := ⟨h.who, h.probing⟩
  cases e with
  | packet «at» port p =>
    have hlearn : Stands who false ((n.hear (.packet «at» port p) rx).learn order «at» p) :=
      ⟨h.who, h.probing⟩
    obtain ⟨hstands, -, hrest⟩ := answer_grew hlearn p
    obtain ⟨rest, hpast, hans⟩ := hrest rfl «at» port
    refine ⟨hf.stands _ p _ _ hstands, .heard (.packet «at» port p) :: rest,
      ⟨rest, rfl, hans⟩, ((hf.past _ p).trans hpast).trans ?_⟩
    show (n.past ++ [_]) ++ rest = _
    rw [List.append_assoc, List.singleton_append]
  | dropped k => exact ⟨⟨h.who, h.probing⟩, _, ⟨[], rfl, rfl⟩, rfl⟩
  | llap port l => exact ⟨hhear, _, ⟨[], rfl, rfl⟩, rfl⟩
  | aurp «from» bytes => exact ⟨hhear, _, ⟨[], rfl, rfl⟩, rfl⟩
  | error text => exact ⟨hhear, _, ⟨[], rfl, rfl⟩, rfl⟩

/-! ### Whole waits -/

/-- **The wait rule.** What every event keeps and adds, a wait keeps, and it adds that over and
over, until an event brings the value or the time is up. -/
theorem wait_rule {α : Type} {f : Runtime → Packet → Runtime × Option α} (interval : ℕ)
    {I : Runtime → Prop} {miss : Language Occurrence} {hit : α → Language Occurrence}
    (hmiss : ∀ n e rx n', I n → (n.hear e rx).attend order f e = (n', none) →
      I n' ∧ Grew past miss n n')
    (hhit : ∀ n e rx n' v, I n → (n.hear e rx).attend order f e = (n', some v) →
      I n' ∧ Grew past (hit v) n n')
    (hlapse : ∀ n rx, I n → I (n.lapse interval rx)) (hn : I n) :
    I (n.wait order interval f).1 ∧
      Grew past
        (match (n.wait order interval f).2 with
          | none => miss∗ * {[.lapsed interval]}
          | some v => miss∗ * hit v) n (n.wait order interval f).1 := by
  suffices hover : ∀ rx n, I n →
      I (waitOver order interval f rx n).1 ∧
        Grew past
          (match (waitOver order interval f rx n).2 with
            | none => miss∗ * {[.lapsed interval]}
            | some v => miss∗ * hit v) n (waitOver order interval f rx n).1 from hover n.rx n hn
  intro rx
  induction rx with
  | nil =>
    intro n hn
    exact ⟨hlapse n [] hn, (Grew.nothing rfl).trans (.single rfl)⟩
  | cons r rx ih =>
    intro n hn
    cases r with
    | none => exact ⟨hlapse n rx hn, (Grew.nothing rfl).trans (.single rfl)⟩
    | some e =>
      unfold waitOver
      split
      · rename_i m v hm
        obtain ⟨hI, hgrew⟩ := hhit n e rx m v hn hm
        exact ⟨hI, (Grew.nothing rfl).trans hgrew⟩
      · rename_i m hm
        obtain ⟨hI, hgrew⟩ := hmiss n e rx m hn hm
        obtain ⟨hI', hgrew'⟩ := ih m hI
        refine ⟨hI', (hgrew.trans hgrew').mono ?_⟩
        split
        · rw [← mul_assoc]
          exact mul_le_mul_left mul_kstar_le_kstar _
        · rw [← mul_assoc]
          exact mul_le_mul_left mul_kstar_le_kstar _

/-- What every event keeps, a wait keeps. -/
theorem wait_keeps {α : Type} {f : Runtime → Packet → Runtime × Option α} (interval : ℕ)
    {I : Runtime → Prop}
    (hattend : ∀ n e rx, I n → I ((n.hear e rx).attend order f e).1)
    (hlapse : ∀ n rx, I n → I (n.lapse interval rx)) (hn : I n) :
    I (n.wait order interval f).1 := by
  suffices hover : ∀ rx n, I n → I (waitOver order interval f rx n).1 from hover n.rx n hn
  intro rx
  induction rx with
  | nil => exact fun n hn => hlapse n [] hn
  | cons r rx ih =>
    intro n hn
    cases r with
    | none => exact hlapse n rx hn
    | some e =>
      have hone := hattend n e rx hn
      unfold waitOver
      split
      · rename_i m v hm
        rwa [hm] at hone
      · rename_i m hm
        rw [hm] at hone
        exact ih m hone

/-- What a probing node waits for in silence: nothing it heard was it. -/
theorem wait_probing {α : Type} (v : Packet → Option α) (interval : ℕ) {who : Identity}
    (h : Stands who true n) :
    Stands who true (n.wait order interval fun n p => (n, v p)).1 ∧
      Grew past
        (match (n.wait order interval fun n p => (n, v p)).2 with
          | none => (hearing fun e => ∀ «at» port p, e = .packet «at» port p → v p = none)∗ *
              {[.lapsed interval]}
          | some _ => hushed who.mac) n (n.wait order interval fun n p => (n, v p)).1 := by
  have hmiss : ∀ n e rx n', Stands who true n →
      (n.hear e rx).attend order (fun n p => (n, v p)) e = (n', none) →
      Stands who true n' ∧
        Grew past (hearing fun e => ∀ «at» port p, e = .packet «at» port p → v p = none) n n' := by
    intro n e rx n' hn he
    obtain ⟨hstands, hgrew⟩ := attend_probing order (tame_pure v) hn e rx
    rw [he] at hstands hgrew
    refine ⟨hstands, hgrew.mono ?_⟩
    rintro seg rfl
    refine ⟨e, ?_, rfl⟩
    rintro «at» port p rfl
    exact congrArg Prod.snd he
  have hhit : ∀ n e rx n' w, Stands who true n →
      (n.hear e rx).attend order (fun n p => (n, v p)) e = (n', some w) →
      Stands who true n' ∧ Grew past (hearing fun _ => True) n n' := by
    intro n e rx n' w hn he
    obtain ⟨hstands, hgrew⟩ := attend_probing order (tame_pure v) hn e rx
    rw [he] at hstands hgrew
    refine ⟨hstands, hgrew.mono ?_⟩
    rintro seg rfl
    exact ⟨e, trivial, rfl⟩
  obtain ⟨hI, hgrew⟩ := wait_rule order interval hmiss hhit
    (fun n rx (h : Stands who true n) => (⟨h.who, h.probing⟩ :
      Stands who true (n.lapse interval rx))) h
  refine ⟨hI, ?_⟩
  revert hgrew
  cases (n.wait order interval fun n p => (n, v p)).2 with
  | none => exact id
  | some w =>
    refine fun hgrew => hgrew.mono ?_
    calc _ ≤ hushed who.mac * hushed who.mac :=
          mul_le_mul' (hearing_le_hushed _ who.mac) (le_kstar.trans (hearing_le_hushed _ who.mac))
      _ = hushed who.mac := kstar_mul_kstar _

/-- A node that holds its address defends it while it waits, whatever for. -/
theorem wait_settled {α : Type} {f : Runtime → Packet → Runtime × Option α} (hf : Tame f)
    (interval : ℕ) {who : Identity} (h : Stands who false n) :
    Stands who false (n.wait order interval f).1 ∧
      Grew past (defended who.addr who.mac) n (n.wait order interval f).1 := by
  have hattend : ∀ n e rx n' v, Stands who false n →
      (n.hear e rx).attend order f e = (n', v) →
      Stands who false n' ∧ Grew past (turn who.addr who.mac) n n' := by
    intro n e rx n' v hn he
    obtain ⟨hstands, hgrew⟩ := attend_settled order hf hn e rx
    rw [he] at hstands hgrew
    exact ⟨hstands, hgrew.mono fun _ hseg => ⟨e, hseg⟩⟩
  obtain ⟨hI, hgrew⟩ := wait_rule order interval
    (fun n e rx n' hn he => hattend n e rx n' none hn he)
    (fun n e rx n' v hn he => hattend n e rx n' (some v) hn he)
    (fun n rx (h : Stands who false n) => (⟨h.who, h.probing⟩ :
      Stands who false (n.lapse interval rx))) h
  refine ⟨hI, hgrew.mono ?_⟩
  split
  · calc _ ≤ defended who.addr who.mac * defended who.addr who.mac :=
          mul_le_mul' (turn_le_defended _ _) (lapsed_le_defended interval _ _)
      _ = defended who.addr who.mac := kstar_mul_kstar _
  · calc _ ≤ defended who.addr who.mac * defended who.addr who.mac :=
          mul_le_mul' (turn_le_defended _ _) (le_kstar.trans (turn_le_defended _ _))
      _ = defended who.addr who.mac := kstar_mul_kstar _

/-- What happened stays in the history. -/
theorem mem_past {L : Language Occurrence} (h : Grew past L n n') {x : Occurrence}
    (hx : x ∈ n.past) : x ∈ n'.past := by
  obtain ⟨seg, -, he⟩ := h
  rw [he]
  exact List.mem_append_left _ hx

/-- A packet heard that the value can be read off. -/
def telling {α : Type} (v : Packet → Option α) (w : α) : Language Occurrence :=
  {seg | ∃ «at» port p, v p = some w ∧ .heard (.packet «at» port p) ∈ seg}

/-- A value was read off a packet that was heard. -/
theorem wait_heard {α : Type} (v : Packet → Option α) {interval : ℕ} {who : Identity}
    (h : Stands who false n) {w : α}
    (hw : (n.wait order interval fun n p => (n, v p)).2 = some w) :
    ∃ «at» port p, v p = some w ∧
      .heard (.packet «at» port p) ∈ (n.wait order interval fun n p => (n, v p)).1.past := by
  have hattend : ∀ n e rx n' w, Stands who false n →
      (n.hear e rx).attend order (fun n p => (n, v p)) e = (n', w) →
      Stands who false n' ∧ Grew past (turnOf who.addr who.mac e) n n' := by
    intro n e rx n' w hn he
    have hturn := attend_settled order (tame_pure v) hn e rx
    rwa [he] at hturn
  have hhit : ∀ n e rx n' w, Stands who false n →
      (n.hear e rx).attend order (fun n p => (n, v p)) e = (n', some w) →
      Stands who false n' ∧ Grew past (telling v w) n n' := by
    intro n e rx n' w hn he
    obtain ⟨hstands, seg, ⟨rest, rfl, -⟩, hpast⟩ := hattend n e rx n' (some w) hn he
    refine ⟨hstands, _, ?_, hpast⟩
    cases e with
    | packet «at» port p => exact ⟨«at», port, p, congrArg Prod.snd he, List.mem_cons_self⟩
    | dropped k => cases he
    | llap port l => cases he
    | aurp «from» bytes => cases he
    | error text => cases he
  have hmiss : ∀ n e rx n', Stands who false n →
      (n.hear e rx).attend order (fun n p => (n, v p)) e = (n', none) →
      Stands who false n' ∧ Grew past ⊤ n n' := fun n e rx n' hn he =>
    ⟨(hattend n e rx n' none hn he).1, (hattend n e rx n' none hn he).2.mono le_top⟩
  obtain ⟨-, hgrew⟩ := wait_rule order interval hmiss hhit
    (fun n rx (h : Stands who false n) => (⟨h.who, h.probing⟩ :
      Stands who false (n.lapse interval rx))) h
  rw [hw] at hgrew
  obtain ⟨seg, ⟨s1, -, s2, ⟨«at», port, p, hv, hp⟩, rfl⟩, hpast⟩ := hgrew
  refine ⟨«at», port, p, hv, ?_⟩
  rw [hpast]
  exact List.mem_append_right _ (List.mem_append_right _ hp)

end Runtime

end AppleTalk
