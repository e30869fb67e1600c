import AppleTalk.Node.Waits

/-!
# What a startup keeps

What sending, hearing, learning and waiting keep, the whole of a startup keeps.
-/

namespace AppleTalk

open Capture (Event)

namespace Runtime

variable (order : List (TxnKey × Partial) → List (TxnKey × Partial))

/-- The node's small steps keep it. -/
structure Kept (I : Runtime → Prop) : Prop where
  send : ∀ n f, I n → I (n.send f).1
  hear : ∀ n e rx, I n → I (n.hear e rx)
  learn : ∀ n «at» p, I n → I (n.learn order «at» p)
  flush : ∀ n, I n → I { n with session := n.session.flush }
  lapse : ∀ n interval rx, I n → I (n.lapse interval rx)
  seed : ∀ n attempt, I n → I (n.seed attempt).1
  probing : ∀ n probing, I n → I { n with probing := probing }
  addr : ∀ n a, I n → I { n with addr := a }
  told : ∀ n router zone, I n → I { n with router := router, zone := zone }

namespace Kept

variable {order} {I : Runtime → Prop} (hI : Kept order I) {n : Runtime}

include hI

theorem takeIn («at» : Instant) (p : Packet) (hn : I n) : I (n.takeIn order «at» p) := by
  have hlearn := hI.learn n «at» p hn
  unfold Runtime.takeIn answer
  split
  · exact hI.send _ _ hlearn
  · exact hlearn

theorem attend {α : Type} {f : Runtime → Packet → Runtime × Option α}
    (hf : ∀ n p, I n → I (f n p).1) (e : Event) (hn : I n) : I (n.attend order f e).1 := by
  cases e with
  | packet «at» port p => exact hf _ p (hI.takeIn «at» p hn)
  | dropped k => exact hI.flush n hn
  | llap port l => exact hn
  | aurp «from» bytes => exact hn
  | error text => exact hn

theorem wait {α : Type} {f : Runtime → Packet → Runtime × Option α}
    (hf : ∀ n p, I n → I (f n p).1) (interval : ℕ) (hn : I n) :
    I (n.wait order interval f).1 :=
  wait_keeps order interval (fun n e rx hn => hI.attend hf e (hI.hear n e rx hn))
    (fun n rx hn => hI.lapse n interval rx hn) hn

theorem probes (a : Addr) (tries : ℕ) (hn : I n) : I (probes order a tries n).1 := by
  induction tries generalizing n with
  | zero => exact hn
  | succ tries ih =>
    have hsent := hI.send n (frame n.tx.mac BROADCAST_MAC AARP (probe a n.tx.mac).toBytes) hn
    unfold Runtime.probes
    split
    · rename_i n1 e hs
      rwa [hs] at hsent
    · rename_i n1 hs
      rw [hs] at hsent
      have hwait := hI.wait (f := fun m p =>
        (m, if p.aarpAction a n1.tx.mac true = .conflict then some () else none))
        (fun _ _ hm => hm) PROBE_INTERVAL hsent
      split
      · rename_i n2 hw
        rwa [hw] at hwait
      · rename_i n2 hw
        rw [hw] at hwait
        exact ih hwait

theorem claimOne (a : Addr) (hn : I n) : I (n.claimOne order a).1 :=
  hI.probing _ false (hI.probes a PROBE_TRIES (hI.probing n true hn))

theorem claimFirst (pick : UInt64 → Addr) (failure : Failure) (attempts : List UInt32)
    (hn : I n) : I (claimFirst order pick failure attempts n).1 := by
  induction attempts generalizing n with
  | nil => exact hn
  | cons attempt attempts ih =>
    have hone := hI.claimOne (pick (n.seed attempt).2) (hI.seed n attempt hn)
    unfold Runtime.claimFirst
    dsimp only
    split
    · rename_i n1 hs
      rwa [hs] at hone
    · rename_i n1 e hs
      rw [hs] at hone
      exact ih hone

theorem netInfoTries (provisional : Addr) (tries : ℕ) (hn : I n) :
    I (netInfoTries order provisional tries n).1 := by
  induction tries generalizing n with
  | zero => exact hn
  | succ tries ih =>
    have hsent : I (n.sendFrom 6 { net := 0, node := 255 } 6 DDP_ZIP
      (Zip.getNetInfo REQUESTED_ZONE).toBytes).1 := hI.send n _ hn
    unfold Runtime.netInfoTries
    split
    · rename_i n1 e hs
      rwa [hs] at hsent
    · rename_i n1 hs
      rw [hs] at hsent
      have hwait := hI.wait (f := fun n p => (n, netinfoVerdict p provisional REQUESTED_ZONE))
        (fun _ _ hm => hm) NETINFO_INTERVAL hsent
      split
      · rename_i n2 got hw
        rwa [hw] at hwait
      · rename_i n2 hw
        rw [hw] at hwait
        exact ih hwait

theorem claimWanted (want : Want) (hn : I n) : I (n.claimWanted order want).1 := by
  cases want with
  | addr b =>
    have hone := hI.claimOne b hn
    unfold Runtime.claimWanted
    dsimp only
    split_ifs
    · exact hn
    · split <;> rename_i hs <;> rwa [hs] at hone
  | net net => exact hI.claimFirst _ _ _ hn
  | discover => exact hI.claimFirst _ _ _ hn

/-- **A whole startup.** -/
theorem claim (want : Want) (hn : I n) : I (n.claim order want).1 := by
  have hwanted := hI.claimWanted want hn
  unfold Runtime.claim
  split
  · rename_i n1 e hs
    rwa [hs] at hwanted
  · rename_i n1 a hs
    rw [hs] at hwanted
    have hget := hI.netInfoTries a NETINFO_TRIES (hI.addr n1 a hwanted)
    rw [show Runtime.getNetInfo order { n1 with addr := a } =
      Runtime.netInfoTries order a NETINFO_TRIES { n1 with addr := a } from rfl]
    split
    · rename_i n2 hg
      rwa [hg] at hget
    · rename_i n2 verdict zone router hg
      rw [hg] at hget
      have htold := hI.told n2 (some router) (some zone) hget
      dsimp only
      split
      · exact htold
      · rename_i range
        split_ifs
        · exact htold
        · have hrange := hI.claimFirst (pickInRange range)
            (.error .addrInUse "could not claim an address in range") Runtime.attempts htold
          unfold claimInRange
          split
          · rename_i n3 b hs3
            rw [hs3] at hrange
            exact hI.addr n3 b hrange
          · rename_i n3 e hs3
            rwa [hs3] at hrange

end Kept

end Runtime

end AppleTalk
