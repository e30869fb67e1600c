import AppleTalk.Node.Waits
import AppleTalk.Properties.Claiming

/-!
# A node's address is claimed undisputed and defended

Whatever the queue brings and whatever the NIC refuses, a node that comes up holds an address it has
asked for ten times without anybody objecting; it answered for nothing before, and from then on it
answers for that address whenever it is asked, whatever commands it runs.
-/

open scoped Computability

namespace AppleTalk

open Capture (Event)
open Occurrence

namespace Runtime

variable (order : List (TxnKey × Partial) → List (TxnKey × Partial)) {n : Runtime} {who : Identity}

theorem hushed_trans {mac : MacAddr} {n n' n'' : Runtime} (h : Grew past (hushed mac) n n')
    (h' : Grew past (hushed mac) n' n'') : Grew past (hushed mac) n n'' := Grew.star_trans h h'

theorem defended_trans {addr : Addr} {mac : MacAddr} {n n' n'' : Runtime}
    (h : Grew past (defended addr mac) n n') (h' : Grew past (defended addr mac) n' n'') :
    Grew past (defended addr mac) n n'' := Grew.star_trans h h'

/-! ### One claim -/

theorem probed_le_hushed (a : Addr) (mac : MacAddr) : probed a mac ≤ hushed mac := by
  have hprobe : ({[.sent (probeFrame a mac)]} : Language Occurrence) ≤ hushed mac :=
    le_trans (fun _ h => Or.inl (Or.inr ⟨a, Or.inl h⟩)) le_kstar
  calc probed a mac ≤ hushed mac * hushed mac * hushed mac :=
        mul_le_mul' (mul_le_mul' hprobe (hearing_le_hushed _ mac)) (lapsed_le_hushed _ mac)
    _ = hushed mac := by
        rw [show hushed mac * hushed mac = hushed mac from kstar_mul_kstar _]
        exact kstar_mul_kstar _

/-- **The Probes of one claim**: the node says nothing but Probes, and if it claims the address,
nobody objected to any. -/
theorem probes_grew (a : Addr) (tries : ℕ) (h : Stands who true n) :
    Stands who true (probes order a tries n).1 ∧
      Grew past (hushed who.mac) n (probes order a tries n).1 ∧
      ((probes order a tries n).2 = .ok () →
        Grew past (probed a who.mac ^ tries) n (probes order a tries n).1) := by
  induction tries generalizing n with
  | zero =>
    exact ⟨h, .nothing rfl, fun _ => .of_eq rfl (by rw [pow_zero]; rfl)⟩
  | succ tries ih =>
    have hsent := send_stands h (probeFrame a who.mac)
    have hout : Grew past (hushed who.mac) n (n.send (probeFrame a who.mac)).1 :=
      (send_out n _).mono (le_trans (fun _ hseg => Or.inl (Or.inr ⟨a, hseg⟩)) le_kstar)
    have hwent := send_grew n (probeFrame a who.mac)
    unfold probes
    rw [show frame n.tx.mac BROADCAST_MAC AARP (probe a n.tx.mac).toBytes = probeFrame a who.mac by
      rw [h.mac]; rfl]
    split
    · rename_i n1 e hs
      rw [hs] at hsent hout
      exact ⟨hsent, hout, fun hok => by cases hok⟩
    · rename_i n1 hs
      rw [hs] at hsent hout hwent
      have hprobe : Grew past {[.sent (probeFrame a who.mac)]} n n1 := by
        rcases hwent with ⟨-, hgrew⟩ | ⟨e, he, -⟩
        · exact hgrew
        · cases he
      have hwait := wait_probing order
        (fun p => if p.aarpAction a who.mac true = .conflict then some () else none) PROBE_INTERVAL
        hsent
      rw [hsent.mac]
      split
      · rename_i n2 hw
        rw [hw] at hwait
        exact ⟨hwait.1, hushed_trans hout hwait.2, fun hok => by cases hok⟩
      · rename_i n2 hw
        rw [hw] at hwait
        obtain ⟨hstands, hgrew, hok⟩ := ih hwait.1
        -- What was heard in the interval did not object.
        have hquiet : Grew past ((hearing fun e => objects a who.mac e = false)∗ *
            {[.lapsed PROBE_INTERVAL]}) n1 n2 := by
          refine hwait.2.mono (mul_le_mul_left (kstar_mono (hearing_mono fun e he => ?_)) _)
          cases e with
          | packet «at» port p =>
            have hp := he «at» port p rfl
            by_contra hne
            have hconf : p.aarpAction a who.mac true = .conflict := by
              simpa [objects] using hne
            rw [if_pos hconf] at hp
            cases hp
          | _ => rfl
        have hround : Grew past (probed a who.mac) n n2 := by
          have htrans := hprobe.trans hquiet
          rwa [← mul_assoc] at htrans
        refine ⟨hstands, hushed_trans (hround.mono (probed_le_hushed a _)) hgrew, fun he => ?_⟩
        have htrans := hround.trans (hok he)
        rwa [← pow_succ'] at htrans

/-- One claim, as `claim_one` leaves the node. -/
theorem claimOne_grew (a : Addr) (h : Stands who false n) :
    Stands who false (n.claimOne order a).1 ∧
      Grew past (hushed who.mac) n (n.claimOne order a).1 ∧
      ((n.claimOne order a).2 = .ok () →
        Grew past (undisputed a who.mac) n (n.claimOne order a).1) := by
  have hstart : Stands who true { n with probing := true } := ⟨h.who, rfl⟩
  obtain ⟨hstands, hgrew, hok⟩ := probes_grew order a PROBE_TRIES hstart
  exact ⟨⟨hstands.who, rfl⟩, hgrew, hok⟩

/-- **Candidates one after the other**: the one taken was picked for a seed and never disputed. -/
theorem claimFirst_grew (pick : UInt64 → Addr) (failure : Failure) (attempts : List UInt32)
    (h : Stands who false n) :
    Stands who false (claimFirst order pick failure attempts n).1 ∧
      Grew past (hushed who.mac) n (claimFirst order pick failure attempts n).1 ∧
      ∀ a, (claimFirst order pick failure attempts n).2 = .ok a → (∃ seed, a = pick seed) ∧
        Grew past (hushed who.mac * undisputed a who.mac) n
          (claimFirst order pick failure attempts n).1 := by
  induction attempts generalizing n with
  | nil => exact ⟨h, .nothing rfl, fun a ha => by cases ha⟩
  | cons attempt attempts ih =>
    have hseed : Stands who false (n.seed attempt).1 := ⟨h.who, h.probing⟩
    have hone := claimOne_grew order (pick (n.seed attempt).2) hseed
    have hsame : (n.seed attempt).1.past = n.past := rfl
    unfold claimFirst
    dsimp only
    split
    · rename_i n1 hs
      rw [hs] at hone
      obtain ⟨hstands, hgrew, hok⟩ := hone
      refine ⟨hstands, hgrew.congr_left hsame.symm, fun a ha => ?_⟩
      obtain rfl := Except.ok.inj ha
      refine ⟨⟨_, rfl⟩, ?_⟩
      have hnothing : Grew past (hushed who.mac) n (n.seed attempt).1 := .nothing rfl
      exact hnothing.trans (hok rfl)
    · rename_i n1 e hs
      rw [hs] at hone
      obtain ⟨hstands, hgrew, -⟩ := hone
      obtain ⟨hstands', hgrew', hok'⟩ := ih hstands
      have hfirst := (hgrew.congr_left hsame.symm : Grew past (hushed who.mac) n n1)
      refine ⟨hstands', hushed_trans hfirst hgrew', fun a ha => ?_⟩
      obtain ⟨hpick, hund⟩ := hok' a ha
      refine ⟨hpick, ?_⟩
      have htrans := hfirst.trans hund
      rw [← mul_assoc] at htrans
      rwa [show hushed who.mac * hushed who.mac = hushed who.mac from kstar_mul_kstar _] at htrans

/-! ### The addresses picked -/

/-- A node number that is not reserved. -/
def Addr.Free (a : Addr) : Prop := 1 ≤ a.node ∧ a.node ≤ 253

/-- An address of the startup range. -/
def Addr.Startup (a : Addr) : Prop := 0xff00 ≤ a.net ∧ a.net ≤ 0xfffe ∧ Addr.Free a

theorem pickAddress_free (seed : UInt64) : Addr.Free (pickAddress seed) := by
  have hlt : (seed >>> 16 % 253).toNat < 253 := by
    rw [UInt64.toNat_mod]
    exact Nat.mod_lt _ (by decide)
  have hone : (1 : UInt8).toNat = 1 := rfl
  have hnode : (pickAddress seed).node.toNat = 1 + (seed >>> 16 % 253).toNat := by
    rw [show (pickAddress seed).node = (1 : UInt8) + (seed >>> 16 % 253).toUInt8 from rfl,
      UInt8.toNat_add, UInt64.toNat_toUInt8, hone]
    omega
  refine ⟨UInt8.le_iff_toNat_le.mpr ?_, UInt8.le_iff_toNat_le.mpr ?_⟩
  · rw [hnode, hone]
    omega
  · rw [hnode, show (253 : UInt8).toNat = 253 from rfl]
    omega

/-- A network picked from a first one on. -/
theorem toNat_pick {net : UInt16} {k : UInt64} (h : net.toNat + k.toNat < 65536) :
    (net + k.toUInt16).toNat = net.toNat + k.toNat := by
  rw [UInt16.toNat_add, UInt64.toNat_toUInt16]
  omega

theorem pickAddress_startup (seed : UInt64) : Addr.Startup (pickAddress seed) := by
  have hlt : (seed % 0xff).toNat < 0xff := by
    rw [UInt64.toNat_mod]
    exact Nat.mod_lt _ (by decide)
  have hbase : (0xff00 : UInt16).toNat = 0xff00 := rfl
  have hnet : (pickAddress seed).net.toNat = 0xff00 + (seed % 0xff).toNat :=
    toNat_pick (by rw [hbase]; omega)
  refine ⟨UInt16.le_iff_toNat_le.mpr ?_, UInt16.le_iff_toNat_le.mpr ?_, pickAddress_free seed⟩
  · rw [hnet, hbase]
    omega
  · rw [hnet, show (0xfffe : UInt16).toNat = 0xfffe from rfl]
    omega

/-- A candidate inside a range is inside it. -/
theorem pickInRange_mem {range : UInt16 × UInt16} (h : range.1 ≤ range.2) (seed : UInt64) :
    range.1 ≤ (pickInRange range seed).net ∧ (pickInRange range seed).net ≤ range.2 ∧
      Addr.Free (pickInRange range seed) := by
  have hle := UInt16.le_iff_toNat_le.mp h
  have h2 := range.2.toNat_lt
  have hspan : ((range.2 - range.1).toUInt64 + 1).toNat = range.2.toNat - range.1.toNat + 1 := by
    rw [UInt64.toNat_add, UInt16.toNat_toUInt64, UInt16.toNat_sub_of_le _ _ h,
      show (1 : UInt64).toNat = 1 from rfl]
    omega
  have hlt : (seed % ((range.2 - range.1).toUInt64 + 1)).toNat <
      range.2.toNat - range.1.toNat + 1 := by
    rw [UInt64.toNat_mod, hspan]
    exact Nat.mod_lt _ (Nat.succ_pos _)
  have hnet : (pickInRange range seed).net.toNat =
      range.1.toNat + (seed % ((range.2 - range.1).toUInt64 + 1)).toNat := toNat_pick (by omega)
  refine ⟨UInt16.le_iff_toNat_le.mpr ?_, UInt16.le_iff_toNat_le.mpr ?_, pickAddress_free seed⟩ <;>
    rw [hnet] <;> omega

/-! ### The first address -/

/-- An address as the user wants it. -/
def Wished (a : Addr) : Want → Prop
  | .addr b => a = b ∧ b.node ≠ 254 ∧ b.node ≠ 255
  | .net net => a.net = net ∧ Addr.Free a
  | .discover => Addr.Startup a

/-- The first address is claimed in silence, and undisputed. -/
theorem claimWanted_grew (want : Want) (h : Stands who false n) :
    Stands who false (n.claimWanted order want).1 ∧
      Grew past (hushed who.mac) n (n.claimWanted order want).1 ∧
      ∀ a, (n.claimWanted order want).2 = .ok a → Wished a want ∧
        Grew past (hushed who.mac * undisputed a who.mac) n (n.claimWanted order want).1 := by
  cases want with
  | addr b =>
    unfold claimWanted
    dsimp only
    split_ifs with hres
    · exact ⟨h, .nothing rfl, fun a ha => by cases ha⟩
    · obtain ⟨hstands, hgrew, hok⟩ := claimOne_grew order b h
      split
      · rename_i n1 hs
        rw [hs] at hstands hgrew hok
        refine ⟨hstands, hgrew, fun a ha => ?_⟩
        obtain rfl := Except.ok.inj ha
        have hnothing : Grew past (hushed who.mac) n n := .nothing rfl
        exact ⟨⟨rfl, not_or.mp hres⟩, hnothing.trans (hok rfl)⟩
      · rename_i n1 e hs
        rw [hs] at hstands hgrew
        exact ⟨hstands, hgrew, fun a ha => by cases ha⟩
  | net net =>
    obtain ⟨hstands, hgrew, hok⟩ := claimFirst_grew order (pickInRange (net, net))
      (.error .addrInUse "could not claim an address in range") attempts h
    refine ⟨hstands, hgrew, fun a ha => ?_⟩
    obtain ⟨⟨seed, rfl⟩, hund⟩ := hok a ha
    obtain ⟨hlo, hhi, hfree⟩ :=
      pickInRange_mem (show (net, net).1 ≤ (net, net).2 from UInt16.le_refl net) seed
    exact ⟨⟨UInt16.le_antisymm hhi hlo, hfree⟩, hund⟩
  | discover =>
    obtain ⟨hstands, hgrew, hok⟩ := claimFirst_grew order pickAddress
      (.error .addrInUse "could not claim an address") attempts h
    refine ⟨hstands, hgrew, fun a ha => ?_⟩
    obtain ⟨⟨seed, rfl⟩, hund⟩ := hok a ha
    exact ⟨pickAddress_startup seed, hund⟩

/-! ### What the cable is -/

/-- A datagram of the node's own. -/
theorem sendFrom_settled (h : Stands who false n) (srcSocket : UInt8) (dst : Addr)
    (dstSocket typ : UInt8) (data : Bytes) :
    Stands who false (n.sendFrom srcSocket dst dstSocket typ data).1 ∧
      Grew past (defended who.addr who.mac) n (n.sendFrom srcSocket dst dstSocket typ data).1 := by
  refine ⟨send_stands h _, (send_out n _).mono fun seg hseg => ?_⟩
  exact (le_kstar : _ ≤ (turn who.addr who.mac + saying who.mac + pause)∗)
    (Or.inl (Or.inr ⟨_, h.mac, rfl, hseg⟩))

/-- The address is defended while the node asks what the cable is, and what it then believes it
has heard. -/
theorem netInfoTries_grew (provisional : Addr) (tries : ℕ) (h : Stands who false n) :
    Stands who false (netInfoTries order provisional tries n).1 ∧
      Grew past (defended who.addr who.mac) n (netInfoTries order provisional tries n).1 ∧
      ∀ got, (netInfoTries order provisional tries n).2 = some got →
        ∃ «at» port p, netinfoVerdict p provisional REQUESTED_ZONE = some got ∧
          .heard (.packet «at» port p) ∈ (netInfoTries order provisional tries n).1.past := by
  induction tries generalizing n with
  | zero => exact ⟨h, .nothing rfl, fun got hgot => by cases hgot⟩
  | succ tries ih =>
    have hsent := sendFrom_settled h 6 { net := 0, node := 255 } 6 DDP_ZIP
      (Zip.getNetInfo REQUESTED_ZONE).toBytes
    unfold netInfoTries
    split
    · rename_i n1 e hs
      rw [hs] at hsent
      exact ⟨hsent.1, hsent.2, fun got hgot => by cases hgot⟩
    · rename_i n1 hs
      rw [hs] at hsent
      have hwait := wait_settled order
        (tame_pure fun p => netinfoVerdict p provisional REQUESTED_ZONE) NETINFO_INTERVAL hsent.1
      split
      · rename_i n2 got hw
        have hheard := wait_heard order (fun p => netinfoVerdict p provisional REQUESTED_ZONE)
          hsent.1 (congrArg Prod.snd hw)
        rw [hw] at hwait hheard
        refine ⟨hwait.1, defended_trans hsent.2 hwait.2, fun got' hgot => ?_⟩
        obtain rfl := Option.some.inj hgot
        exact hheard
      · rename_i n2 hw
        rw [hw] at hwait
        obtain ⟨hstands, hgrew, hgot⟩ := ih hwait.1
        exact ⟨hstands, defended_trans (defended_trans hsent.2 hwait.2) hgrew, hgot⟩

/-- The router and the zone are those of a reply that the node heard, for everyone or for the
address it asked from, and that gives the cable this range. -/
def Told (provisional : Addr) (range : UInt16 × UInt16) (n : Runtime) : Prop :=
  ∃ «at» port p d flags multicast defaultZone, .heard (.packet «at» port p) ∈ n.past ∧
    p.body = .ddp d (.zip (.netInfoReply flags range REQUESTED_ZONE multicast defaultZone)) ∧
      (d.dst.node = 255 ∨ d.dst = provisional) ∧ range.1 ≤ range.2 ∧
        n.router = some d.src ∧ n.zone = some (defaultZone.getD REQUESTED_ZONE)

/-- What a verdict was read from. -/
theorem verdict_inv {p : Packet} {provisional : Addr} {verdict : NetInfo} {zone : Str}
    {router : Addr}
    (h : netinfoVerdict p provisional REQUESTED_ZONE = some (verdict, zone, router)) :
    ∃ d flags range multicast defaultZone,
      p.body = .ddp d (.zip (.netInfoReply flags range REQUESTED_ZONE multicast defaultZone)) ∧
        (d.dst.node = 255 ∨ d.dst = provisional) ∧ range.1 ≤ range.2 ∧ router = d.src ∧
          zone = defaultZone.getD REQUESTED_ZONE ∧
          verdict = if range.1 ≤ provisional.net ∧ provisional.net ≤ range.2 then .keep
            else .repick range := by
  unfold netinfoVerdict at h
  split at h
  · rename_i d flags range zone multicast defaultZone hbody
    split at h
    · cases h
    rename_i hdst
    rw [ite_not] at h
    split at h
    · rename_i hzone
      split at h
      · cases h
      · rename_i hrange
        simp only [Option.some.injEq, Prod.mk.injEq] at h
        obtain ⟨hverdict, hz, hrouter⟩ := h
        subst hzone
        exact ⟨d, flags, range, multicast, defaultZone, hbody,
          (not_and_or.1 hdst).imp not_not.1 not_not.1, UInt16.not_lt.mp hrange, hrouter.symm,
          hz.symm, hverdict.symm⟩
    · cases h
  · cases h

/-! ### The whole startup -/

/-- A life that holds an address: it is claimed undisputed in silence, and defended. -/
def lived (addr : Addr) (mac : MacAddr) : Language Occurrence :=
  hushed mac * undisputed addr mac * defended addr mac

/-- What a life starts as: perhaps another address, of the startup range, that the cable had no
place for. -/
def life (addr : Addr) (mac : MacAddr) : Language Occurrence :=
  {seg | seg ∈ lived addr mac ∨ ∃ b, Addr.Startup b ∧ seg ∈ lived b mac * lived addr mac}

/-- What a claim that failed leaves: nothing was answered, or only for a provisional address. -/
def stillborn (mac : MacAddr) : Language Occurrence :=
  {seg | seg ∈ hushed mac ∨ ∃ b, Addr.Startup b ∧ seg ∈ lived b mac * hushed mac}

/-- The node's address is as it was wanted. Where it was told of the cable, at an address that was
as wanted too, its address is on that cable if the user left it open. -/
def Settled (want : Want) (n : Runtime) : Prop :=
  (n.router = none ∧ n.zone = none ∧ Wished n.addr want) ∨
    ∃ provisional range, Wished provisional want ∧ Told provisional range n ∧
      match want with
      | .discover => range.1 ≤ n.addr.net ∧ n.addr.net ≤ range.2 ∧ Addr.Free n.addr
      | _ => Wished n.addr want

theorem lived_defended {addr : Addr} {mac : MacAddr} :
    lived addr mac * defended addr mac = lived addr mac := by
  unfold lived
  rw [mul_assoc, show defended addr mac * defended addr mac = defended addr mac from
    kstar_mul_kstar _]

theorem life_defended {addr : Addr} {mac : MacAddr} :
    life addr mac * defended addr mac ≤ life addr mac := by
  rintro seg ⟨s1, hs1 | ⟨b, hb, hs1⟩, s2, hs2, rfl⟩
  · exact Or.inl (lived_defended.le (Language.append_mem_mul hs1 hs2))
  · refine Or.inr ⟨b, hb, ?_⟩
    have happ := Language.append_mem_mul hs1 hs2
    rwa [mul_assoc, lived_defended] at happ

/-- **A startup**: the address is as wanted and claimed undisputed, or none is held. -/
theorem claim_grew {mac : MacAddr} {addr : Addr} (want : Want)
    (h : Stands ⟨addr, mac, none, none⟩ false n) :
    ((n.claim order want).2 = .ok () →
      Settled want (n.claim order want).1 ∧
        (∃ who, Stands who false (n.claim order want).1 ∧ who.mac = mac) ∧
        Grew past (life (n.claim order want).1.addr mac) n (n.claim order want).1) ∧
      ∀ e, (n.claim order want).2 = .error e →
        Grew past (stillborn mac) n (n.claim order want).1 := by
  obtain ⟨hstands, hgrew, hok⟩ := claimWanted_grew order want h
  unfold claim
  split
  · rename_i n1 e hs
    rw [hs] at hgrew
    exact ⟨fun hc => (by cases hc), fun _ _ => hgrew.mono fun _ hseg => Or.inl hseg⟩
  · rename_i n1 a hs
    rw [hs] at hstands hok
    obtain ⟨hwished, hclaimed⟩ := hok a rfl
    have hheld : Stands ⟨a, mac, none, none⟩ false { n1 with addr := a } :=
      ⟨Identity.mk.injEq .. ▸ ⟨rfl, hstands.mac, congrArg Identity.router hstands.who,
        congrArg Identity.zone hstands.who⟩, hstands.probing⟩
    obtain ⟨hstands', hgrew', hgot⟩ := netInfoTries_grew order a NETINFO_TRIES hheld
    have hlived : Grew past (lived a mac) n
        (netInfoTries order a NETINFO_TRIES { n1 with addr := a }).1 := by
      have hclaimed' : Grew past (hushed mac * undisputed a mac) n { n1 with addr := a } :=
        hclaimed.congr_right rfl
      exact hclaimed'.trans hgrew'
    have hlife : Grew past (life a mac) n
        (netInfoTries order a NETINFO_TRIES { n1 with addr := a }).1 :=
      hlived.mono fun _ hseg => Or.inl hseg
    have hget : { n1 with addr := a }.getNetInfo order =
        netInfoTries order a NETINFO_TRIES { n1 with addr := a } := rfl
    rw [hget]
    split
    · rename_i n2 hn
      rw [hn] at hstands' hlife
      have haddr := hstands'.addr
      refine ⟨fun _ => ⟨Or.inl ⟨congrArg Identity.router hstands'.who,
        congrArg Identity.zone hstands'.who, ?_⟩, ⟨_, hstands', rfl⟩, ?_⟩, fun e he => by cases he⟩
      · exact haddr ▸ hwished
      · exact haddr ▸ hlife
    · rename_i n2 verdict zone router hn
      rw [hn] at hstands' hlife hlived hgot
      obtain ⟨«at», port, p, hverdict, hheard⟩ := hgot _ rfl
      obtain ⟨d, flags, range, multicast, defaultZone, hbody, hdst, hrange, rfl, rfl, rfl⟩ :=
        verdict_inv hverdict
      -- What the router answered is known from here on, whatever becomes of the address.
      have htold : ∀ n3 : Runtime, .heard (.packet «at» port p) ∈ n3.past →
          n3.router = some d.src → n3.zone = some (defaultZone.getD REQUESTED_ZONE) →
            Told a range n3 := fun n3 hp hr hz =>
        ⟨«at», port, p, d, flags, multicast, defaultZone, hp, hbody, hdst, hrange, hr, hz⟩
      have hknows : Stands ⟨a, mac, some d.src, some (defaultZone.getD REQUESTED_ZONE)⟩ false
          { n2 with router := some d.src, zone := some (defaultZone.getD REQUESTED_ZONE) } :=
        ⟨Identity.mk.injEq .. ▸ ⟨hstands'.addr, hstands'.mac, rfl, rfl⟩, hstands'.probing⟩
      have haddr : n2.addr = a := hstands'.addr
      dsimp only
      by_cases hin : range.1 ≤ a.net ∧ a.net ≤ range.2
      · rw [if_pos hin]
        refine ⟨fun _ => ⟨Or.inr ⟨a, range, hwished, htold _ hheard rfl rfl, ?_⟩,
          ⟨_, hknows, rfl⟩, ?_⟩, fun e he => by cases he⟩
        · cases want with
          | discover => exact haddr ▸ ⟨hin.1, hin.2, hwished.2.2⟩
          | _ => exact haddr ▸ hwished
        · exact haddr ▸ hlife
      · rw [if_neg hin]
        dsimp only
        split_ifs with hwant
        · refine ⟨fun _ => ⟨Or.inr ⟨a, range, hwished, htold _ hheard rfl rfl, ?_⟩,
            ⟨_, hknows, rfl⟩, ?_⟩, fun e he => by cases he⟩
          · cases want with
            | discover => exact absurd rfl hwant
            | _ => exact haddr ▸ hwished
          · exact haddr ▸ hlife
        · obtain rfl := not_not.mp hwant
          obtain ⟨hstands3, hgrew3, hok3⟩ := claimFirst_grew order (pickInRange range)
            (.error .addrInUse "could not claim an address in range") attempts hknows
          have hlived' : Grew past (lived a mac) n
              { n2 with router := some d.src, zone := some (defaultZone.getD REQUESTED_ZONE) } :=
            hlived.congr_right rfl
          unfold claimInRange
          split
          · rename_i n3 b hb
            rw [hb] at hstands3 hgrew3 hok3
            obtain ⟨⟨seed, rfl⟩, hund⟩ := hok3 b rfl
            obtain ⟨hlo, hhi, hfree⟩ := pickInRange_mem hrange seed
            refine ⟨fun _ => ⟨Or.inr ⟨a, range, hwished, htold _ (mem_past hgrew3 hheard)
              (congrArg Identity.router hstands3.who) (congrArg Identity.zone hstands3.who),
              hlo, hhi, hfree⟩, ⟨⟨pickInRange range seed, mac, n3.router, n3.zone⟩,
              ⟨Identity.mk.injEq .. ▸ ⟨rfl, hstands3.mac, rfl, rfl⟩, hstands3.probing⟩, rfl⟩, ?_⟩,
              fun e he => by cases he⟩
            have hnothing : Grew past (defended (pickInRange range seed) mac) n3
                { n3 with addr := pickInRange range seed } := .nothing rfl
            exact (hlived'.trans (hund.trans hnothing)).mono fun _ hseg =>
              Or.inr ⟨a, hwished, hseg⟩
          · rename_i n3 e hb
            rw [hb] at hgrew3
            refine ⟨fun hc => (by cases hc), fun _ _ => (hlived'.trans hgrew3).mono ?_⟩
            exact fun _ hseg => Or.inr ⟨a, hwished, hseg⟩

/-! ### The commands -/

/-- From one state to the other the node stays who it is, and defends its address. -/
def Defends (n n' : Runtime) : Prop :=
  ∀ who, Stands who false n → Stands who false n' ∧ Grew past (defended who.addr who.mac) n n'

theorem Defends.trans {n n' n'' : Runtime} (h : Defends n n') (h' : Defends n' n'') :
    Defends n n'' := fun who hn =>
  ⟨(h' who (h who hn).1).1, defended_trans (h who hn).2 (h' who (h who hn).1).2⟩

/-- What changes neither who the node is nor its history. -/
theorem Defends.still {n n' : Runtime} (hwho : n'.identity = n.identity)
    (hprobing : n'.probing = n.probing) (hpast : n'.past = n.past) : Defends n n' := fun _ hn =>
  ⟨⟨hwho.trans hn.who, hprobing.trans hn.probing⟩, .nothing hpast⟩

theorem sendDdp_defends (n : Runtime) (dst : Addr) (dstSocket typ : UInt8) (data : Bytes) :
    Defends n (n.sendDdp dst dstSocket typ data).1 := fun _ hn =>
  sendFrom_settled hn OUR_SOCKET dst dstSocket typ data

theorem wait_defends {α : Type} {f : Runtime → Packet → Runtime × Option α} (hf : Tame f)
    (n : Runtime) (interval : ℕ) : Defends n (n.wait order interval f).1 := fun _ hn =>
  wait_settled order hf interval hn

theorem gatherReplies_tame (id : UInt8) : Tame (gatherReplies id) := by
  constructor
  · intro n p
    unfold gatherReplies
    dsimp only
    split_ifs <;> rfl
  · intro n p who probing h
    unfold gatherReplies
    dsimp only
    split_ifs
    · exact h
    · exact ⟨h.who, h.probing⟩

theorem collect_defends (id : UInt8) (n : Runtime) : Defends n (n.collect order id) := by
  fun_induction collect order id n with
  | case1 n n' h =>
    have hwait := wait_defends order (gatherReplies_tame id) n LOOKUP_INTERVAL
    rwa [h] at hwait
  | case2 n n' h ih =>
    have hwait := wait_defends order (gatherReplies_tame id) n LOOKUP_INTERVAL
    rw [h] at hwait
    exact hwait.trans ih

theorem lookupTries_defends (dst : Addr) (body : Bytes) (id : UInt8) (tries : ℕ)
    (found : List NbpTuple) (n : Runtime) :
    Defends n (lookupTries order dst body id tries found n).1 := by
  induction tries generalizing found n with
  | zero => exact .still rfl rfl rfl
  | succ tries ih =>
    have hsent := sendDdp_defends n dst 2 DDP_NBP body
    unfold lookupTries
    split
    · rename_i n1 e hs
      rwa [hs] at hsent
    · rename_i n1 hs
      rw [hs] at hsent
      have htaken : Defends (n1.collect order id) { n1.collect order id with pending := [] } :=
        .still rfl rfl rfl
      exact ((hsent.trans (collect_defends order id n1)).trans htaken).trans (ih _ _)

theorem lookup_defends (n : Runtime) (object typ zone : Str) :
    Defends n (n.lookup order object typ zone).1 := by
  have hid : Defends n n.takeId.1 := .still rfl rfl rfl
  exact hid.trans (lookupTries_defends order _ _ _ _ _ _)

theorem pings_defends (target : Addr) (magic : UInt32) (left : ℕ) (seq : UInt32) (received : ℕ)
    (n : Runtime) : Defends n (pings order target magic left seq received n).1 := by
  induction left generalizing seq received n with
  | zero => exact .still rfl rfl rfl
  | succ left ih =>
    have hsent := sendDdp_defends n target 4 DDP_AEP (Aep.toBytes ⟨.request, echoData magic seq⟩)
    unfold pings
    split
    · rename_i n1 e hs
      rwa [hs] at hsent
    · rename_i n1 hs
      rw [hs] at hsent
      exact ((hsent.trans (wait_defends order (tame_pure _) n1 PING_INTERVAL)).trans
        (wait_defends order (tame_pure _) _ PING_INTERVAL)).trans (ih _ _ _)

theorem ping_defends (n : Runtime) (target : Addr) (count : UInt16) :
    Defends n (n.ping order target count).1 := by
  have hseed : Defends n (n.seed 0).1 := .still rfl rfl rfl
  have hpings := hseed.trans (pings_defends order target (n.seed 0).2.toUInt32 count.toNat 0 0 _)
  unfold ping
  dsimp only
  split <;> rename_i hr <;> rwa [hr] at hpings

theorem drainReply_tame (router : Addr) (tid : UInt16) : Tame (drainReply router tid) := by
  constructor
  · intro n p
    unfold drainReply
    split_ifs <;> rfl
  · intro n p who probing h
    unfold drainReply
    split_ifs
    · exact h
    · exact ⟨h.who, h.probing⟩

theorem pageTries_defends (router : Addr) (tid : UInt16) (body : Bytes) (tries : ℕ) (n : Runtime) :
    Defends n (pageTries order router tid body tries n).1 := by
  induction tries generalizing n with
  | zero => exact .still rfl rfl rfl
  | succ tries ih =>
    have hsent := sendDdp_defends n router 6 DDP_ATP body
    unfold pageTries
    split
    · rename_i n1 e hs
      rwa [hs] at hsent
    · rename_i n1 hs
      rw [hs] at hsent
      have hwait := hsent.trans
        (wait_defends order (drainReply_tame router tid) n1 ZONE_INTERVAL)
      split
      · rename_i n2 reply hw
        rwa [hw] at hwait
      · rename_i n2 hw
        rw [hw] at hwait
        exact hwait.trans (ih _)

theorem zonePagesFrom_defends (router : Addr) (pages : ℕ) (start : UInt16) (zones : List Str)
    (n : Runtime) : Defends n (zonePagesFrom order router pages start zones n).1 := by
  induction pages generalizing start zones n with
  | zero => exact .still rfl rfl rfl
  | succ pages ih =>
    have hid : Defends n n.takeId.1 := .still rfl rfl rfl
    have hpage := hid.trans (pageTries_defends order router n.takeId.2
      (zoneListRequest n.takeId.2 start).toBytes ZONE_TRIES _)
    unfold zonePagesFrom
    dsimp only
    split
    · rename_i n1 e hs
      rwa [hs] at hpage
    · rename_i n1 hs
      rwa [hs] at hpage
    · rename_i n1 reply hs
      rw [hs] at hpage
      split
      · exact hpage.trans (ih _ _ _)
      · exact hpage

/-- **Every command** leaves the node who it is, and defends its address while it runs. -/
theorem perform_defends (n : Runtime) (cmd : Command) : Defends n (n.perform order cmd).1 := by
  cases cmd with
  | nodes zone =>
    have hlookup := lookup_defends order n ['='] ['='] (zone.getD n.zoneName)
    unfold perform
    dsimp only
    split <;> rename_i hr <;> rwa [hr] at hlookup
  | ping target count =>
    have hresolve : Defends n (n.resolve order target).1 := by
      cases target with
      | addr a => exact .still rfl rfl rfl
      | name object typ zone =>
        have hlookup := lookup_defends order n object typ (zone.getD n.zoneName)
        unfold resolve
        dsimp only
        split <;> rename_i hr <;> rwa [hr] at hlookup
    unfold perform
    dsimp only
    split
    · rename_i n1 e hr
      rwa [hr] at hresolve
    · rename_i n1 a hr
      rw [hr] at hresolve
      have hping := hresolve.trans (ping_defends order n1 a count)
      split <;> rename_i hp <;> rwa [hp] at hping
  | zones =>
    have hzones : Defends n (n.zoneList order).1 := by
      unfold zoneList
      split
      · exact .still rfl rfl rfl
      · exact zonePagesFrom_defends order _ _ _ _ _
    unfold perform
    dsimp only
    split <;> rename_i hr <;> rwa [hr] at hzones

/-! ### A node's run -/

theorem boot_stands (tx : Tx) (rx : List (Option Event)) (clock : List UInt32) :
    Stands ⟨{ net := 0, node := 0 }, tx.mac, none, none⟩ false (boot tx rx clock) := ⟨rfl, rfl⟩

/-- **A node's whole run**, whatever it is asked to do, whatever it hears and whatever the NIC
refuses: if it claims an address it answers for that address whenever it is asked, to the end, and
says nothing else but datagrams; if it claims none it answers for none. -/
theorem run_defends (tx : Tx) (rx : List (Option Event)) (clock : List UInt32) (want : Want)
    (cmd : Command) :
    (runNode order (boot tx rx clock) want cmd).1.past ∈
      match ((boot tx rx clock).claim order want).2 with
      | .ok () => life (runNode order (boot tx rx clock) want cmd).1.addr tx.mac
      | .error _ => stillborn tx.mac := by
  obtain ⟨hok, herr⟩ := claim_grew order want (boot_stands tx rx clock)
  unfold runNode
  rcases hc : claim order (boot tx rx clock) want with ⟨n1, e | ok⟩
  · rw [hc] at herr
    obtain ⟨seg, hseg, hpast⟩ := herr e rfl
    exact (show n1.past = seg from hpast) ▸ hseg
  · rw [hc] at hok
    obtain ⟨-, ⟨who, hwho, hmac⟩, hlife⟩ := hok rfl
    obtain ⟨hstands, hgrew⟩ := perform_defends order n1 cmd who hwho
    rw [← hwho.addr, hmac] at hgrew
    obtain ⟨seg, hseg, hpast⟩ := (hlife.trans hgrew).mono life_defended
    have haddr : (n1.perform order cmd).1.addr = n1.addr := hstands.addr.trans hwho.addr.symm
    show (n1.perform order cmd).1.past ∈ life (n1.perform order cmd).1.addr tx.mac
    rw [haddr, show (n1.perform order cmd).1.past = seg from hpast]
    exact hseg

end Runtime

end AppleTalk
