import AppleTalk.Lib.Run
import AppleTalk.Router.Answers
import AppleTalk.Router.Step

/-!
# Answers to answers

A router may be asked by anybody, with any return address, another router's services included.
Each answer ranks below what it answers, so answers to answers soon stop: whatever carries a
datagram from one router's services to the next one's, a chain of service datagrams has at most
three.
-/

namespace AppleTalk

/-- How many rounds of answers a lookup function can still start. -/
def NbpFunc.rank : NbpFunc → ℕ
  | .brRq => 3
  | .fwdReq => 2
  | .lkUp => 1
  | .lkUpReply => 0

/-- How many rounds of answers a protocol message can still start. -/
def DdpBody.rank : DdpBody → ℕ
  | .nbp n => n.func.rank
  | .rtmp .request | .rtmp (.rdr _) => 1
  | .zip (.query _) | .zip (.getNetInfo _) => 1
  | .atp a => if a.func = .req then 1 else 0
  | .aep a => if a.func = .request then 1 else 0
  | _ => 0

/-- A datagram ranks as its body does. -/
def Ddp.rank (d : Ddp) : ℕ := (decodeDdpBody d).rank

theorem DdpBody.rank_le (b : DdpBody) : b.rank ≤ 3 := by
  unfold rank
  split
  · rename_i n
    cases n.func <;> simp [NbpFunc.rank]
  all_goals first
    | omega
    | (split_ifs <;> omega)

/-! ### The datagrams the services make -/

theorem Ddp.rank_congr {d d' : Ddp} (ht : d'.typ = d.typ) (hd : d'.data = d.data) :
    d'.rank = d.rank := congrArg DdpBody.rank (decodeDdpBody_congr ht hd)

/-- RTMP Data starts nothing. -/
theorem rank_rtmpData {d : Ddp} (ht : d.typ = DDP_RTMP_DATA) : d.rank = 0 := by
  unfold Ddp.rank decodeDdpBody
  rw [if_pos (Or.inl ht)]
  cases h : Rtmp.parse d.typ d.data with
  | none => rfl
  | some r =>
    have hr := Rtmp.ddpType_of_parse h
    rw [ht] at hr
    cases r with
    | data sender range tuples => rfl
    | _ => cases hr

/-- A lookup reads back with the function it was written with. -/
theorem rank_nbp {d : Ddp} {n : Nbp} (ht : d.typ = DDP_NBP) (hd : d.data = n.toBytes) :
    d.rank ≤ n.func.rank := by
  have hdec : decodeDdpBody d = ((Nbp.parse d.data).map DdpBody.nbp).getD .unknown := by
    simp [decodeDdpBody, ht, DDP_NBP, DDP_RTMP_DATA, DDP_RTMP_REQ]
  unfold Ddp.rank
  rw [hdec]
  cases h : Nbp.parse d.data with
  | none => exact Nat.zero_le _
  | some n' =>
    obtain ⟨b, hb, hf⟩ := Nbp.head_of_parse h
    obtain ⟨b', hb', hf'⟩ := n.head_toBytes
    rw [hd, hb'] at hb
    obtain rfl := Option.some.inj hb
    exact le_of_eq (congrArg NbpFunc.rank (Option.some.inj (hf.symm.trans hf')))

/-- A ZIP packet that is neither a Query nor a GetNetInfo starts nothing. -/
theorem rank_zip {d : Ddp} {b : UInt8} (ht : d.typ = DDP_ZIP) (hd : d.data.head? = some b)
    (h1 : b ≠ 1) (h5 : b ≠ 5) : d.rank = 0 := by
  have hdec : decodeDdpBody d = ((Zip.parse d.data).map DdpBody.zip).getD .unknown := by
    simp [decodeDdpBody, ht, DDP_ZIP, DDP_NBP, DDP_ATP, DDP_AEP, DDP_RTMP_DATA, DDP_RTMP_REQ]
  unfold Ddp.rank
  rw [hdec]
  cases h : Zip.parse d.data with
  | none => rfl
  | some z =>
    have hhead := Zip.head_of_parse h
    rw [hd] at hhead
    cases z with
    | query nets => exact absurd (Option.some.inj hhead) h1
    | getNetInfo zone => exact absurd (Option.some.inj hhead) h5
    | _ => rfl

/-- An ATP response starts nothing. -/
theorem rank_atp {d : Ddp} (ht : d.typ = DDP_ATP) (hd : d.data.head? = some 0x90) :
    d.rank = 0 := by
  have hdec : decodeDdpBody d = ((Atp.parse d.data).map DdpBody.atp).getD .unknown := by
    simp [decodeDdpBody, ht, DDP_NBP, DDP_ATP, DDP_RTMP_DATA, DDP_RTMP_REQ]
  unfold Ddp.rank
  rw [hdec]
  cases h : Atp.parse d.data with
  | none => rfl
  | some a =>
    obtain ⟨b, hb, hf⟩ := Atp.head_of_parse h
    rw [hd] at hb
    obtain rfl := Option.some.inj hb
    obtain hf : a.func = .resp := (Option.some.inj hf).symm
    simp [DdpBody.rank, hf]

/-- An echo reply starts nothing. -/
theorem rank_aep {d : Ddp} (ht : d.typ = DDP_AEP) (hd : d.data.head? = some 2) :
    d.rank = 0 := by
  have hdec : decodeDdpBody d = ((Aep.parse d.data).map DdpBody.aep).getD .unknown := by
    simp [decodeDdpBody, ht, DDP_NBP, DDP_ATP, DDP_AEP, DDP_RTMP_DATA, DDP_RTMP_REQ]
  unfold Ddp.rank
  rw [hdec]
  cases h : Aep.parse d.data with
  | none => rfl
  | some a =>
    cases hf : a.func with
    | request =>
      have := Aep.head_of_parse h hf
      rw [hd] at this
      exact absurd this (by decide)
    | reply => simp [DdpBody.rank, hf]

/-- **Every answer ranks below what it answers.** -/
theorem Local.Sends.rank_lt {s : Local} {here concerning : Port} {ports : List Port} {d : Ddp}
    {tables : Tables} {body : DdpBody} {e : Emit}
    (h : s.Sends here concerning ports d tables body e) :
    e.ddp.rank < body.rank := by
  cases h with
  | @data r _ _ _ hr he =>
    rw [rank_rtmpData (dataTo_typ e he)]
    cases r with
    | data sender range tuples => cases hr
    | _ => exact Nat.one_pos
  | @zones _ z d' hz hd =>
    obtain ⟨zones, total, rfl⟩ := queryReplies_reply _ hz
    have hhead : d'.data.head? = some (if total.isSome then 8 else 2) := by
      rw [(fromPort_eq hd).2, Zip.head_reply]
    rw [Emit.ddp_route, rank_zip (fromPort_eq hd).1 hhead (by split_ifs <;> decide)
      (by split_ifs <;> decide)]
    exact Nat.one_pos
  | netInfo he =>
    obtain ⟨d', hd, rfl⟩ := Option.map_eq_some_iff.1 he
    have hhead : d'.data.head? = some 6 := by
      rw [(fromPort_eq hd).2]
      simp [Zip.toBytes]
    rw [Emit.ddp_on, rank_zip (fromPort_eq hd).1 hhead (by decide) (by decide)]
    exact Nat.one_pos
  | zoneList he =>
    obtain ⟨hf, last, zones, d', rfl, hd⟩ := zoneList_eq he
    have hhead : d'.data.head? = some 0x90 := by
      rw [(fromPort_eq hd).2]
      rfl
    rw [Emit.ddp_route, rank_atp (fromPort_eq hd).1 hhead]
    simp [DdpBody.rank, hf]
  | lkUp _ hq he =>
    obtain ⟨d', hd, rfl⟩ := Option.map_eq_some_iff.1 he
    refine lt_of_le_of_lt (rank_nbp (fromPort_eq hd).1 (fromPort_eq hd).2) ?_
    rcases Local.func_of_cables hq with hf | hf <;> simp [DdpBody.rank, hf, NbpFunc.rank, retarget]
  | fwdReq _ hs =>
    refine lt_of_le_of_lt (rank_nbp rfl rfl) ?_
    simp [DdpBody.rank, Local.func_of_others hs, NbpFunc.rank, retarget]
  | @reply n _ _ hf he =>
    obtain ⟨addr, d', -, rfl, hd⟩ := reply_eq he
    refine lt_of_le_of_lt (rank_nbp (fromPort_eq hd).1 (fromPort_eq hd).2) ?_
    show 0 < n.func.rank
    cases h : n.func <;> simp [NbpFunc.rank]
    exact hf h
  | echo he =>
    unfold AppleTalk.echo at he
    split_ifs at he with hf
    obtain ⟨d', hd, rfl⟩ := Option.map_eq_some_iff.1 he
    have hhead : d'.data.head? = some 2 := by
      rw [(fromPort_eq hd).2]
      rfl
    rw [Emit.ddp_route, rank_aep (fromPort_eq hd).1 hhead]
    simp [DdpBody.rank, not_not.1 hf]

/-! ### Chains of answers -/

/-- One router's services at work: the datagram they were handed and one they sent. -/
structure Turn where
  router : Router
  origin : Origin
  concerning : Port
  ddp : Ddp
  now : Instant
  sent : Emit

namespace Turn

/-- The services sent it in answer to the datagram. -/
def Served (x : Turn) : Prop :=
  x.sent ∈ (x.router.local.handle (x.router.arrivedOn x.origin) x.concerning x.router.ports x.ddp
    (decodeDdpBody x.ddp) x.router.tables x.now).emits

/-- The datagram the first turn sent is what the second one was handed, whatever the links, the
routers and the bridges on the way made of its addresses and hops. -/
def Triggers (x y : Turn) : Prop :=
  y.ddp.typ = x.sent.ddp.typ ∧ y.ddp.data = x.sent.ddp.data

theorem Served.rank_lt {x : Turn} (h : x.Served) : x.sent.ddp.rank < x.ddp.rank :=
  (Local.sends_of_mem h).rank_lt

end Turn

/-- **No service storms.** Every datagram the services send, as it reads back from the bytes of
either header, ranks below the one it answers. So a chain of service datagrams, each triggering
the next at any router, has at most three, and none goes on for ever. -/
theorem no_service_storms :
    (∀ x : Turn, x.Served →
      (∃ d', Ddp.parse x.sent.ddp.toBytes = some d' ∧ d'.rank < x.ddp.rank) ∧
      ∀ net dstNode srcNode d',
        Ddp.fromShort x.sent.ddp.toShortBytes net dstNode srcNode = some d' →
          d'.rank < x.ddp.rank) ∧
    (∀ xs : List Turn, (∀ x ∈ xs, x.Served) → xs.IsChain Turn.Triggers → xs.length ≤ 3) ∧
    ¬∃ f : ℕ → Turn, ∀ i, (f i).Served ∧ (f i).Triggers (f (i + 1)) := by
  have hlink : ∀ x y : Turn, x.Served → x.Triggers y → y.ddp.rank < x.ddp.rank := by
    intro x y hx hxy
    rw [Ddp.rank_congr hxy.1 hxy.2]
    exact hx.rank_lt
  refine ⟨fun x hx => ⟨?_, ?_⟩, ?_, ?_⟩
  · have hrank : x.sent.ddp.written.rank = x.sent.ddp.rank := Ddp.rank_congr rfl rfl
    exact ⟨_, Ddp.parse_toBytes_eq _, hrank ▸ hx.rank_lt⟩
  · intro net dstNode srcNode d' hd'
    rw [Ddp.fromShort_toShortBytes] at hd'
    split_ifs at hd'
    cases hd'
    exact hx.rank_lt
  · -- Counting down from the first datagram of the chain.
    intro xs hxs hchain
    refine Machine.length_le_of_isChain (fun x => 3 - x.ddp.rank) (P := Turn.Served) ?_ ?_ hxs
      hchain
    · intro x hx
      have := hx.rank_lt
      show 3 - x.ddp.rank < 3
      omega
    · intro x y hx hy hxy
      have h1 := hlink x y hx hxy
      have h2 : x.ddp.rank ≤ 3 := DdpBody.rank_le _
      show 3 - x.ddp.rank < 3 - y.ddp.rank
      omega
  · rintro ⟨f, hf⟩
    have hdown : ∀ n, (f n).ddp.rank + n ≤ 3 := by
      intro n
      induction n with
      | zero => exact DdpBody.rank_le _
      | succ n ih =>
        have := hlink _ _ (hf n).1 (hf n).2
        omega
    have := hdown 4
    omega

end AppleTalk
