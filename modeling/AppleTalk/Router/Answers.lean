import AppleTalk.Router.Relay

/-!
# What the services answer

No service sends back what it was handed: its answer travels as another DDP type, or starts with
another function code.
-/

namespace AppleTalk

/-- The datagrams differ in their DDP type or in the first byte of what they carry. -/
def Answers (d d' : Ddp) : Prop := d'.typ ≠ d.typ ∨ d'.data.head? ≠ d.data.head?

/-- An action that puts an answer on its way does not carry what it answers. -/
theorem Answers.not_carries {d d' : Ddp} {a : Action} (h : Answers d d') (ha : Encodes d' a) :
    ¬Carries d a := by
  rintro ⟨hops, hd⟩
  obtain ⟨ht, hdata⟩ := ha.inside hd
  rcases h with h | h
  · exact h ht
  · exact h (by rw [hdata])

/-! ### The first byte of what was handed up -/

/-- The protocol is what the datagram's type and data read as. -/
def DdpBody.ReadFrom (d : Ddp) : DdpBody → Prop
  | .atp a => Atp.parse d.data = some a
  | .rtmp r => Rtmp.parse d.typ d.data = some r
  | .aep a => Aep.parse d.data = some a
  | .nbp n => Nbp.parse d.data = some n
  | .zip z => Zip.parse d.data = some z
  | .unknown => True

theorem decodeDdpBody_readFrom (d : Ddp) : (decodeDdpBody d).ReadFrom d := by
  unfold decodeDdpBody
  split_ifs
  · cases h : Rtmp.parse d.typ d.data <;> simp [DdpBody.ReadFrom, h]
  · cases h : Nbp.parse d.data <;> simp [DdpBody.ReadFrom, h]
  · cases h : Atp.parse d.data <;> simp [DdpBody.ReadFrom, h]
  · cases h : Aep.parse d.data <;> simp [DdpBody.ReadFrom, h]
  · cases h : Zip.parse d.data <;> simp [DdpBody.ReadFrom, h]
  · trivial

/-- What a datagram reads as depends on its type and its data alone. -/
theorem decodeDdpBody_congr {d d' : Ddp} (ht : d'.typ = d.typ) (hd : d'.data = d.data) :
    decodeDdpBody d' = decodeDdpBody d := by
  unfold decodeDdpBody
  rw [ht, hd]

theorem Rtmp.ddpType_of_parse {typ : UInt8} {p : Bytes} {r : Rtmp} (h : parse typ p = some r) :
    r.ddpType = typ := by
  unfold parse at h
  split_ifs at h with h1 h2
  · unfold parseData at h
    split at h
    · split_ifs at h
      dsimp only at h
      split at h
      · obtain ⟨ts, -, rfl⟩ := Option.map_eq_some_iff.1 h
        exact h1.symm
      · split at h
        · cases h
        · split_ifs at h
          obtain ⟨ts, -, rfl⟩ := Option.map_eq_some_iff.1 h
          exact h1.symm
    · cases h
  · split at h <;> cases h <;> exact h2.symm

namespace Zip

theorem parseNetInfoReply_eq {p : Bytes} {z : Zip} (h : parseNetInfoReply p = some z) :
    ∃ flags range zone multicast defaultZone,
      z = .netInfoReply flags range zone multicast defaultZone := by
  unfold parseNetInfoReply at h
  split at h
  · simp only [Option.bind_eq_bind, Option.bind_eq_some_iff] at h
    obtain ⟨⟨zone, rest⟩, -, mclen, -, h⟩ := h
    dsimp only at h
    split_ifs at h
    all_goals
      simp only [Option.bind_eq_some_iff, Option.bind_some, Option.pure_def, Option.some.injEq] at h
      first
        | (obtain ⟨_, h, -⟩ := h
           cases h)
        | (obtain ⟨_, _, h⟩ := h
           exact ⟨_, _, _, _, _, h.symm⟩)
        | exact ⟨_, _, _, _, _, h.symm⟩
  · cases h

/-- The command byte a ZIP packet was read from. -/
theorem head_of_parse {p : Bytes} {z : Zip} (h : parse p = some z) :
    match z with
    | .query _ => p.head? = some 1
    | .getNetInfo _ => p.head? = some 5
    | _ => True := by
  unfold parse at h
  cases p with
  | nil => cases h
  | cons cmd p =>
    have hcmd : ∀ n : ℕ, cmd.toNat = n → cmd = UInt8.ofNat n := by
      rintro n rfl
      simp
    dsimp only at h
    split at h
    · rename_i hc _
      obtain ⟨r, -, rfl⟩ := Option.map_eq_some_iff.1 h
      exact congrArg some (hcmd _ hc)
    · obtain ⟨r, -, rfl⟩ := Option.map_eq_some_iff.1 h
      trivial
    · obtain ⟨r, -, rfl⟩ := Option.map_eq_some_iff.1 h
      trivial
    · rename_i hc _
      split_ifs at h
      obtain ⟨r, -, rfl⟩ := Option.map_eq_some_iff.1 h
      exact congrArg some (hcmd _ hc)
    · obtain ⟨_, _, _, _, _, rfl⟩ := parseNetInfoReply_eq h
      trivial
    · cases h
      trivial
    · cases h

end Zip

/-- The control byte of an ATP packet holds its function. -/
theorem Atp.head_of_parse {p : Bytes} {a : Atp} (h : parse p = some a) :
    ∃ b, p.head? = some b ∧ funcOf b = some a.func := by
  unfold parse at h
  split at h
  · simp only [Option.bind_eq_bind, Option.bind_eq_some_iff] at h
    obtain ⟨f, hf, h⟩ := h
    cases h
    exact ⟨_, rfl, hf⟩
  · cases h

/-- The first byte of an NBP packet holds its function. -/
theorem Nbp.head_of_parse {p : Bytes} {n : Nbp} (h : parse p = some n) :
    ∃ b, p.head? = some b ∧ funcOf b = some n.func := by
  unfold parse at h
  split at h
  · simp only [Option.bind_eq_bind, Option.bind_eq_some_iff] at h
    obtain ⟨f, hf, ts, -, h⟩ := h
    cases h
    exact ⟨_, rfl, hf⟩
  · cases h

theorem Nbp.head_toBytes (n : Nbp) : ∃ b, n.toBytes.head? = some b ∧ funcOf b = some n.func := by
  have key : ∀ k : Fin 16, ∀ f, funcOf ((funcCode f <<< 4) ||| UInt8.ofNat k.val) = some f := by
    intro k f
    revert k
    cases f <;> decide
  exact ⟨_, rfl, key ⟨min n.tuples.length 15, by omega⟩ n.func⟩

/-- The first byte of an echo packet is its function. -/
theorem Aep.head_of_parse {p : Bytes} {a : Aep} (h : parse p = some a) (hf : a.func = .request) :
    p.head? = some 1 := by
  unfold parse at h
  cases p with
  | nil => cases h
  | cons b p =>
    dsimp only at h
    split at h
    · rename_i hb
      exact congrArg some (UInt8.toNat_inj.1 hb)
    · cases h
      cases hf
    · cases h

/-! ### The answers -/

theorem fromPort_eq {port : Port} {srcSocket : UInt8} {dst : Addr} {dstSocket typ : UInt8}
    {body : Bytes} {d : Ddp} (h : fromPort port srcSocket dst dstSocket typ body = some d) :
    d.typ = typ ∧ d.data = body := by
  obtain ⟨src, -, rfl⟩ := Option.map_eq_some_iff.1 h
  exact ⟨rfl, rfl⟩

/-- What holds of every packet a fold has finished holds of every packet in the end. -/
theorem forall_mem_foldl {α β γ : Type} {P : β → Prop} {f : List β × γ → α → List β × γ}
    (hf : ∀ r a, (∀ b ∈ r.1, P b) → ∀ b ∈ (f r a).1, P b) (l : List α) {r : List β × γ}
    (hr : ∀ b ∈ r.1, P b) : ∀ b ∈ (l.foldl f r).1, P b := by
  induction l generalizing r with
  | nil => exact hr
  | cons a l ih => exact ih (hf r a hr)

theorem chunk_data {sender : Addr} {range : Option (UInt16 × UInt16)} {tuples : List NetworkTuple} :
    ∀ r ∈ chunk sender range tuples, r.ddpType = DDP_RTMP_DATA := by
  unfold chunk
  refine List.forall_mem_append.2 ⟨forall_mem_foldl (fun r t hr => ?_) tuples (by simp), by
    simp [Rtmp.ddpType]⟩
  dsimp only
  have hdone : ∀ b ∈ r.1 ++ [Rtmp.data sender range r.2.1], b.ddpType = DDP_RTMP_DATA :=
    List.forall_mem_append.2 ⟨hr, by simp [Rtmp.ddpType]⟩
  split_ifs
  all_goals first
    | exact hr
    | exact hdone

/-- A reply's command byte. -/
theorem Zip.head_reply (zones : List (UInt16 × Str)) (total : Option UInt8) :
    (Zip.reply zones total).toBytes.head? = some (if total.isSome then 8 else 2) := rfl

theorem pages_reply (pairs : List (UInt16 × Str)) :
    ∀ r ∈ pages pairs, ∃ zones total, r = .reply zones total := by
  have hfold := forall_mem_foldl (P := fun r => ∃ zones total, r = Zip.reply zones total)
    (f := fun (r : List Zip × List (UInt16 × Str) × ℕ) p =>
      let n := pairBytes p.2
      if DDP_MAX < r.2.2 + n ∧ r.2.1 ≠ [] then
        (r.1 ++ [.reply r.2.1 (some (UInt8.ofNat (min pairs.length 255)))], [p], ZIP_HEAD + n)
      else (r.1, r.2.1 ++ [p], r.2.2 + n))
    (fun r p hr => by
      dsimp only
      split_ifs
      · exact List.forall_mem_append.2 ⟨hr, by simp⟩
      · exact hr) pairs (r := ([], [], ZIP_HEAD)) (by simp)
  unfold pages
  dsimp only
  split_ifs
  · exact hfold
  · exact List.forall_mem_append.2 ⟨hfold, by simp⟩

/-- Every packet that answers a query is a reply. -/
theorem queryReplies_reply {nets : List UInt16} {tables : Tables} :
    ∀ r ∈ queryReplies nets tables, ∃ zones total, r = .reply zones total := by
  unfold queryReplies
  dsimp only
  generalize hr : List.foldl _ _ nets = r
  have hfold : ∀ b ∈ r.1, ∃ zones total, b = .reply zones total := by
    rw [← hr]
    refine forall_mem_foldl (fun r net hr => ?_) nets (by simp)
    cases (tables.zones net).filter ZoneList.complete with
    | none => exact hr
    | some list =>
      have hdone : ∀ b ∈ r.1 ++ [Zip.reply r.2.1 none], ∃ zones total, b = .reply zones total :=
        List.forall_mem_append.2 ⟨hr, by simp⟩
      dsimp only
      split_ifs
      all_goals first
        | exact hr
        | exact hdone
        | exact List.forall_mem_append.2 ⟨hr, pages_reply _⟩
        | exact List.forall_mem_append.2 ⟨hdone, pages_reply _⟩
  split_ifs
  · exact hfold
  · exact List.forall_mem_append.2 ⟨hfold, by simp⟩

/-- A ZIP call over ATP is answered with one response. -/
theorem zoneList_eq {port : Port} {d : Ddp} {a : Atp} {tables : Tables} {e : Emit}
    (h : zoneList port d a tables = some e) :
    a.func = .req ∧ ∃ last zones d', e = .route d' ∧
      fromPort port ZIP_SOCKET d.src d.srcSocket DDP_ATP
        (Atp.response a.tid 0 true false (ZipAtp.replyParts last (namesThatFit 0 zones)).1
          (ZipAtp.replyParts last (namesThatFit 0 zones)).2).toBytes = some d' := by
  unfold zoneList at h
  split_ifs at h with hf
  · cases h
  · simp only [Option.bind_eq_bind, Option.bind_eq_some_iff] at h
    obtain ⟨req, -, h⟩ := h
    refine ⟨not_not.1 hf, ?_⟩
    cases req with
    | reply last zones => cases h
    | _ =>
      obtain ⟨d', hd', rfl⟩ := Option.map_eq_some_iff.1 h
      exact ⟨_, _, d', rfl, hd'⟩

/-- Only a port that holds an address sends. -/
theorem fromPort_isSome {port : Port} {srcSocket : UInt8} {dst : Addr} {dstSocket typ : UInt8}
    {body : Bytes} :
    (fromPort port srcSocket dst dstSocket typ body).isSome = port.node.isSome := by
  simp [fromPort, Port.addr]

theorem lkup_isSome (q : Port) (n : Nbp) (zone : Str) :
    (lkup q n zone).isSome = q.node.isSome := by
  rw [lkup, Option.isSome_map, fromPort_isSome]

theorem lkup_claimed {q : Port} {n : Nbp} {zone : Str} {e : Emit} (h : lkup q n zone = some e) :
    q.node.isSome := by
  rw [← lkup_isSome q n zone, h]
  rfl

namespace Local

/-- The zone a lookup is for: a wildcard stands for the cable's own. -/
def lookupZone (port : Port) (t : NbpTuple) : Str :=
  if t.zone = [] ∨ t.zone = ['*'] then port.defaultZone else t.zone

/-- The cables of ours a lookup is passed on to. -/
def cables (ports : List Port) (tables : Tables) (n : Nbp) (zone : Str) : List Port :=
  match n.func with
  | .brRq => (tables.netsInZone zone).filterMap fun st => directPort ports st.2 st.1
  | .fwdReq => ports.filter fun q => q.hasZone zone
  | _ => []

/-- The other routers' networks a lookup is passed on to. -/
def others (ports : List Port) (tables : Tables) (n : Nbp) (zone : Str) : List UInt16 :=
  match n.func with
  | .brRq => ((tables.netsInZone zone).filter fun st =>
      (directPort ports st.2 st.1).isNone).map Prod.fst
  | _ => []

theorem func_of_cables {ports : List Port} {tables : Tables} {n : Nbp} {zone : Str} {q : Port}
    (h : q ∈ cables ports tables n zone) : n.func = .brRq ∨ n.func = .fwdReq := by
  unfold cables at h
  split at h
  · exact Or.inl ‹_›
  · exact Or.inr ‹_›
  · cases h

theorem func_of_others {ports : List Port} {tables : Tables} {n : Nbp} {zone : Str}
    {start : UInt16} (h : start ∈ others ports tables n zone) : n.func = .brRq := by
  unfold others at h
  split at h
  · assumption
  · cases h

/-- Everything the services send in answer to a datagram `d`: `here` is the cable it came off, or
the port it concerns. -/
inductive Sends (s : Local) (here concerning : Port) (ports : List Port) (d : Ddp)
    (tables : Tables) : DdpBody → Emit → Prop
  | data {r : Rtmp} {p : Port} {tuples : List NetworkTuple} {e : Emit}
      (hr : r.ddpType = DDP_RTMP_REQ) (he : e ∈ dataTo p d tuples) :
      Sends s here concerning ports d tables (.rtmp r) e
  | zones {nets : List UInt16} {z : Zip} {d' : Ddp} (hz : z ∈ queryReplies nets tables)
      (hd : fromPort here ZIP_SOCKET d.src d.srcSocket DDP_ZIP z.toBytes = some d') :
      Sends s here concerning ports d tables (.zip (.query nets)) (.route d')
  | netInfo {zone : Str} {e : Emit} (he : AppleTalk.netInfo here d zone = some e) :
      Sends s here concerning ports d tables (.zip (.getNetInfo zone)) e
  | zoneList {a : Atp} {e : Emit} (he : AppleTalk.zoneList here d a tables = some e) :
      Sends s here concerning ports d tables (.atp a) e
  | lkUp {n : Nbp} {q : Port} {t : NbpTuple} {e : Emit} (ht : n.tuples.head? = some t)
      (hq : q ∈ cables ports tables n (lookupZone here t))
      (he : lkup q n (lookupZone here t) = some e) :
      Sends s here concerning ports d tables (.nbp n) e
  | fwdReq {n : Nbp} {start : UInt16} {t : NbpTuple} (ht : n.tuples.head? = some t)
      (hs : start ∈ others ports tables n (lookupZone here t)) :
      Sends s here concerning ports d tables (.nbp n)
        (AppleTalk.fwdReq d n start (lookupZone here t))
  | reply {n : Nbp} {t : NbpTuple} {e : Emit} (hf : n.func ≠ .lkUpReply)
      (he : s.reply here n t = some e) : Sends s here concerning ports d tables (.nbp n) e
  | echo {a : Aep} {e : Emit} (he : AppleTalk.echo concerning d a = some e) :
      Sends s here concerning ports d tables (.aep a) e

variable {s : Local} {arrivedOn : Option Port} {q : Port} {ports : List Port} {d : Ddp}
  {tables : Tables} {now : Instant} {e : Emit}

theorem sends_of_mem_rtmp {p here : Port} {r : Rtmp}
    (h : e ∈ (rtmp p ports d r tables now).emits) : s.Sends here q ports d tables (.rtmp r) e := by
  cases r with
  | data sender range tuples =>
    unfold rtmp at h
    dsimp only at h
    split_ifs at h <;> cases h
  | request => exact .data rfl h
  | rdr splitHorizon => exact .data rfl h

theorem sends_of_mem_zip {here : Port} {z : Zip} (h : e ∈ (zip here d z tables).emits) :
    s.Sends here q ports d tables (.zip z) e := by
  cases z with
  | query nets =>
    obtain ⟨r, hr, h⟩ := List.mem_filterMap.1 h
    obtain ⟨d', hd', rfl⟩ := Option.map_eq_some_iff.1 h
    exact .zones hr hd'
  | getNetInfo zone => exact .netInfo (Option.mem_toList.1 h)
  | _ => cases h

/-- What becomes of a lookup: copies on our own cables, copies for other routers and our own
answer. -/
theorem mem_nbp {here : Port} {n : Nbp} {t : NbpTuple} (ht : n.tuples.head? = some t) :
    e ∈ s.nbp here ports d n tables ↔
      (∃ q ∈ cables ports tables n (lookupZone here t), lkup q n (lookupZone here t) = some e) ∨
        (∃ start ∈ others ports tables n (lookupZone here t),
          e = AppleTalk.fwdReq d n start (lookupZone here t)) ∨
        n.func ≠ .lkUpReply ∧ s.reply here n t = some e := by
  obtain ⟨ts, htuples⟩ := List.head?_eq_some_iff.1 ht
  unfold nbp cables others
  rw [htuples]
  dsimp only
  cases n.func with
  | brRq =>
    refine List.mem_append.trans ?_
    rw [← or_assoc]
    refine or_congr ?_ (by simp)
    constructor
    · intro h
      obtain ⟨st, hst, h⟩ := List.mem_flatMap.1 h
      split at h
      · rename_i q hq
        exact Or.inl ⟨q, List.mem_filterMap.2 ⟨st, hst, hq⟩, Option.mem_toList.1 h⟩
      · rename_i hq
        refine Or.inr ⟨st.1, ?_, List.mem_singleton.1 h⟩
        exact List.mem_map_of_mem (List.mem_filter.2 ⟨hst, by rw [hq]; rfl⟩)
    · rintro (⟨q, hq, he⟩ | ⟨start, hs, rfl⟩)
      · obtain ⟨st, hst, hq⟩ := List.mem_filterMap.1 hq
        refine List.mem_flatMap.2 ⟨st, hst, ?_⟩
        rw [hq]
        exact Option.mem_toList.2 he
      · obtain ⟨st, hst, rfl⟩ := List.mem_map.1 hs
        obtain ⟨hst, hq⟩ := List.mem_filter.1 hst
        refine List.mem_flatMap.2 ⟨st, hst, ?_⟩
        rw [Option.isNone_iff_eq_none.1 hq]
        exact List.mem_singleton_self _
  | fwdReq => simp [and_assoc, lookupZone]
  | lkUp => simp
  | lkUpReply => simp

theorem sends_of_mem_nbp {here : Port} {n : Nbp} (h : e ∈ s.nbp here ports d n tables) :
    s.Sends here q ports d tables (.nbp n) e := by
  cases ht : n.tuples.head? with
  | none =>
    rw [List.head?_eq_none_iff] at ht
    unfold nbp at h
    rw [ht] at h
    cases h
  | some t =>
    rcases (mem_nbp ht).1 h with ⟨q, hq, he⟩ | ⟨start, hs, rfl⟩ | ⟨hf, he⟩
    · exact .lkUp ht hq he
    · exact .fwdReq ht hs
    · exact .reply hf he

/-- **What the services send** for a datagram handed to them. -/
theorem sends_of_mem {body : DdpBody}
    (h : e ∈ (s.handle arrivedOn q ports d body tables now).emits) :
    s.Sends (arrivedOn.getD q) q ports d tables body e := by
  unfold handle at h
  cases body with
  | rtmp r =>
    dsimp only at h
    split_ifs at h
    · split at h
      · exact sends_of_mem_rtmp h
      · cases h
    · cases h
  | zip z =>
    dsimp only at h
    split_ifs at h
    · exact sends_of_mem_zip h
    · cases h
  | atp a =>
    dsimp only at h
    split_ifs at h
    · exact .zoneList (Option.mem_toList.1 h)
    · cases h
  | nbp n =>
    dsimp only at h
    split_ifs at h
    · exact sends_of_mem_nbp h
    · cases h
  | aep a =>
    dsimp only at h
    split_ifs at h
    · exact .echo (Option.mem_toList.1 h)
    · cases h
  | unknown => cases h

end Local

/-! ### No answer is what it answers -/

/-- RTMP answers a request with data. -/
theorem dataTo_typ {port : Port} {d : Ddp} {tuples : List NetworkTuple} :
    ∀ e ∈ dataTo port d tuples, e.ddp.typ = DDP_RTMP_DATA := by
  intro e he
  unfold dataTo rtmpData at he
  split at he
  · cases he
  · obtain ⟨r, hr, rfl⟩ := List.mem_map.1 he
    exact chunk_data r hr

/-- NBP answers with another function. -/
theorem nbp_answers {d d' : Ddp} {n n' : Nbp} (h : Nbp.parse d.data = some n)
    (hf : n'.func ≠ n.func) (hd : d'.data = n'.toBytes) : Answers d d' := by
  obtain ⟨b, hb, hbf⟩ := Nbp.head_of_parse h
  obtain ⟨b', hb', hbf'⟩ := n'.head_toBytes
  refine Or.inr fun heq => hf ?_
  rw [hd, hb, hb'] at heq
  obtain rfl := Option.some.inj heq
  exact Option.some.inj (hbf'.symm.trans hbf)

namespace Local

/-- A lookup is answered with a LkUp-Reply naming this router. -/
theorem reply_eq {s : Local} {port : Port} {n : Nbp} {t : NbpTuple} {e : Emit}
    (h : s.reply port n t = some e) :
    ∃ addr d', port.addr = some addr ∧ e = .route d' ∧
      fromPort port NBP_SOCKET t.addr t.socket DDP_NBP
        ({ func := .lkUpReply, id := n.id
           tuples := [{ addr := addr, socket := ROUTER_SOCKET, enumerator := 0, object := s.name
                        typ := ROUTER_TYPE, zone := port.defaultZone }] } : Nbp).toBytes =
        some d' := by
  unfold reply at h
  dsimp only at h
  split_ifs at h
  obtain ⟨addr, ha, h⟩ := Option.bind_eq_some_iff.1 h
  obtain ⟨d', hd', rfl⟩ := Option.map_eq_some_iff.1 h
  exact ⟨addr, d', ha, rfl, hd'⟩

/-- **No service sends back what it was handed.** -/
theorem handle_answers (s : Local) (arrivedOn : Option Port) (q : Port) (ports : List Port)
    {d : Ddp} {body : DdpBody} (h : body.ReadFrom d) (tables : Tables) (now : Instant) :
    ∀ e ∈ (s.handle arrivedOn q ports d body tables now).emits, Answers d e.ddp := by
  intro e he
  cases sends_of_mem he with
  | data hr he =>
    refine Or.inl ?_
    rw [← Rtmp.ddpType_of_parse h, hr, dataTo_typ e he]
    decide
  | zones hz hd =>
    obtain ⟨zones, total, rfl⟩ := queryReplies_reply _ hz
    refine Or.inr ?_
    rw [Emit.ddp_route, (fromPort_eq hd).2, Zip.head_of_parse h, Zip.head_reply]
    split_ifs <;> decide
  | netInfo he =>
    obtain ⟨d', hd', rfl⟩ := Option.map_eq_some_iff.1 he
    refine Or.inr ?_
    rw [Emit.ddp_on, (fromPort_eq hd').2, Zip.head_of_parse h]
    simp [Zip.toBytes]
  | zoneList he =>
    obtain ⟨hf, last, zones, d', rfl, hd'⟩ := zoneList_eq he
    obtain ⟨b, hb, hbf⟩ := Atp.head_of_parse h
    refine Or.inr ?_
    rw [Emit.ddp_route, (fromPort_eq hd').2, hb]
    intro heq
    obtain rfl : b = 0x90 := (Option.some.inj heq).symm
    rw [hf] at hbf
    exact absurd hbf (by decide)
  | lkUp _ hq he =>
    obtain ⟨d', hd', rfl⟩ := Option.map_eq_some_iff.1 he
    refine nbp_answers h ?_ (fromPort_eq hd').2
    rcases func_of_cables hq with hf | hf <;> simp [hf, retarget]
  | fwdReq _ hs => exact nbp_answers h (by simp [func_of_others hs, retarget]) rfl
  | reply hf he =>
    obtain ⟨addr, d', -, rfl, hd'⟩ := reply_eq he
    exact nbp_answers h hf.symm (fromPort_eq hd').2
  | echo he =>
    unfold AppleTalk.echo at he
    split_ifs at he with hf
    obtain ⟨d', hd', rfl⟩ := Option.map_eq_some_iff.1 he
    refine Or.inr ?_
    rw [Emit.ddp_route, (fromPort_eq hd').2, Aep.head_of_parse h (not_not.1 hf)]
    simp [Aep.toBytes]

end Local

end AppleTalk
