import AppleTalk.Router.Arrivals
import AppleTalk.Router.Relay
import AppleTalk.Tashtalk.Firmware

/-!
# What a TashTalk's line carries

Nothing on the serial line says where a command ends, and nobody knows what the firmware was in the
middle of when the port opened. One that keeps to the protocol takes the commands it is sent all the
same, and answers for just the node that the port holds.
-/

namespace AppleTalk

open Firmware

/-! ### Actions on the line -/

namespace Action

/-- What an action writes to the line of a TashTalk port. -/
def written (id : PortId) : Action → Bytes
  | .toLlap port l => if port = id then frameCommand l else []
  | .setNode port node => if port = id then nodeCommand node else []
  | _ => []

/-- The command it is. -/
def command (id : PortId) : Action → Option Command
  | .toLlap port l => if port = id then some (.transmit (l.toBytes ++ fcs l.toBytes)) else none
  | .setNode port node => if port = id then some (.nodes (nodeMap node)) else none
  | _ => none

/-- The node it tells the port's firmware to answer for. -/
def tells (id : PortId) : Action → Option (Option UInt8)
  | .setNode port node => if port = id then some node else none
  | _ => none

variable {id : PortId}

/-- What is written is read as the command, if a frame is legal. -/
theorem takes_written {f : Firmware} (hf : f.Documented) {s : f.State} (hs : f.awaits s)
    (a : Action) (h : ∀ l, a = .toLlap id l → Llap.parse l.toBytes = some l) :
    (a.written id = [] ∧ a.command id = none ∧ a.tells id = none) ∨
      ∃ c, a.command id = some c ∧ f.Takes s (a.written id) c := by
  cases a with
  | toLlap port l =>
    unfold written command
    dsimp only
    split_ifs with hport
    · exact Or.inr ⟨_, rfl, hf.frameCommand hs (h l (by rw [hport]))⟩
    · exact Or.inl ⟨rfl, rfl, rfl⟩
  | setNode port node =>
    unfold written command tells
    dsimp only
    split_ifs with hport
    · exact Or.inr ⟨_, rfl, hf.nodeCommand hs node⟩
    · exact Or.inl ⟨rfl, rfl, rfl⟩
  | _ => exact Or.inl ⟨rfl, rfl, rfl⟩

/-- What its firmware answers for behind a command is what the command told it. -/
theorem answers_command {a : Action} {c : Command} (h : a.command id = some c)
    (node : Option UInt8) (m : UInt8) :
    c.answers m (node = some m) = true ↔ (a.tells id).getD node = some m := by
  cases a with
  | toLlap port l =>
    unfold command at h
    dsimp only at h
    split_ifs at h
    obtain rfl := Option.some.inj h
    exact decide_eq_true_iff
  | setNode port node' =>
    unfold command at h
    dsimp only at h
    split_ifs at h with hport
    obtain rfl := Option.some.inj h
    rw [tells, if_pos hport]
    exact inMap_nodeMap node' m
  | _ => cases h

end Action

/-- The node a port's firmware was told last. -/
def Action.told (id : PortId) (node : Option UInt8) (acts : List Action) : Option UInt8 :=
  acts.foldl (fun node a => (a.tells id).getD node) node

namespace Action

variable {id : PortId}

theorem told_append (node : Option UInt8) (acts more : List Action) :
    told id node (acts ++ more) = told id (told id node acts) more := by
  simp [told]

theorem told_silent {acts : List Action} (h : ∀ a ∈ acts, a.tells id = none)
    (node : Option UInt8) : told id node acts = node := by
  induction acts with
  | nil => rfl
  | cons a acts ih =>
    obtain ⟨ha, hacts⟩ := List.forall_mem_cons.1 h
    show told id ((a.tells id).getD node) acts = node
    rw [ha]
    exact ih hacts

/-- **The commands are read as they were sent**, if the frames are legal, and leave the firmware
answering for the node it was told last. -/
theorem reads_written {f : Firmware} (hf : f.Documented) (acts : List Action)
    (h : ∀ l, .toLlap id l ∈ acts → Llap.parse l.toBytes = some l) {s : f.State} (hs : f.awaits s)
    {node : Option UInt8} (hnode : ∀ m, f.answers s m = true ↔ node = some m) :
    f.reads s (acts.flatMap (written id)) = acts.filterMap (command id) ∧
      ∀ m, f.answers (f.after s (acts.flatMap (written id))) m = true ↔
        told id node acts = some m := by
  induction acts generalizing s node with
  | nil => exact ⟨rfl, hnode⟩
  | cons a acts ih =>
    have hrest := fun l hl => h l (List.mem_cons_of_mem _ hl)
    rw [List.flatMap_cons, List.filterMap_cons, reads_append, after_append]
    show _ ∧ ∀ m, _ ↔ told id ((a.tells id).getD node) acts = some m
    rcases takes_written hf hs a fun l hl => h l (hl ▸ List.mem_cons_self) with
      ⟨hw, hc, ht⟩ | ⟨c, hc, htakes⟩
    · rw [hw, hc, ht]
      exact ih hrest hs hnode
    · have hanswers : ∀ m, f.answers (f.after s (a.written id)) m = true ↔
          (a.tells id).getD node = some m := fun m => by
        have hbefore : f.answers s m = decide (node = some m) :=
          Bool.eq_iff_iff.2 ((hnode m).trans decide_eq_true_iff.symm)
        rw [htakes.answers, hbefore]
        exact answers_command hc node m
      obtain ⟨hreads, hlast⟩ := ih hrest htakes.awaits hanswers
      rw [hc, htakes.reads, hreads]
      exact ⟨rfl, hlast⟩

/-! ### Who tells the firmware of a node -/

theorem Remote.tells {a : Action} (h : a.Remote) : a.tells id = none := by
  cases a with
  | setNode port node => exact h.elim
  | _ => rfl

end Action

theorem Encodes.tells {d : Ddp} {a : Action} (h : Encodes d a) {id : PortId} :
    a.tells id = none := by
  cases a with
  | setNode port node => exact h.elim
  | _ => rfl

namespace Port

variable {p : Port} {id : PortId}

/-- **A tick** tells the firmware of a node just when the port comes to hold it. -/
theorem told_tick (hk : p.kind = .tashtalk) (hid : p.id = id) (now : Instant) :
    (p.tick now).1.node = Action.told id p.node (p.tick now).2 := by
  unfold tick claimed
  split_ifs
  · rfl
  · simp [Action.told, Action.tells, hid]
  · rw [hk]
    rfl

theorem inboundEther_node (host : Host) (packet : Packet) (now : Instant) :
    (p.inboundEther host packet now).1.node = p.node := by
  unfold inboundEther
  split
  · split_ifs
    · rfl
    · dsimp only
      split
      · unfold inboundAarp
        dsimp only
        split
        · split_ifs <;> rfl
        · rfl
        · rfl
      · rfl
      · rfl
  · rfl

theorem inboundLlap_node (host : Host) (l : Llap) (now : Instant) :
    (p.inboundLlap host l now).1.node = p.node := by
  unfold inboundLlap
  dsimp only
  split_ifs <;> rfl

/-- Another port's tick tells it nothing. -/
theorem tells_tick (hid : p.id ≠ id) (now : Instant) : ∀ a ∈ (p.tick now).2, a.tells id = none := by
  intro a ha
  unfold tick claimed at ha
  dsimp only at ha
  split_ifs at ha
  · cases ha
  · rcases List.mem_cons.1 ha with rfl | ha
    · rfl
    · obtain rfl := List.mem_singleton.1 ha
      exact if_neg hid
  · obtain rfl | ha := List.mem_cons.1 ha
    · rfl
    · cases ha
  · split at ha <;>
    · obtain rfl := List.mem_singleton.1 ha
      rfl

theorem tells_inboundEther (host : Host) (packet : Packet) (now : Instant) :
    ∀ a ∈ (p.inboundEther host packet now).2.2, a.tells id = none := by
  intro a ha
  unfold inboundEther at ha
  split at ha
  · split_ifs at ha
    · cases ha
    · dsimp only at ha
      split at ha
      · unfold inboundAarp at ha
        dsimp only at ha
        split at ha
        · split_ifs at ha
          · cases ha
          · obtain rfl := List.mem_singleton.1 ha
            rfl
        · obtain rfl := List.mem_singleton.1 ha
          rfl
        · cases ha
      · cases ha
      · cases ha
  · cases ha

theorem tells_inboundLlap (host : Host) (l : Llap) (now : Instant) :
    ∀ a ∈ (p.inboundLlap host l now).2.2, a.tells id = none := by
  intro a ha
  unfold inboundLlap at ha
  dsimp only at ha
  split_ifs at ha
  all_goals first
    | (obtain rfl := List.mem_singleton.1 ha
       rfl)
    | cases ha

end Port

namespace Router

variable {host : Host} {r : Router} {id : PortId}

/-- What comes of a datagram tells no firmware anything. -/
theorem tells_arrived (origin : Origin) (d : Ddp) (body : DdpBody) (now : Instant) :
    ∀ a ∈ (r.arrived host origin d body now).2, a.tells id = none := by
  intro a ha
  rcases (Arrival.mem_arrived (x := ⟨r, origin, d, body⟩)).1 ha with ⟨q, -, ha⟩ | ⟨-, ha⟩
  · unfold served at ha
    dsimp only at ha
    rcases List.mem_append.1 ha with ha | ha
    · exact (changed_remote _ _ a ha).tells
    · obtain ⟨e, -, ha⟩ := List.mem_flatMap.1 ha
      exact (emit_encodes ha).tells
  · obtain ⟨route, -, -, he⟩ := forward_encodes ha
    exact he.tells

theorem tells_inbound (pid : PortId) (i : Inbound) (body : Ddp → Option DdpBody) (now : Instant) :
    ∀ a ∈ (r.inbound host pid i body now).2, a.tells id = none := by
  unfold inbound
  cases i with
  | ddp d =>
    dsimp only
    cases body d with
    | none => simp
    | some b => exact tells_arrived _ d b now
  | _ => simp

/-- A tick of the ports, each with an ID of its own. -/
theorem told_tickPorts {ports : List Port} (hids : (ports.map Port.id).Nodup) {p : Port}
    (hp : p ∈ ports) (hk : p.kind = .tashtalk) (now : Instant) :
    ((tickPorts now ports).1.find? fun q => q.id = p.id) = some (p.tick now).1 ∧
      (p.tick now).1.node = Action.told p.id p.node (tickPorts now ports).2 := by
  induction ports with
  | nil => cases hp
  | cons q ports ih =>
    rw [List.map_cons, List.nodup_cons] at hids
    have hkeeps : ∀ q : Port, (q.tick now).1.id = q.id := fun q =>
      congrArg (fun f : Net × Kind => f.1.port) (q.tick_fixed now)
    unfold tickPorts
    rw [Action.told_append]
    rcases List.mem_cons.1 hp with rfl | hp
    · refine ⟨List.find?_cons_of_pos (by simpa using hkeeps p), ?_⟩
      rw [← Port.told_tick hk rfl, Action.told_silent]
      -- The other ports have other IDs.
      clear ih hp
      induction ports with
      | nil => exact fun a ha => by cases ha
      | cons q ports ih =>
        rw [List.map_cons, List.mem_cons, not_or, List.nodup_cons] at hids
        exact List.forall_mem_append.2
          ⟨Port.tells_tick (fun h => hids.1.1 h.symm) now, ih ⟨hids.1.2, hids.2.2⟩⟩
    · have hne : q.id ≠ p.id := fun h => hids.1 (h ▸ List.mem_map_of_mem hp)
      obtain ⟨hfind, htold⟩ := ih hids.2 hp
      refine ⟨?_, ?_⟩
      · rw [List.find?_cons_of_neg (by simpa [hkeeps] using hne)]
        exact hfind
      · rw [Action.told_silent (Port.tells_tick hne now)]
        exact htold

/-- The port is TashTalk, and no other one has its ID. -/
structure OnLine (r : Router) (id : PortId) (p : Port) : Prop where
  port : r.port id = some p
  kind : p.kind = .tashtalk
  ids : (r.ports.map Port.id).Nodup

theorem ids_of_fixed {r' : Router} (h : r'.fixed = r.fixed) :
    r'.ports.map Port.id = r.ports.map Port.id := by
  simpa [fixed, Function.comp_def, Port.fixed, Port.net] using
    congrArg (List.map fun f : Net × Kind => f.1.port) h

/-- **One event** tells the firmware of a node just when the port comes to hold it. -/
theorem OnLine.event {p : Port} (h : r.OnLine id p) (e : Event × Instant) :
    ∃ p', (r.event host e).1.OnLine id p' ∧
      p'.node = Action.told id p.node (r.event host e).2 := by
  have hids : ((r.event host e).1.ports.map Port.id).Nodup :=
    (ids_of_fixed (event_fixed r e)).symm ▸ h.ids
  -- Where the ports keep their nodes and nothing is told, the port is as it was.
  have hquiet : (∀ a ∈ (r.event host e).2, a.tells id = none) →
      (∃ q, (r.event host e).1.port id = some q ∧ q.kind = p.kind ∧ q.node = p.node) →
      ∃ p', (r.event host e).1.OnLine id p' ∧
        p'.node = Action.told id p.node (r.event host e).2 := by
    rintro hacts ⟨q, hq, hkind, hnode⟩
    exact ⟨q, ⟨hq, hkind.trans h.kind, hids⟩, hnode.trans (Action.told_silent hacts _).symm⟩
  -- So it is when the ports stay as they are, or one of them took a frame.
  have hports : ∀ ports, (r.event host e).1.ports = ports → ports = r.ports →
      ∃ q, (r.event host e).1.port id = some q ∧ q.kind = p.kind ∧ q.node = p.node := by
    rintro ports he rfl
    exact ⟨p, by unfold Router.port; rw [he]; exact h.port, rfl, rfl⟩
  have htook : ∀ q', (∃ q, r.port q'.id = some q ∧ q'.fixed = q.fixed ∧ q'.node = q.node) →
      (r.event host e).1.ports = (r.setPort q').ports →
      ∃ q, (r.event host e).1.port id = some q ∧ q.kind = p.kind ∧ q.node = p.node := by
    rintro q' ⟨q, hq, hfixed, hnode⟩ he
    have hport : (r.event host e).1.port id = (r.setPort q').port id := by
      unfold Router.port
      rw [he]
    rw [hport, port_setPort, h.port, Option.map_some]
    by_cases hput : p.id = q'.id
    · rw [← hput, port_id h.port, h.port] at hq
      obtain rfl := Option.some.inj hq
      rw [if_pos hput]
      exact ⟨q', rfl, congrArg Prod.snd hfixed, hnode⟩
    · rw [if_neg hput]
      exact ⟨p, rfl, rfl, rfl⟩
  obtain ⟨e, now⟩ := e
  cases e with
  | input i =>
    cases i with
    | ether pid packet =>
      cases hq : r.port pid with
      | none =>
        have hev : r.event host (.input (.ether pid packet), now) = (r, []) := by
          simp [Router.event, step, hq]
        exact hquiet (by rw [hev]; simp) (hports _ rfl (by rw [hev]))
      | some q =>
        have hfixed := q.inboundEther_fixed host packet now
        refine hquiet ?_ (htook (q.inboundEther host packet now).1 ⟨q, ?_, hfixed, ?_⟩ ?_)
        · simp only [Router.event, step, hq]
          exact List.forall_mem_append.2
            ⟨Port.tells_inboundEther host packet now, tells_inbound _ _ _ now⟩
        · rw [show (q.inboundEther host packet now).1.id = q.id from
            congrArg (fun f : Net × Kind => f.1.port) hfixed, port_id hq, hq]
        · exact Port.inboundEther_node host packet now
        · simp only [Router.event, step, hq, inbound_ports]
    | llap pid l =>
      cases hq : r.port pid with
      | none =>
        have hev : r.event host (.input (.llap pid l), now) = (r, []) := by
          simp [Router.event, step, hq]
        exact hquiet (by rw [hev]; simp) (hports _ rfl (by rw [hev]))
      | some q =>
        have hfixed := q.inboundLlap_fixed host l now
        refine hquiet ?_ (htook (q.inboundLlap host l now).1 ⟨q, ?_, hfixed, ?_⟩ ?_)
        · simp only [Router.event, step, hq]
          exact List.forall_mem_append.2
            ⟨Port.tells_inboundLlap host l now, tells_inbound _ _ _ now⟩
        · rw [show (q.inboundLlap host l now).1.id = q.id from
            congrArg (fun f : Net × Kind => f.1.port) hfixed, port_id hq, hq]
        · exact Port.inboundLlap_node host l now
        · simp only [Router.event, step, hq, inbound_ports]
    | aurp «from» bytes =>
      refine hquiet ?_ (hports _ rfl ?_)
      · simp only [Router.event, step]
        refine List.forall_mem_append.2 ⟨List.forall_mem_append.2 ⟨fun a ha => ?_, fun a ha => ?_⟩,
          ?_⟩
        · exact (r.peers.packet_remote «from» bytes r.tables now a ha).tells
        · exact (changed_remote _ _ a ha).tells
        · cases (r.peers.packet «from» bytes r.tables now).ddp.bind Ddp.parse with
          | none => simp
          | some d => exact tells_arrived _ d _ now
      · simp only [Router.event, step]
        cases (r.peers.packet «from» bytes r.tables now).ddp.bind Ddp.parse with
        | none => simp
        | some d => simp
    | tick =>
      obtain ⟨hp, hpid⟩ := mem_of_port h.port
      obtain ⟨hfind, htold⟩ := told_tickPorts h.ids hp h.kind now
      rw [hpid] at hfind htold
      refine ⟨(p.tick now).1, ⟨?_, ?_, hids⟩, ?_⟩
      · simp only [Router.event, step, Router.port, changed_ports]
        exact hfind
      · exact (congrArg Prod.snd (p.tick_fixed now)).trans h.kind
      · simp only [Router.event, step]
        rw [Action.told_append, Action.told_append, Action.told_append, Action.told_append, ← htold]
        repeat rw [Action.told_silent]
        · exact fun a ha => (changed_remote _ _ a ha).tells
        · intro a ha
          obtain ⟨em, -, ha⟩ := List.mem_flatMap.1 ha
          exact (emit_encodes ha).tells
        · exact fun a ha => (Peers.tick_remote _ _ _ a ha).tells
        · exact fun a ha => (changed_remote _ _ a ha).tells
    | ping =>
      exact hquiet (fun a ha => (r.peers.ping_remote now a ha).tells) (hports _ rfl rfl)
    | pingReport =>
      refine hquiet (fun a ha => ?_) (hports _ rfl rfl)
      obtain rfl := List.mem_singleton.1 ha
      rfl
  | resolved name addr => exact hquiet (fun a ha => by cases ha) (hports _ rfl rfl)
  | shutdown =>
    exact hquiet (fun a ha => (r.peers.shutdown_remote now a ha).tells) (hports _ rfl rfl)

/-- What a router sends in a run. -/
def sent (host : Host) (r : Router) (es : List (Event × Instant)) : List Action :=
  (Machine.outputs (event host) r es).flatten

/-- **A run** tells the firmware last of the node the port holds. -/
theorem OnLine.run {p : Port} (h : r.OnLine id p) (es : List (Event × Instant)) :
    ∃ p', (r.after host es).OnLine id p' ∧ p'.node = Action.told id p.node (sent host r es) := by
  induction es generalizing r p with
  | nil => exact ⟨p, h, rfl⟩
  | cons e es ih =>
    obtain ⟨p1, h1, hnode⟩ := h.event e
    obtain ⟨p2, h2, hlast⟩ := ih h1
    refine ⟨p2, h2, ?_⟩
    show p2.node = Action.told id p.node ((r.event host e).2 ++ sent host (r.event host e).1 es)
    rw [Action.told_append, ← hnode]
    exact hlast

/-- The ports of a built router hold no node yet. -/
theorem Built.unclaimed (h : Built host r) : ∀ p ∈ r.ports, p.node = none := by
  obtain ⟨cfg, kinds, now, -, -, rfl⟩ := h
  have hall : ∀ (specs : List ((String × Kind) × (UInt16 × UInt16) × List Str)) (n : ℕ)
      (t : Tables), ∀ p ∈ (addPorts host now n specs t).1, p.node = none := by
    intro specs
    induction specs with
    | nil => simp [addPorts]
    | cons s specs ih =>
      exact fun n t => List.forall_mem_cons.2 ⟨rfl, ih (n + 1) _⟩
  exact hall _ 0 Tables.new

/-- The port IDs of a built router are its ports' places, so they differ as far as an ID reaches. -/
theorem Built.ids (h : Built host r) (hports : r.ports.length ≤ 256) :
    (r.ports.map Port.id).Nodup := by
  obtain ⟨cfg, kinds, now, -, -, rfl⟩ := h
  have hplaces : ∀ (specs : List ((String × Kind) × (UInt16 × UInt16) × List Str)) (n : ℕ)
      (t : Tables), (addPorts host now n specs t).1.map Port.id =
        (List.range' n specs.length).map UInt8.ofNat := by
    intro specs
    induction specs with
    | nil => exact fun n t => rfl
    | cons s specs ih => exact fun n t => congrArg (UInt8.ofNat n :: ·) (ih (n + 1) _)
  have hids := hplaces (kinds.zip cfg.portSpecs) 0 Tables.new
  have hlen := congrArg List.length hids
  rw [List.length_map, List.length_map, List.length_range'] at hlen
  rw [show (new host cfg kinds now).ports.map Port.id = _ from hids]
  refine List.Nodup.map_on (fun a ha b hb heq => ?_) List.nodup_range'
  replace hports : (addPorts host now 0 (kinds.zip cfg.portSpecs) Tables.new).1.length ≤ 256 :=
    hports
  have hsame := congrArg UInt8.toNat heq
  rw [UInt8.toNat_ofNat', UInt8.toNat_ofNat'] at hsame
  rw [List.mem_range'_1] at ha hb
  omega

/-- What is written to a TashTalk port's line, from when the port opens. -/
def line (host : Host) (r : Router) (id : PortId) (es : List (Event × Instant)) : Bytes :=
  initSequence ++ (sent host r es).flatMap (Action.written id)

/-- **What a TashTalk's line carries.** Let a firmware keep to the protocol, and be in the middle of
anything. In every run of a router of at most 256 ports whose frames for the port are legal, it
reads behind the no-ops an empty bitmap, no features, and then just the commands it is sent, in
order. It answers for a node if and only if the port holds it. -/
theorem line_faithful {f : Firmware} (hf : f.Documented) (h : Built host r)
    (hports : r.ports.length ≤ 256) {p : Port} (hp : r.port id = some p)
    (hkind : p.kind = .tashtalk) (es : List (Event × Instant))
    (hlegal : ∀ l, .toLlap id l ∈ sent host r es → Llap.parse l.toBytes = some l) (s : f.State) :
    f.reads s (line host r id es) = f.reads s (List.replicate 1024 0) ++
        [.nodes (nodeMap none), .features 0] ++ (sent host r es).filterMap (Action.command id) ∧
      ∃ p', (r.after host es).port id = some p' ∧
        ∀ m, f.answers (f.after s (line host r id es)) m = true ↔ p'.node = some m := by
  have hnode := hf.nodeCommand (hf.resync s) none
  have hfeatures := hf.features _ hnode.awaits 0
  -- Behind the first two commands it answers for nobody.
  have hnobody : ∀ m, f.answers (f.after (f.after (f.after s (List.replicate 1024 0))
      (nodeCommand none)) [0x03, 0x00]) m = true ↔ (none : Option UInt8) = some m := fun m => by
    rw [hfeatures.answers]
    show f.answers (f.after _ (nodeCommand none)) m = true ↔ _
    rw [hnode.answers]
    exact inMap_nodeMap none m
  obtain ⟨hreads, hanswers⟩ := Action.reads_written hf _ hlegal hfeatures.awaits hnobody
  obtain ⟨p', h', hlast⟩ := OnLine.run ⟨hp, hkind, h.ids hports⟩ es
  rw [h.unclaimed p (mem_of_port hp).1] at hlast
  unfold line initSequence
  simp only [reads_append, after_append, hnode.reads, hfeatures.reads, hreads, List.append_assoc,
    List.singleton_append]
  exact ⟨rfl, p', h'.port, hlast ▸ hanswers⟩

/-- A router with one TashTalk port, on network 10 in zone `A`. -/
def serial : Router :=
  Router.new .lowest
    { name := ['R'], publicIp := none, openPeering := true, peers := [], ethertalk := []
      ltoudp := [], tashtalk := [{ device := "tty", net := 10, zones := [['A']] }] }
    [("tty", .tashtalk)] 0

/-- The ticks in which its port claims node 128. -/
def claiming : List (Event × Instant) :=
  (List.range 9).map fun k => (.input .tick, k * ENQ_INTERVAL)

theorem line_faithful_claiming :
    plain.reads ([0x01, 5], []) (line .lowest serial 0 claiming) =
        plain.reads ([0x01, 5], []) (List.replicate 1024 0) ++
          [.nodes (nodeMap none), .features 0] ++
          (sent .lowest serial claiming).filterMap (Action.command 0) ∧
      ∃ p', (serial.after .lowest claiming).port 0 = some p' ∧
        ∀ m, plain.answers (plain.after ([0x01, 5], []) (line .lowest serial 0 claiming)) m = true ↔
          p'.node = some m := by
  have hlegal : (sent .lowest serial claiming).all fun a =>
      match a with
      | .toLlap _ l => Llap.parse l.toBytes = some l
      | _ => true := by decide +kernel
  exact line_faithful plain_documented
    ⟨_, _, 0, rfl, ⟨[], [], [("tty", .tashtalk)], by simp⟩, rfl⟩ (by decide)
    (p := Port.new .lowest 0 "tty" .tashtalk (10, 10) [['A']] 0) rfl rfl claiming
    (fun l hl => by simpa using List.all_eq_true.1 hlegal _ hl) ([0x01, 5], [])

end Router

end AppleTalk
