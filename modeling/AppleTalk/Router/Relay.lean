import AppleTalk.Router.Core

/-!
# Passing a datagram on

What an action carries, the hop a router charges for crossing it, and everything `forward` can
do with a datagram: one emission along the best route to its network, or nothing.
-/

namespace AppleTalk

/-! ### What an action carries -/

/-- The action puts this datagram, as it stands, on a cable or into a tunnel. -/
def Encodes (d : Ddp) : Action → Prop
  | .toEther _ f => f.proto = DDP ∧ f.payload = d.toBytes
  | .toLlap _ l => l.typ = LLAP_LONG_DDP ∧ l.data = d.toBytes ∨
      l.typ = LLAP_SHORT_DDP ∧ l.data = d.toShortBytes
  | .toPeer _ bytes => ∃ dh, bytes = (Aurp.data dh d.toBytes).toBytes
  | _ => False

/-- The action carries the datagram, at whatever hop count. -/
def Carries (d : Ddp) (a : Action) : Prop := ∃ hops, Encodes { d with hops := hops } a

/-- The datagram of a service's emission. -/
def Emit.ddp : Emit → Ddp
  | .on _ _ d => d
  | .route d => d

@[simp] theorem Emit.ddp_on (id : PortId) (dest : Dest) (d : Ddp) :
    (Emit.on id dest d).ddp = d := rfl

@[simp] theorem Emit.ddp_route (d : Ddp) : (Emit.route d).ddp = d := rfl

theorem Aurp.data_injective {dh dh' : DomainHeader} {b b' : Bytes}
    (h : (Aurp.data dh b).toBytes = (Aurp.data dh' b').toBytes) : b = b' := by
  simp only [Aurp.toBytes, List.append_assoc] at h
  have h1 := congrArg parseDi h
  simp only [parseDi_encodeDi, Option.some.injEq, Prod.mk.injEq] at h1
  have h2 := congrArg parseDi h1.2
  simp only [parseDi_encodeDi, Option.some.injEq, Prod.mk.injEq] at h2
  simpa using h2.2

/-- An extended header leaves what is inside a datagram to be read. -/
theorem Ddp.toBytes_inside {d d' : Ddp} (h : d.toBytes = d'.toBytes) :
    d.typ = d'.typ ∧ d.data = d'.data := by
  simp only [Ddp.toBytes, Octets.ofWord, List.cons_append, List.nil_append, List.cons.injEq] at h
  grind

theorem Ddp.toShortBytes_inside {d d' : Ddp} (h : d.toShortBytes = d'.toShortBytes) :
    d.typ = d'.typ ∧ d.data = d'.data := by
  simp only [Ddp.toShortBytes, List.cons.injEq] at h
  exact h.2.2.2.2

/-- An action carries datagrams with one type and one body. -/
theorem Encodes.inside {d d' : Ddp} {a : Action} (h : Encodes d a) (h' : Encodes d' a) :
    d.typ = d'.typ ∧ d.data = d'.data := by
  cases a with
  | toEther id f => exact Ddp.toBytes_inside (h.2.symm.trans h'.2)
  | toLlap id l =>
    rcases h with ⟨ht, h⟩ | ⟨ht, h⟩ <;> rcases h' with ⟨ht', h'⟩ | ⟨ht', h'⟩
    · exact Ddp.toBytes_inside (h.symm.trans h')
    · exact absurd (ht.symm.trans ht') (by decide)
    · exact absurd (ht.symm.trans ht') (by decide)
    · exact Ddp.toShortBytes_inside (h.symm.trans h')
  | toPeer ip bytes =>
    obtain ⟨dh, rfl⟩ := h
    obtain ⟨dh', h'⟩ := h'
    exact Ddp.toBytes_inside (Aurp.data_injective h')
  | _ => exact h.elim

/-- A port puts on its cable the datagram it is given. -/
theorem Port.emit_encodes {host : Host} {p : Port} {dest : Dest} {d : Ddp} {a : Action}
    (h : p.emit host dest d = some a) : Encodes d a := by
  obtain ⟨node, -, rfl⟩ := Option.map_eq_some_iff.1 h
  split
  · exact ⟨rfl, rfl⟩
  · dsimp only
    split_ifs
    · exact Or.inr ⟨rfl, rfl⟩
    · exact Or.inl ⟨rfl, rfl⟩

theorem Port.exists_emit (host : Host) {p : Port} (h : p.node.isSome) (dest : Dest) (d : Ddp) :
    ∃ a, p.emit host dest d = some a :=
  Option.isSome_iff_exists.1 (by simpa [Port.emit] using h)

theorem Port.claimed_of_emit {host : Host} {p : Port} {dest : Dest} {d : Ddp} {a : Action}
    (h : p.emit host dest d = some a) : p.node.isSome := by
  obtain ⟨node, hn, -⟩ := Option.map_eq_some_iff.1 h
  simp [hn]

namespace Router

variable {host : Host}

/-! ### Forwarding -/

/-- The datagram as it leaves this router: crossing it costs a hop or is free. -/
def crossed (origin : Origin) (target : Target) (d : Ddp) : Ddp :=
  if free origin target then d else { d with hops := d.hops + 1 }

theorem crossed_hops (origin : Origin) (target : Target) {d : Ddp} (h : d.hops < MAX_HOPS) :
    (crossed origin target d).hops.toNat =
      d.hops.toNat + if free origin target then 0 else 1 := by
  have h1 : d.hops.toNat < 15 := UInt8.lt_iff_toNat_lt.1 h
  unfold crossed
  split_ifs
  · rfl
  · rw [UInt8.toNat_add]
    simp
    omega

theorem crossed_eq (origin : Origin) (target : Target) (d : Ddp) :
    ∃ hops, crossed origin target d = { d with hops := hops } := by
  unfold crossed
  split_ifs
  · exact ⟨d.hops, rfl⟩
  · exact ⟨_, rfl⟩

/-- Where a route's port sends the datagram: home, or to the next router. -/
def nextDest (route : Route) (d : Ddp) : Dest :=
  if route.distance = 0 then if d.dst.node = 255 then .broadcast else .node d.dst.node
  else .node route.next.node

/-- **Everything `forward` does**: under fifteen hops, one emission along the best route, unless
that leads back where the datagram came from. -/
theorem mem_forward {r : Router} {origin : Origin} {d : Ddp} {a : Action} :
    a ∈ r.forward host origin d ↔
      d.hops < MAX_HOPS ∧ ∃ route, r.tables.best d.dst.net = some route ∧
        origin.is route.target = false ∧
        match route.target with
        | .peer ip => a = r.peers.forward ip (crossed origin route.target d).toBytes
        | .port id => ∃ p, r.port id = some p ∧
          p.emit host (nextDest route d) (crossed origin route.target d) = some a := by
  unfold forward
  by_cases hh : MAX_HOPS ≤ d.hops
  · simp [hh]
  rw [if_neg hh]
  simp only [UInt8.not_le] at hh
  cases hb : r.tables.best d.dst.net with
  | none => simp
  | some route =>
    have hdst : (if free origin route.target = true then d
        else { d with hops := d.hops + 1 }).dst = d.dst := by
      split_ifs <;> rfl
    dsimp only
    cases hi : origin.is route.target with
    | true => simp [hi]
    | false =>
      simp only [Bool.false_eq_true, if_false, hdst]
      simp only [hh, true_and, Option.some.injEq, exists_eq_left', hi]
      cases ht : route.target with
      | peer ip => simp [crossed]
      | port id =>
        dsimp only
        cases hp : r.port id with
        | none => simp
        | some p =>
          simp only [Option.mem_toList, Option.some.injEq, exists_eq_left', crossed, nextDest]

/-- What `forward` emits is the datagram itself, with the hop applied. -/
theorem forward_encodes {r : Router} {origin : Origin} {d : Ddp} {a : Action}
    (h : a ∈ r.forward host origin d) :
    ∃ route, r.tables.best d.dst.net = some route ∧ origin.is route.target = false ∧
      Encodes (crossed origin route.target d) a := by
  obtain ⟨-, route, hb, hi, h⟩ := mem_forward.1 h
  refine ⟨route, hb, hi, ?_⟩
  split at h
  · rw [h]
    exact ⟨_, rfl⟩
  · obtain ⟨p, -, he⟩ := h
    exact Port.emit_encodes he

/-- A service's datagram goes out as it stands. -/
theorem emit_encodes {r : Router} {e : Emit} {a : Action} (h : a ∈ r.emit host e) :
    Encodes e.ddp a := by
  unfold emit at h
  cases e with
  | on id dest d =>
    dsimp only at h
    split at h
    · exact Port.emit_encodes (Option.mem_toList.1 h)
    · cases h
  | route d =>
    obtain ⟨route, -, -, he⟩ := forward_encodes h
    exact he

end Router

end AppleTalk
