import AppleTalk.Router.Basic
import Mathlib.Data.List.MinMax

/-!
# The routing and zone tables

What the router knows about every network on the internet, and which zones sit on each
(`router/table.rs`). Routes are kept in the order they were learned. The zone table and the
record of the incumbent best route are keyed by the first network of a range.
-/

namespace AppleTalk

/-- The validity timer: an entry unconfirmed for this long ages a step. -/
def VALIDITY : ℕ := fromSecs 20

/-- How stale an entry is. -/
inductive State
  | good
  | suspect
  | bad
  | worst
  deriving DecidableEq, Repr

namespace State

/-- Good and suspect entries still carry traffic. -/
def usable : State → Bool
  | .good | .suspect => true
  | .bad | .worst => false

/-- One tick of the validity timer; `none` deletes the entry. -/
def aged : State → Option State
  | .good => some .suspect
  | .suspect => some .bad
  | .bad => some .worst
  | .worst => none

end State

/-- One way to reach one network range. -/
structure Route where
  range : UInt16 × UInt16
  extended : Bool
  distance : UInt8
  target : Target
  next : Addr
  state : State
  seen : Instant
  deriving DecidableEq, Repr

namespace Route

def contains (r : Route) (net : UInt16) : Bool := r.range.1 ≤ net ∧ net ≤ r.range.2

/-- Identity within a range start: what the tables remember so a tie keeps the incumbent. -/
def key (r : Route) : Target × Addr := (r.target, r.next)

def tuple (r : Route) : NetworkTuple :=
  { range := r.range, extended := r.extended, distance := r.distance }

/-- A network of our own: never replaced, never aged. -/
def direct (r : Route) : Bool := r.distance = 0 ∧ r.target.isPort

end Route

/-- A change to the best route for a range. -/
structure RouteChange where
  range : UInt16 × UInt16
  old : Option Route
  new : Option Route
  deriving DecidableEq, Repr

/-- The zones on one network range. `expected` is the total of an extended reply, when known. -/
structure ZoneList where
  names : List Str
  expected : Option ℕ
  deriving DecidableEq, Repr

namespace ZoneList

def empty : ZoneList := { names := [], expected := none }

/-- A list nobody has filled in yet is never complete; one with a total is complete once it
holds that many. -/
def complete (z : ZoneList) : Bool :=
  !z.names.isEmpty && (z.expected.all fun e => decide (e ≤ z.names.length))

end ZoneList

def overlaps (a b : UInt16 × UInt16) : Bool := a.1 ≤ b.2 ∧ b.1 ≤ a.2

/-- The routing and zone tables. -/
structure Tables where
  routes : List Route
  /-- Range start to the range end and the zones. -/
  zoneTable : UInt16 → Option (UInt16 × ZoneList)
  /-- Range start to the route that is currently best. -/
  bestKey : UInt16 → Option (Target × Addr)

namespace Tables

def new : Tables := { routes := [], zoneTable := fun _ => none, bestKey := fun _ => none }

/-- The next router of a directly attached network, and of anything learned over a tunnel. -/
def NO_NEXT : Addr := { net := 0, node := 0 }

/-- A directly attached network: distance 0, always good, zones complete from the config. -/
def addPort (t : Tables) (port : PortId) (range : UInt16 × UInt16) (extended : Bool)
    (zones : List Str) (now : Instant) : Tables :=
  { routes := t.routes ++
      [{ range := range, extended := extended, distance := 0, target := .port port
         next := NO_NEXT, state := .good, seen := now }]
    zoneTable := Function.update t.zoneTable range.1
      (some (range.2, { names := zones, expected := none }))
    bestKey := Function.update t.bestKey range.1 (some (.port port, NO_NEXT)) }

/-! ### The best route -/

def incumbent (t : Tables) (r : Route) : Bool := t.bestKey r.range.1 = some r.key

/-- The route to keep of two: the shorter one, on a tie the incumbent, else the first found. -/
def take (t : Tables) (best : Option Route) (r : Route) : Option Route :=
  match best with
  | none => some r
  | some b =>
    if r.distance < b.distance ∨ (r.distance = b.distance ∧ t.incumbent r ∧ !t.incumbent b) then
      some r
    else some b

/-- The shortest usable route matching `f`. -/
def pick (t : Tables) (f : Route → Bool) : Option Route :=
  (t.routes.filter fun r => r.state.usable && f r).foldl t.take none

/-- The best route to a network number. -/
def best (t : Tables) (net : UInt16) : Option Route := t.pick fun r => r.contains net

/-- The best route for the ranges that start at a network number. -/
def bestForStart (t : Tables) (start : UInt16) : Option Route := t.pick fun r => r.range.1 = start

def zones (t : Tables) (start : UInt16) : Option ZoneList := (t.zoneTable start).map Prod.snd

/-- The network has a zone list and it is complete. -/
def zonesComplete (t : Tables) (start : UInt16) : Bool := (t.zones start).any ZoneList.complete

/-- What an AURP peer may learn: a best route via one of our ports below distance 15, with
complete zones. -/
def exportable (t : Tables) (start : UInt16) : Bool :=
  ((t.bestForStart start).any fun r => r.target.isPort && decide (r.distance < 15)) &&
    t.zonesComplete start

/-! ### Listings -/

/-- Distinct range starts of the routes matching `f`, in the order they were learned. -/
def startsWhere (t : Tables) (f : Route → Bool) : List UInt16 :=
  ((t.routes.filter f).map fun r => r.range.1).eraseDups

def starts (t : Tables) : List UInt16 := t.startsWhere fun _ => true

/-- Tuples to beacon on a port: every best route not reached through it. A range whose entries
have all gone bad is announced at distance 31. -/
def tuplesFor (t : Tables) (port : PortId) : List NetworkTuple :=
  t.starts.filterMap fun start =>
    match (t.bestForStart start).or (t.routes.find? fun r => r.range.1 = start) with
    | none => none
    | some r =>
      if r.target = .port port then none
      else if !r.state.usable then some { r.tuple with distance := 31 }
      else if 15 ≤ r.distance then none
      else some r.tuple

/-- What an AURP peer may learn: our local internet only. -/
def «export» (t : Tables) : List NetworkTuple :=
  (t.starts.filter t.exportable).filterMap fun s => (t.bestForStart s).map Route.tuple

/-- Range starts, with the target to reach each, whose complete zone list names `zone`. -/
def netsInZone (t : Tables) (zone : Str) : List (UInt16 × Target) :=
  (t.starts.filter fun s =>
    (t.zones s).any fun z => z.complete && z.names.any fun n => eqIgnoreAsciiCase n zone).filterMap
    fun s => (t.bestForStart s).map fun r => (s, r.target)

/-- Networks still missing zones, with the best route to ask. -/
def zoneless (t : Tables) : List Route :=
  ((t.starts.filter fun s => !t.zonesComplete s).filterMap t.bestForStart).filter fun r => !r.direct

/-- Every zone name across complete lists, deduplicated, in first-seen order. -/
def allZones (t : Tables) : List Str :=
  t.starts.foldl (fun out start =>
    match t.zones start with
    | some z =>
      if z.complete then
        z.names.foldl (fun out n =>
          if out.any fun h => eqIgnoreAsciiCase h n then out else out ++ [n]) out
      else out
    | none => out) []

/-! ### Changes -/

def snapshot (t : Tables) (starts : List UInt16) : List (Option Route) :=
  starts.map t.bestForStart

/-- The best route moved, changed its distance, appeared or went. -/
def changed : Option Route → Option Route → Bool
  | none, none => false
  | some a, some b => a.target ≠ b.target ∨ a.distance ≠ b.distance
  | _, _ => true

/-- Record a range start's best route as the incumbent, and drop a zone list whose last route
has gone. -/
def record (t : Tables) (start : UInt16) : Tables :=
  let t1 :=
    { t with
      bestKey := Function.update t.bestKey start ((t.bestForStart start).map Route.key) }
  if t.routes.any fun r => r.range.1 = start then t1
  else
    { t1 with
      zoneTable := Function.update t1.zoneTable start none
      bestKey := Function.update t1.bestKey start none }

/-- The change at a range start whose best route was `old`, if there is one to report. -/
def changeAt (t : Tables) (start : UInt16) (old : Option Route) : List RouteChange :=
  let new := t.bestForStart start
  if changed old new then
    [{ range := ((new.or old).map Route.range).getD (start, start), old := old, new := new }]
  else []

/-- Record the best route of every touched range start, and report the changes. -/
def settle (t : Tables) : List UInt16 → List (Option Route) → Tables × List RouteChange
  | start :: starts, old :: olds =>
    let rest := settle (t.record start) starts olds
    (rest.1, t.changeAt start old ++ rest.2)
  | _, _ => (t, [])

/-- Replace the routes, where the ranges that start at `starts` are all that can change. -/
def update (t : Tables) (starts : List UInt16) (routes : List Route) :
    Tables × List RouteChange :=
  settle { t with routes := routes } starts (t.snapshot starts)

/-! ### Learning -/

/-- The tuple overlaps an entry without matching it, or is for a network of our own. -/
def refuses (routes : List Route) (range : UInt16 × UInt16) : Bool :=
  routes.any fun r =>
    (r.range ≠ range ∧ overlaps r.range range) ∨ (r.range = range ∧ r.direct)

/-- A tuple at a distance of 31 is notify neighbour. -/
def bad (x : NetworkTuple) : Bool := x.distance = 31

/-- From 15 up the distance to store would be one DDP's hop count cannot carry. -/
def unreachable (x : NetworkTuple) : Bool := 15 ≤ x.distance ∧ !bad x

/-- Change the first entry that matches. -/
def modifyFirst {α : Type} (p : α → Bool) (f : α → α) : List α → List α
  | [] => []
  | a :: l => if p a then f a :: l else a :: modifyFirst p f l

/-- The entry a tuple reached via `target` with next router `next` is about. -/
def entryOf (x : NetworkTuple) (target : Target) (next : Addr) (r : Route) : Bool :=
  r.range = x.range ∧ r.target = target ∧ r.next = next

/-- Replace-Entry. Notify neighbour marks the entry bad and leaves its distance alone. -/
def replaceEntry (x : NetworkTuple) (now : Instant) (r : Route) : Route :=
  { r with
    extended := x.extended
    distance := if bad x then r.distance else x.distance + 1
    state := if bad x then .bad else .good
    seen := now }

/-- The routes after one tuple that was not refused. An unreachable tuple deletes its entry, and
neither it nor notify neighbour creates one. -/
def learnRoutes (routes : List Route) (x : NetworkTuple) (target : Target) (next : Addr)
    (now : Instant) : List Route :=
  if routes.any (entryOf x target next) then
    if unreachable x then routes.eraseP (entryOf x target next)
    else modifyFirst (entryOf x target next) (replaceEntry x now) routes
  else if unreachable x || bad x then routes
  else routes ++
    [{ range := x.range, extended := x.extended, distance := x.distance + 1, target := target
       next := next, state := if bad x then .bad else .good, seen := now }]

/-- The book's "RTMP Data packet received" algorithm for one tuple, reached via `target` with
next router `next`. -/
def learn (t : Tables) (x : NetworkTuple) (target : Target) (next : Addr) (now : Instant) :
    Tables × List RouteChange :=
  if refuses t.routes x.range then (t, [])
  else t.update [x.range.1] (learnRoutes t.routes x target next now)

/-! ### Aging and removal -/

/-- One expiry of the validity timer. Directly attached networks and a peer's routes never
age. -/
def ageRoute (now : Instant) (r : Route) : Option Route :=
  if r.direct || r.target.isPeer then some r
  else if since now r.seen < VALIDITY then some r
  else r.state.aged.map fun s => { r with seen := now, state := s }

def age (t : Tables) (now : Instant) : Tables × List RouteChange :=
  t.update t.starts (t.routes.filterMap (ageRoute now))

def removeTarget (t : Tables) (g : Target) : Tables × List RouteChange :=
  t.update (t.startsWhere fun r => r.target = g) (t.routes.filter fun r => r.target ≠ g)

def remove (t : Tables) (g : Target) (start : UInt16) : Tables × List RouteChange :=
  t.update [start] (t.routes.filter fun r => !(r.target = g ∧ r.range.1 = start))

def setDistance (t : Tables) (g : Target) (start : UInt16) (distance : UInt8) (now : Instant) :
    Tables × List RouteChange :=
  t.update [start] (t.routes.map fun r =>
    if r.target = g ∧ r.range.1 = start then { r with distance := distance, seen := now } else r)

/-! ### Zones -/

/-- The names a list gains: those it does not hold yet. -/
def extendNames (held names : List Str) : List Str :=
  names.foldl (fun held n =>
    if held.any fun h => eqIgnoreAsciiCase h n then held else held ++ [n]) held

/-- Extend the zone list for a range. Reports an addition when the network has just become
exportable. -/
def addZones (t : Tables) (start : UInt16) (names : List Str) (expected : Option ℕ) :
    Tables × List RouteChange :=
  match t.routes.find? fun r => r.range.1 = start with
  | none => (t, [])
  | some r0 =>
    let z := (t.zones start).getD .empty
    let t' :=
      { t with
        zoneTable := Function.update t.zoneTable start
          (some (r0.range.2,
            { names := extendNames z.names names, expected := expected.or z.expected })) }
    (t', match t'.bestForStart start with
      | some r =>
        if !t.exportable start && t'.exportable start then
          [{ range := r.range, old := none, new := some r }]
        else []
      | none => [])

/-- Names gathered per network, in the order the networks first appear. -/
def groupByNet (zones : List (UInt16 × Str)) : List (UInt16 × List Str) :=
  zones.foldl (fun by_net z =>
    if by_net.any fun g => g.1 = z.1 then
      modifyFirst (fun g => g.1 = z.1) (fun g => (g.1, g.2 ++ [z.2])) by_net
    else by_net ++ [(z.1, [z.2])]) []

/-- Thread the tables through a list, collecting the changes. -/
def each {α : Type} (f : Tables → α → Tables × List RouteChange) :
    Tables → List α → Tables × List RouteChange
  | t, [] => (t, [])
  | t, a :: l =>
    let r := f t a
    let rest := each f r.1 l
    (rest.1, r.2 ++ rest.2)

end Tables

end AppleTalk
