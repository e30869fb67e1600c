import AppleTalk.Router.Ports

/-!
# Router configuration

The configuration a router is built from and the checks it has to pass (`config.rs`).
-/

namespace AppleTalk

/-- Highest legal network number. -/
def MAX_NET : UInt16 := 0xfefe

structure EtherPort where
  interface : String
  net : UInt16 × UInt16
  zones : List Str

structure LtoudpPort where
  interface : Option Ipv4Addr
  net : UInt16
  zones : List Str

structure TashtalkPort where
  device : String
  net : UInt16
  zones : List Str

structure Config where
  name : Str
  publicIp : Option Ipv4Addr
  openPeering : Bool
  peers : List Str
  ethertalk : List EtherPort
  ltoudp : List LtoudpPort
  tashtalk : List TashtalkPort

/-- A name AppleTalk can carry: one wire byte a character, at most 32 of them. -/
def roman (name : Str) : Except String Unit :=
  if name.any fun c => decide (0xff < c.toNat) then
    .error "must be Mac OS Roman: no character above U+00FF"
  else if 1 ≤ name.length ∧ name.length ≤ 32 then .ok ()
  else .error "must be 1 to 32 characters"

/-- What to call a port, its network range and its zones. -/
abbrev PortSpec := String × (UInt16 × UInt16) × List Str

namespace Config

variable (host : Host)

/-- Every configured port, in the order they are opened. -/
def ports (cfg : Config) : List PortSpec :=
  cfg.ethertalk.map (fun p => (p.interface, p.net, p.zones)) ++
    cfg.ltoudp.map (fun p =>
      ((p.interface.map Ipv4Addr.display).getD "the default interface", (p.net, p.net), p.zones)) ++
    cfg.tashtalk.map fun p => (p.device, (p.net, p.net), p.zones)

def showRange (r : UInt16 × UInt16) : String := dec r.1.toNat ++ "-" ++ dec r.2.toNat

/-- The first zone name of a port that AppleTalk cannot carry. -/
def checkZones (name : String) : List Str → Except String Unit
  | [] => .ok ()
  | z :: zones =>
    match roman z with
    | .error e => .error ("port " ++ name ++ ": zone name " ++ host.debug z ++ " " ++ e)
    | .ok () => checkZones name zones

/-- The first problem of the ports, each checked against the ones before it. -/
def checkPorts (earlier : List PortSpec) : List PortSpec → Except String Unit
  | [] => .ok ()
  | (name, net, zones) :: ports =>
    if earlier.any fun p => p.1 = name then .error ("two ports use " ++ name)
    else if net.1 = 0 ∨ MAX_NET < net.2 ∨ net.2 < net.1 then
      .error ("port " ++ name ++ ": network " ++ showRange net ++ " is outside 1-" ++
        dec MAX_NET.toNat)
    else
      match earlier.find? fun p => p.2.1.1 ≤ net.2 ∧ net.1 ≤ p.2.1.2 with
      | some p =>
        .error ("networks overlap: " ++ showRange p.2.1 ++ " on " ++ p.1 ++ " and " ++
          showRange net ++ " on " ++ name)
      | none =>
        if zones.isEmpty then .error ("port " ++ name ++ " has no zones")
        else
          match checkZones host name zones with
          | .error e => .error e
          | .ok () => checkPorts (earlier ++ [(name, net, zones)]) ports

/-- Everything that only makes sense once the file and the command line have been combined. -/
def validate (cfg : Config) : Except String Unit :=
  match roman cfg.name with
  | .error e => .error ("router name " ++ host.debug cfg.name ++ " " ++ e)
  | .ok () =>
    if cfg.ports.isEmpty then
      .error "no ports configured: name at least one ethertalk, ltoudp or tashtalk port"
    else checkPorts host [] cfg.ports

/-- The links as they were opened: one for each configured port, of the kind it was configured
as. -/
def Opened (cfg : Config) (kinds : List (String × Kind)) : Prop :=
  ∃ e l t, kinds = e ++ l ++ t ∧
    e.length = cfg.ethertalk.length ∧ l.length = cfg.ltoudp.length ∧
    t.length = cfg.tashtalk.length ∧ (∀ k ∈ e, ∃ mac, k.2 = .ether mac) ∧
    (∀ k ∈ l, k.2 = .ltoudp) ∧ ∀ k ∈ t, k.2 = .tashtalk

/-- Every configured port's range and zones, in the order they are opened. -/
def portSpecs (cfg : Config) : List ((UInt16 × UInt16) × List Str) :=
  cfg.ethertalk.map (fun p => (p.net, p.zones)) ++
    cfg.ltoudp.map (fun p => ((p.net, p.net), p.zones)) ++
    cfg.tashtalk.map fun p => ((p.net, p.net), p.zones)

end Config

end AppleTalk
