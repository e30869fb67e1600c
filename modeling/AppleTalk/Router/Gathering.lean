import AppleTalk.Lib.Gather
import AppleTalk.Router.Local
import AppleTalk.Wire.RoundTrip

/-!
# Filling in a zone list

A page names networks and zones of theirs, and the tables take it in network by network. What the
pages so far make of one network's list is a matter of the names they have for it, in whatever
order they came.
-/

namespace AppleTalk

namespace Tables

/-! ### The lists held -/

/-- The names held of a network. -/
def namesHeld (t : Tables) (net : UInt16) : List Str := ((t.zones net).map ZoneList.names).getD []

theorem namesHeld_of_zones {t : Tables} {net : UInt16} {z : ZoneList} (h : t.zones net = some z) :
    t.namesHeld net = z.names := by
  simp [namesHeld, h]

theorem namesHeld_eq (t : Tables) (net : UInt16) :
    t.namesHeld net = ((t.zones net).getD .empty).names := by
  unfold namesHeld
  cases t.zones net <;> rfl

/-- The list of the network is complete and not longer than can be counted, no two of its names
are one zone, and they are names on the wire. -/
def Tellable (most : ℕ) (t : Tables) (net : UInt16) : Prop :=
  ∃ z, t.zones net = some z ∧ z.complete ∧ z.names.length ≤ most ∧
    Gather.Distinct eqIgnoreAsciiCase z.names ∧ ∀ n ∈ z.names, NameOk n

namespace Tellable

variable {most : ℕ} {t : Tables} {net : UInt16}

theorem distinct (h : t.Tellable most net) :
    Gather.Distinct eqIgnoreAsciiCase (t.namesHeld net) := by
  obtain ⟨z, hz, -, -, hdistinct, -⟩ := h
  rwa [namesHeld_of_zones hz]

theorem nameOk (h : t.Tellable most net) : ∀ n ∈ t.namesHeld net, NameOk n := by
  obtain ⟨z, hz, -, -, -, hok⟩ := h
  rwa [namesHeld_of_zones hz]

theorem names_ne_nil (h : t.Tellable most net) : t.namesHeld net ≠ [] := by
  obtain ⟨z, hz, hcomplete, -⟩ := h
  rw [namesHeld_of_zones hz]
  intro hnil
  simp [ZoneList.complete, hnil] at hcomplete

end Tellable

/-! ### One page -/

/-- The zones a page names for a network. -/
def namesOf (net : UInt16) (zones : List (UInt16 × Str)) : List Str :=
  (zones.filter fun z => z.1 = net).map Prod.snd

theorem mem_namesOf {net : UInt16} {zones : List (UInt16 × Str)} {name : Str} :
    name ∈ namesOf net zones ↔ (net, name) ∈ zones := by
  unfold namesOf
  simp only [List.mem_map, List.mem_filter, decide_eq_true_eq]
  constructor
  · rintro ⟨⟨n, z⟩, ⟨hz, rfl⟩, rfl⟩
    exact hz
  · exact fun h => ⟨(net, name), ⟨h, rfl⟩, rfl⟩

theorem namesOf_append (net : UInt16) (a b : List (UInt16 × Str)) :
    namesOf net (a ++ b) = namesOf net a ++ namesOf net b := by
  simp [namesOf]

/-- Looking a key up among entries after the first entry of a key was changed. -/
theorem find?_modifyFirst {gs : List (UInt16 × List Str)} {k : UInt16} {name : Str}
    (net : UInt16) (hk : gs.any fun g => g.1 = k) :
    (modifyFirst (fun g => g.1 = k) (fun g => (g.1, g.2 ++ [name])) gs).find?
        (fun g => g.1 = net) =
      if net = k then (gs.find? fun g => g.1 = net).map fun g => (g.1, g.2 ++ [name])
      else gs.find? fun g => g.1 = net := by
  induction gs with
  | nil => simp at hk
  | cons g gs ih =>
    rw [modifyFirst]
    by_cases hg : g.1 = k
    · by_cases hn : net = k
      · simp [hg, hn]
      · simp [hg, hn, Ne.symm hn]
    · have hk' : gs.any fun g => g.1 = k := by simpa [hg] using hk
      by_cases hn : g.1 = net
      · have hnk : net ≠ k := fun h => hg (hn.trans h)
        simp [hn, hnk]
      · simp [hg, hn, ih hk']

theorem map_fst_modifyFirst (gs : List (UInt16 × List Str)) (k : UInt16) (name : Str) :
    (modifyFirst (fun g => g.1 = k) (fun g => (g.1, g.2 ++ [name])) gs).map Prod.fst =
      gs.map Prod.fst := by
  induction gs with
  | nil => rfl
  | cons g gs ih =>
    rw [modifyFirst]
    split_ifs
    · rfl
    · rw [List.map_cons, ih, List.map_cons]

/-- **Grouping by network**: each network named has one entry, with its names in order. -/
theorem groupByNet_spec (zones : List (UInt16 × Str)) :
    ((groupByNet zones).map Prod.fst).Nodup ∧
      ∀ net, (groupByNet zones).find? (fun g => g.1 = net) =
        if namesOf net zones = [] then none else some (net, namesOf net zones) := by
  induction zones using List.reverseRecOn with
  | nil => simp [groupByNet, namesOf]
  | append_singleton zones z ih =>
    obtain ⟨hnodup, hfind⟩ := ih
    have hstep : groupByNet (zones ++ [z]) =
        if (groupByNet zones).any fun g => g.1 = z.1 then
          modifyFirst (fun g => g.1 = z.1) (fun g => (g.1, g.2 ++ [z.2])) (groupByNet zones)
        else groupByNet zones ++ [(z.1, [z.2])] := by
      unfold groupByNet
      rw [List.foldl_append]
      rfl
    have hnames : ∀ net, namesOf net (zones ++ [z]) =
        if net = z.1 then namesOf net zones ++ [z.2] else namesOf net zones := by
      intro net
      rw [namesOf_append]
      by_cases h : net = z.1
      · simp [namesOf, h]
      · simp [namesOf, h, Ne.symm h]
    have hany : ((groupByNet zones).any fun g => g.1 = z.1) = true ↔ namesOf z.1 zones ≠ [] := by
      rw [List.any_eq_true, ← List.find?_isSome, hfind]
      split_ifs with h <;> simp [h]
    rw [hstep]
    split_ifs with hold
    · refine ⟨by rw [map_fst_modifyFirst]; exact hnodup, fun net => ?_⟩
      rw [find?_modifyFirst net hold, hnames]
      split_ifs with h1 h2 h2
      · simp at h2
      · rw [hfind, h1, if_neg (hany.1 hold), Option.map_some]
      · rw [hfind, if_pos h2]
      · rw [hfind, if_neg h2]
    · have hnil : namesOf z.1 zones = [] := not_not.1 fun h => hold (hany.2 h)
      refine ⟨?_, fun net => ?_⟩
      · rw [List.map_append, List.nodup_append]
        refine ⟨hnodup, List.nodup_singleton _, fun a ha b hb hab => hold ?_⟩
        obtain rfl : b = z.1 := by simpa using hb
        obtain ⟨g, hg, rfl⟩ := List.mem_map.1 ha
        exact List.any_eq_true.2 ⟨g, hg, by simpa using hab⟩
      · rw [List.find?_append, hfind, hnames]
        by_cases h : net = z.1
        · subst h
          simp [hnil]
        · simp [h, Ne.symm h]

/-! ### One network's list -/

/-- What a page is to the tables: the zones it names and the total it announces. -/
abbrev Page := List (UInt16 × Str) × Option ℕ

/-- What a page makes of the list of a network. -/
def fill (net : UInt16) (z : Option ZoneList) (page : Page) : Option ZoneList :=
  if namesOf net page.1 = [] then z
  else
    some
      { names := Gather.addAll eqIgnoreAsciiCase ((z.getD .empty).names) (namesOf net page.1)
        expected := page.2.or (z.getD .empty).expected }

theorem zones_addZones {t : Tables} {start : UInt16} (h : ∃ r ∈ t.routes, r.range.1 = start)
    (names : List Str) (expected : Option ℕ) :
    (t.addZones start names expected).1.zones start = some
      { names := Gather.addAll eqIgnoreAsciiCase ((t.zones start).getD .empty).names names
        expected := expected.or ((t.zones start).getD .empty).expected } := by
  unfold addZones
  cases hfind : t.routes.find? fun r => r.range.1 = start with
  | none =>
    obtain ⟨r, hr, hstart⟩ := h
    exact absurd (decide_eq_true hstart) (List.find?_eq_none.1 hfind r hr)
  | some r0 =>
    simp only [zones, Function.update_self, Option.map_some]
    rfl

theorem zones_addZones_of_ne (t : Tables) {start net : UInt16} (h : net ≠ start)
    (names : List Str) (expected : Option ℕ) :
    (t.addZones start names expected).1.zones net = t.zones net := by
  unfold addZones
  split
  · rfl
  · simp only [zones, Function.update_of_ne h]

@[simp] theorem routes_addZones (t : Tables) (start : UInt16) (names : List Str)
    (expected : Option ℕ) : (t.addZones start names expected).1.routes = t.routes := by
  unfold addZones
  split <;> rfl

variable {f : Tables → UInt16 × List Str → Tables × List RouteChange} {net : UInt16}

/-- What taking in one entry keeps, taking in a page keeps. -/
theorem each_keeps {P : Tables → Prop} (hP : ∀ t g, P t → P (f t g).1) {t : Tables} (ht : P t)
    (gs : List (UInt16 × List Str)) : P (each f t gs).1 := by
  induction gs generalizing t with
  | nil => exact ht
  | cons g gs ih => exact ih (hP t g ht)

/-- Of a page's entries only a network's own is about it. -/
theorem zones_each {total : Option ℕ} {P : Tables → Prop} (hP : ∀ t g, P t → P (f t g).1)
    (hother : ∀ t g, net ≠ g.1 → (f t g).1.zones net = t.zones net)
    (hown : ∀ t names, P t → (f t (net, names)).1.zones net = some
      { names := Gather.addAll eqIgnoreAsciiCase ((t.zones net).getD .empty).names names
        expected := total.or ((t.zones net).getD .empty).expected })
    {t : Tables} (ht : P t) (zones : List (UInt16 × Str)) :
    (each f t (groupByNet zones)).1.zones net = fill net (t.zones net) (zones, total) := by
  have hskip : ∀ (gs : List (UInt16 × List Str)) (t : Tables), (∀ g ∈ gs, net ≠ g.1) →
      (each f t gs).1.zones net = t.zones net := by
    intro gs
    induction gs with
    | nil => exact fun t _ => rfl
    | cons g gs ih =>
      intro t h
      obtain ⟨hg, hgs⟩ := List.forall_mem_cons.1 h
      exact (ih _ hgs).trans (hother t g hg)
  have hentry : ∀ (gs : List (UInt16 × List Str)) (t : Tables), P t →
      (gs.map Prod.fst).Nodup → ∀ names, (gs.find? fun g => g.1 = net) = some (net, names) →
      (each f t gs).1.zones net = some
        { names := Gather.addAll eqIgnoreAsciiCase ((t.zones net).getD .empty).names names
          expected := total.or ((t.zones net).getD .empty).expected } := by
    intro gs
    induction gs with
    | nil => exact fun t _ _ names h => by cases h
    | cons g gs ih =>
      intro t ht hnodup names hfind
      rw [List.map_cons, List.nodup_cons] at hnodup
      rw [List.find?_cons] at hfind
      by_cases hg : g.1 = net
      · rw [decide_eq_true hg] at hfind
        obtain rfl := Option.some.inj hfind
        refine (hskip gs _ fun g hg hnet => hnodup.1 ?_).trans (hown t names ht)
        exact List.mem_map.2 ⟨g, hg, hnet.symm⟩
      · rw [decide_eq_false hg] at hfind
        have := ih (f t g).1 (hP t g ht) hnodup.2 names hfind
        rwa [hother t g (Ne.symm hg)] at this
  obtain ⟨hnodup, hfind⟩ := groupByNet_spec zones
  have hnet := hfind net
  unfold fill
  dsimp only
  split_ifs at hnet ⊢ with hnames
  · refine hskip _ t fun g hg he => ?_
    exact absurd (decide_eq_true he.symm) (List.find?_eq_none.1 hnet g hg)
  · exact hentry _ t ht hnodup _ hnet

/-! ### The pages so far -/

/-- The list holds the names the pages have for the network, and the total they announce. -/
structure Filled (net : UInt16) (total : Option ℕ) (pages : List Page) (z : Option ZoneList) :
    Prop where
  nodup : (z.getD .empty).names.Nodup
  mem : ∀ name, name ∈ (z.getD .empty).names ↔ ∃ page ∈ pages, (net, name) ∈ page.1
  expected : ∀ list, z = some list → list.expected = total

/-- **What the pages make of a network's list**, whatever their order, when all names are out of
one list and every page that names the network announces the same. -/
theorem filled_foldl {l : List Str} (hl : Gather.Distinct eqIgnoreAsciiCase l) {total : Option ℕ}
    {pages : List Page} (hpages : ∀ page ∈ pages, namesOf net page.1 ⊆ l)
    (htotal : ∀ page ∈ pages, namesOf net page.1 ≠ [] → page.2 = total) :
    Filled net total pages (pages.foldl (fill net) none) := by
  induction pages using List.reverseRecOn with
  | nil => exact ⟨List.nodup_nil, by simp [ZoneList.empty], by simp⟩
  | append_singleton pages page ih =>
    have hfilled := ih (fun p hp => hpages p (by simp [hp])) (fun p hp => htotal p (by simp [hp]))
    have hpage := hpages page (by simp)
    rw [List.foldl_append, List.foldl_cons, List.foldl_nil]
    set z := pages.foldl (fill net) none with hz
    have hheld : (z.getD .empty).names ⊆ l := by
      intro name hname
      obtain ⟨p, hp, hmem⟩ := (hfilled.mem name).1 hname
      exact hpages p (by simp [hp]) (mem_namesOf.2 hmem)
    have hnaming : ∀ name, (∃ p ∈ pages ++ [page], (net, name) ∈ p.1) ↔
        (∃ p ∈ pages, (net, name) ∈ p.1) ∨ name ∈ namesOf net page.1 := by
      intro name
      rw [mem_namesOf]
      simp only [List.mem_append, List.mem_singleton, or_and_right, exists_or, exists_eq_left]
    unfold fill
    split_ifs with hnames
    · refine ⟨hfilled.nodup, fun name => ?_, hfilled.expected⟩
      rw [hnaming, hnames, hfilled.mem]
      simp
    · refine ⟨Gather.nodup_addAll eqIgnoreAsciiCase_refl hfilled.nodup _, fun name => ?_, ?_⟩
      · rw [hnaming, ← hfilled.mem]
        exact Gather.mem_addAll hl hheld hpage
      · intro list hlist
        obtain rfl := Option.some.inj hlist
        have htot := htotal page (by simp) hnames
        dsimp only
        rw [htot]
        cases htot' : total with
        | some e => rfl
        | none =>
          cases hz' : z with
          | none => rfl
          | some list => exact (hfilled.expected list hz').trans htot'

/-- Without a total a list is complete with its first names. -/
theorem Filled.complete_iff {pages : List Page} {z : Option ZoneList}
    (h : Filled net none pages z) :
    z.any ZoneList.complete = true ↔ ∃ page ∈ pages, namesOf net page.1 ≠ [] := by
  have hnames : (z.getD .empty).names ≠ [] ↔ ∃ page ∈ pages, namesOf net page.1 ≠ [] := by
    constructor
    · intro hne
      obtain ⟨name, hname⟩ := List.exists_mem_of_ne_nil _ hne
      obtain ⟨page, hpage, hmem⟩ := (h.mem name).1 hname
      exact ⟨page, hpage, List.ne_nil_of_mem (mem_namesOf.2 hmem)⟩
    · rintro ⟨page, hpage, hne⟩
      obtain ⟨name, hname⟩ := List.exists_mem_of_ne_nil _ hne
      exact List.ne_nil_of_mem ((h.mem name).2 ⟨page, hpage, mem_namesOf.1 hname⟩)
  rw [← hnames]
  cases hz : z with
  | none => simp [ZoneList.empty]
  | some list =>
    have hexpected := h.expected list hz
    simp [ZoneList.complete, hexpected]

/-- With the list's length for the total it is complete once it is whole. -/
theorem Filled.complete_iff_whole {l : List Str} (hl : l.Nodup) (hne : l ≠ [])
    {pages : List Page} {z : Option ZoneList} (h : Filled net (some l.length) pages z)
    (hpages : ∀ page ∈ pages, namesOf net page.1 ⊆ l) :
    z.any ZoneList.complete = true ↔ ∀ name ∈ l, ∃ page ∈ pages, (net, name) ∈ page.1 := by
  have hheld : (z.getD .empty).names ⊆ l := by
    intro name hname
    obtain ⟨p, hp, hmem⟩ := (h.mem name).1 hname
    exact hpages p hp (mem_namesOf.2 hmem)
  have hwhole : l.length ≤ (z.getD .empty).names.length ↔
      ∀ name ∈ l, ∃ page ∈ pages, (net, name) ∈ page.1 := by
    rw [Gather.length_le_iff hl h.nodup hheld]
    exact forall₂_congr fun name _ => h.mem name
  rw [← hwhole]
  have hpos : 0 < l.length := List.length_pos_iff.2 hne
  cases hz : z with
  | none =>
    simp only [Option.any_none, Bool.false_eq_true, false_iff, Option.getD_none, ZoneList.empty,
      List.length_nil]
    omega
  | some list =>
    have hexpected := h.expected list hz
    simp only [Option.any_some, ZoneList.complete, hexpected, Option.all_some, Bool.and_eq_true,
      Bool.not_eq_true', decide_eq_true_eq, Option.getD_some, List.isEmpty_eq_false_iff]
    refine ⟨And.right, fun hle => ⟨fun hnil => ?_, hle⟩⟩
    rw [hnil, List.length_nil] at hle
    omega

/-! ### A list told over pages -/

/-- How the pages sent tell the list of a network: whole wherever they name it and without a
total, or in pieces that announce its length. -/
inductive Tells (net : UInt16) (l : List Str) (sent : List Page) : Prop
  | whole (named : ∃ page ∈ sent, namesOf net page.1 ≠ [])
      (all : ∀ page ∈ sent, namesOf net page.1 ≠ [] →
        page.2 = none ∧ ∀ name, (net, name) ∈ page.1 ↔ name ∈ l)
  | pieces (ps : List (List (UInt16 × Str))) (flat : ps.flatten = l.map fun n => (net, n))
      (nonempty : ∀ q ∈ ps, q ≠ []) (sends : ∀ q ∈ ps, (q, some l.length) ∈ sent)
      (only : ∀ page ∈ sent, namesOf net page.1 ≠ [] → page.2 = some l.length ∧ page.1 ∈ ps)

namespace Tells

variable {l : List Str} {sent pages : List Page}

theorem names_subset (h : Tells net l sent) {page : Page} (hpage : page ∈ sent) :
    namesOf net page.1 ⊆ l := by
  intro name hname
  have hne := List.ne_nil_of_mem hname
  rw [mem_namesOf] at hname
  cases h with
  | whole named all => exact ((all page hpage hne).2 name).1 hname
  | pieces ps flat nonempty sends only =>
    have hmem : (net, name) ∈ ps.flatten :=
      List.mem_flatten.2 ⟨_, (only page hpage hne).2, hname⟩
    rw [flat] at hmem
    obtain ⟨n, hn, he⟩ := List.mem_map.1 hmem
    obtain ⟨-, rfl⟩ := Prod.mk.inj he
    exact hn

/-- With every page that names the network, every name of its list is there. -/
theorem covers (h : Tells net l sent)
    (hall : ∀ page ∈ sent, namesOf net page.1 ≠ [] → page ∈ pages) :
    ∀ name ∈ l, ∃ page ∈ pages, (net, name) ∈ page.1 := by
  intro name hname
  cases h with
  | whole named all =>
    obtain ⟨page, hpage, hne⟩ := named
    exact ⟨page, hall page hpage hne, ((all page hpage hne).2 name).2 hname⟩
  | pieces ps flat nonempty sends only =>
    have hmem : (net, name) ∈ ps.flatten := by
      rw [flat]
      exact List.mem_map.2 ⟨name, hname, rfl⟩
    obtain ⟨q, hq, hmem⟩ := List.mem_flatten.1 hmem
    exact ⟨_, hall _ (sends q hq) (List.ne_nil_of_mem (mem_namesOf.2 hmem)), hmem⟩

/-- **With every page that names the network** its list is complete, and the one told. -/
theorem complete (hl : Gather.Distinct eqIgnoreAsciiCase l) (hne : l ≠ []) (h : Tells net l sent)
    (hpages : pages ⊆ sent) (hall : ∀ page ∈ sent, namesOf net page.1 ≠ [] → page ∈ pages) :
    (pages.foldl (fill net) none).any ZoneList.complete = true ∧
      ∀ name, name ∈ ((pages.foldl (fill net) none).getD .empty).names ↔ name ∈ l := by
  have hsub : ∀ page ∈ pages, namesOf net page.1 ⊆ l :=
    fun page hpage => h.names_subset (hpages hpage)
  have hcovers := h.covers hall
  have hnames : ∀ {total : Option ℕ} {z : Option ZoneList}, Filled net total pages z →
      ∀ name, name ∈ (z.getD .empty).names ↔ name ∈ l := by
    intro total z hfilled name
    rw [hfilled.mem]
    constructor
    · rintro ⟨page, hpage, hmem⟩
      exact hsub page hpage (mem_namesOf.2 hmem)
    · exact hcovers name
  cases h with
  | whole named all =>
    have hfilled := filled_foldl hl hsub fun page hpage hn => (all page (hpages hpage) hn).1
    obtain ⟨page, hpage, hn⟩ := named
    exact ⟨hfilled.complete_iff.2 ⟨page, hall page hpage hn, hn⟩, hnames hfilled⟩
  | pieces ps flat nonempty sends only =>
    have hfilled := filled_foldl hl hsub fun page hpage hn => (only page (hpages hpage) hn).1
    exact ⟨(hfilled.complete_iff_whole hl.1 hne hsub).2 hcovers, hnames hfilled⟩

/-- A complete list took a page at least, and every piece that announced its length. -/
theorem of_complete (hl : Gather.Distinct eqIgnoreAsciiCase l) (hne : l ≠ [])
    (h : Tells net l sent) (hpages : pages ⊆ sent)
    (hcomplete : (pages.foldl (fill net) none).any ZoneList.complete = true) :
    (∃ page ∈ pages, namesOf net page.1 ≠ []) ∧
      ∀ page ∈ sent, namesOf net page.1 ≠ [] → page.2 ≠ none → page ∈ pages := by
  have hsub : ∀ page ∈ pages, namesOf net page.1 ⊆ l :=
    fun page hpage => h.names_subset (hpages hpage)
  cases h with
  | whole named all =>
    have hfilled := filled_foldl hl hsub fun page hpage hn => (all page (hpages hpage) hn).1
    refine ⟨hfilled.complete_iff.1 hcomplete, fun page hpage hn htotal => ?_⟩
    exact absurd (all page hpage hn).1 htotal
  | pieces ps flat nonempty sends only =>
    have hfilled := filled_foldl hl hsub fun page hpage hn => (only page (hpages hpage) hn).1
    have hwhole := (hfilled.complete_iff_whole hl.1 hne hsub).1 hcomplete
    have hnodup : ps.flatten.Nodup := by
      rw [flat]
      exact hl.1.map fun _ _ he => (Prod.mk.inj he).2
    have hcovered : ∀ p ∈ ps.flatten, ∃ d ∈ pages.map Prod.fst, p ∈ d := by
      intro p hp
      rw [flat] at hp
      obtain ⟨n, hn, rfl⟩ := List.mem_map.1 hp
      obtain ⟨page, hpage, hmem⟩ := hwhole n hn
      exact ⟨page.1, List.mem_map.2 ⟨page, hpage, rfl⟩, hmem⟩
    have hpiece : ∀ d ∈ pages.map Prod.fst, ∀ p ∈ d, p ∈ ps.flatten → d ∈ ps := by
      intro d hd p hp hflat
      obtain ⟨page, hpage, rfl⟩ := List.mem_map.1 hd
      rw [flat] at hflat
      obtain ⟨n, -, rfl⟩ := List.mem_map.1 hflat
      exact (only page (hpages hpage) (List.ne_nil_of_mem (mem_namesOf.2 hp))).2
    have hthere := (Gather.covered_iff hnodup nonempty hpiece).1 hcovered
    constructor
    · obtain ⟨name, hname⟩ := List.exists_mem_of_ne_nil l hne
      obtain ⟨page, hpage, hmem⟩ := hwhole name hname
      exact ⟨page, hpage, List.ne_nil_of_mem (mem_namesOf.2 hmem)⟩
    · intro page hpage hn _
      obtain ⟨htotal, hmem⟩ := only page hpage hn
      obtain ⟨arrived, harrived, he⟩ := List.mem_map.1 (hthere hmem)
      -- The piece arrived with the same total, so it is the page.
      have hn' : namesOf net arrived.1 ≠ [] := by rwa [he]
      obtain rfl : arrived = page :=
        Prod.ext he ((only arrived (hpages harrived) hn').1.trans htotal.symm)
      exact harrived

end Tells

end Tables

end AppleTalk
