import JavaClass.Proofs.Loader.Calls
import JavaClass.Proofs.Loader.Hierarchy

/-!
# The journal of a call of linking

A call of linking visits a class, may turn to its supertypes, and leaves it again, and in between it
does the same for each supertype. The journal of a call lists these events in their order, with the
depth at which they take place and the state at that moment. It is made from the calls that the
recursion makes, and these determine the run.

At each event the state knows where the call is. The classes that are being linked are those of the
path from the first class of the call, as many as the depth says, and the list of finished classes
has exactly those that have become linked in the course of the call. No object is turned to twice.
Since the classes of a path are different ones that were not linked, no event is deeper than there
are such classes in the hierarchy, however deep the recursion may go, and if it may go that deep,
then it makes no difference how much deeper it might.

## Main definitions

* `Loader.journal`: the events of a call.
* `LinkState.Tracks`: a state knows where the call is.
* `LinkEvent.OnPath`: where in the hierarchy an event takes place.

## Main statements

* `Loader.linkSupertypes_eq_of_journal`: the journal is complete.
* `Underway.onPath_of_mem_journal`: every event takes place at the end of a path.
* `Underway.nodup_expanded_journal`: no object is turned to twice.
* `Underway.linkWithin_eq_of_le`: enough depth is as good as more.
-/

namespace JavaClass

/-! ## Events -/

/-- What a call of linking does with a class. -/
inductive LinkMoment where
  /-- It comes to the class. -/
  | visit
  /-- It turns to the supertypes of the class, which is being linked from now on. -/
  | expansion
  /-- It leaves the class, with success or without. -/
  | departure
  deriving DecidableEq, Repr

/-- A moment of a call of linking. -/
structure LinkEvent where
  moment : LinkMoment
  /-- How many supertypes away from the first class of the call it happens. -/
  depth : Nat
  subject : Class
  state : LinkState

namespace LinkEvent

/-- The class to whose supertypes the call turns. -/
def expanded? (e : LinkEvent) : Option Class :=
  if e.moment = .expansion then some e.subject else none

/-- The classes that are being linked at the end of a path. -/
def inProgress (e : LinkEvent) (path : List Class) : List Class :=
  if e.moment = .expansion then path ++ [e.subject] else path

end LinkEvent

namespace Loader

/-- The state in which a call turns to the supertypes of a class that it visits. There is none if
the class is not the one in the cache, or if its linking has started before. -/
def begun? (c : Class) (s : LinkState) : Option LinkState :=
  match s.loader.cache[c.name]? with
  | some (.holds d .defined) =>
    if d.same c then some { s with loader := s.loader.insert c.name (.holds c .linking) } else none
  | _ => none

/-- The events of a visit, `depth` supertypes away from the first class of the call. -/
def journal (files : FileSystem) : (allowance depth : Nat) → Class → LinkState → List LinkEvent
  | 0, depth, c, s =>
    [⟨.visit, depth, c, s⟩, ⟨.departure, depth, c, (linkWithin files 0 c s).state⟩]
  | allowance + 1, depth, c, s =>
    ⟨.visit, depth, c, s⟩ ::
      ((begun? c s).toList.flatMap fun t ↦
        ⟨.expansion, depth, c, t⟩ :: (calls files (linkWithin files allowance) c t).flatMap fun q ↦
          journal files allowance (depth + 1) q.1 q.2) ++
      [⟨.departure, depth, c, (linkWithin files (allowance + 1) c s).state⟩]

variable {files : FileSystem} {allowance depth : Nat} {c : Class} {s t : LinkState} {e : LinkEvent}

theorem begun?_eq_some_iff {stage : Stage} (h : s.loader.Has c stage) :
    begun? c s = some t ↔ stage = .defined ∧
      t = { s with loader := s.loader.insert c.name (.holds c .linking) } := by
  rw [Has] at h
  cases stage <;> simp [begun?, h, Class.same, eq_comm]

theorem begun?_of_absent
    (h : ∀ d stage, s.loader.cache[c.name]? = some (.holds d stage) → d.same c = false) :
    begun? c s = none := by
  rw [begun?]
  split
  · next d hd =>
    rw [h d _ hd]
    rfl
  · rfl

theorem linkWithin_of_begun? (h : begun? c s = some t) :
    linkWithin files (allowance + 1) c s =
      match linkSupertypes files (linkWithin files allowance) c t with
      | .ok () u =>
        .ok () { u with
          loader := u.loader.insert c.name (.holds c .linked), linked := c :: u.linked }
      | .error e u => .error e { u with loader := u.loader.evict c.name } := by
  rw [begun?] at h
  split at h
  · next d hd =>
    split at h
    · next hsame =>
      cases h
      rw [linkWithin, visit, hd]
      exact (if_pos hsame).trans (linkDefined_apply _ c s)
    · cases h
  · cases h

theorem visit_of_not_begun? {proceed proceed' : Class → LinkM Unit} (h : begun? c s = none) :
    visit proceed c s = visit proceed' c s := by
  rw [visit, visit]
  rw [begun?] at h
  generalize s.loader.cache[c.name]? = entry at h
  rcases entry with _ | _ | ⟨d, _ | _ | _⟩
  · rfl
  · rfl
  · dsimp only at h ⊢
    cases hsame : d.same c with
    | false => rfl
    | true =>
      rw [hsame] at h
      cases h
  · rfl
  · rfl

theorem journal_of_not_begun? (h : begun? c s = none) :
    journal files allowance depth c s = [⟨.visit, depth, c, s⟩,
      ⟨.departure, depth, c, (linkWithin files allowance c s).state⟩] := by
  cases allowance with
  | zero => rfl
  | succ allowance =>
    rw [journal, h]
    rfl

/-- A visit to a class that is not the one in the cache is over as soon as it has begun. -/
theorem journal_of_absent
    (h : ∀ d stage, s.loader.cache[c.name]? = some (.holds d stage) → d.same c = false) :
    journal files allowance depth c s = [⟨.visit, depth, c, s⟩, ⟨.departure, depth, c, s⟩] := by
  have hrun : linkWithin files allowance c s = .error (.notLoaded c.name) s := by
    cases allowance <;> exact visit_of_absent h
  rw [journal_of_not_begun? (begun?_of_absent h), hrun]
  rfl

/-- How deep a visit may go does not matter if it does not turn to the supertypes of the class. -/
theorem congr_of_not_begun? (h : begun? c s = none) (allowance allowance' depth : Nat) :
    linkWithin files allowance c s = linkWithin files allowance' c s ∧
      journal files allowance depth c s = journal files allowance' depth c s := by
  have hrun : linkWithin files allowance c s = linkWithin files allowance' c s := by
    cases allowance <;> cases allowance' <;> exact visit_of_not_begun? h
  rw [journal_of_not_begun? h, journal_of_not_begun? h, hrun]
  exact ⟨rfl, rfl⟩

/-- The event is one of the visit itself, and not one of a visit to a supertype. -/
inductive Belongs (files : FileSystem) (allowance depth : Nat) (c : Class) (s : LinkState) :
    LinkEvent → Prop
  | visit : Belongs files allowance depth c s ⟨.visit, depth, c, s⟩
  | expansion {t : LinkState} (hpos : 0 < allowance) (ht : begun? c s = some t) :
    Belongs files allowance depth c s ⟨.expansion, depth, c, t⟩
  | departure :
    Belongs files allowance depth c s ⟨.departure, depth, c, (linkWithin files allowance c s).state⟩

theorem belongs_of_mem_journal_zero (he : e ∈ journal files 0 depth c s) :
    Belongs files 0 depth c s e := by
  rcases List.mem_pair.mp he with rfl | rfl
  · exact .visit
  · exact .departure

theorem belongs_or_of_mem_journal_succ (he : e ∈ journal files (allowance + 1) depth c s) :
    Belongs files (allowance + 1) depth c s e ∨ ∃ t, begun? c s = some t ∧
      ∃ q ∈ calls files (linkWithin files allowance) c t,
        e ∈ journal files allowance (depth + 1) q.1 q.2 := by
  simp only [journal, List.cons_append, List.mem_cons, List.mem_append, List.mem_flatMap,
    Option.mem_toList, List.not_mem_nil, or_false] at he
  rcases he with rfl | ⟨t, ht, rfl | hcall⟩ | rfl
  · exact .inl .visit
  · exact .inl (.expansion allowance.succ_pos ht)
  · exact .inr ⟨t, ht, hcall⟩
  · exact .inl .departure

/-! ## Completeness -/

theorem visit_mem_journal : ⟨.visit, depth, c, s⟩ ∈ journal files allowance depth c s := by
  cases allowance <;> simp [journal]

theorem mem_journal_succ_of_call (ht : begun? c s = some t) {q : Class × LinkState}
    (hq : q ∈ calls files (linkWithin files allowance) c t)
    (he : e ∈ journal files allowance (depth + 1) q.1 q.2) :
    e ∈ journal files (allowance + 1) depth c s := by
  simp only [journal, ht, List.cons_append, List.mem_cons, List.mem_append, List.mem_flatMap,
    Option.toList_some, List.flatMap_singleton]
  exact .inr (.inr (.inl ⟨q, hq, he⟩))

theorem exists_visits_of_mem_journal (he : e ∈ journal files allowance depth c s)
    (hmoment : e.moment = .expansion) :
    ∃ allowance', allowance' + 1 + e.depth = allowance + depth ∧
      ∀ q ∈ calls files (linkWithin files allowance') e.subject e.state,
        ⟨.visit, e.depth + 1, q.1, q.2⟩ ∈ journal files allowance depth c s := by
  induction allowance generalizing depth c s with
  | zero => cases belongs_of_mem_journal_zero he <;> simp_all
  | succ allowance ih =>
    rcases belongs_or_of_mem_journal_succ he with he | ⟨t, ht, q, hq, he⟩
    · cases he with
      | visit => cases hmoment
      | expansion _ ht =>
        exact ⟨allowance, rfl, fun q hq ↦ mem_journal_succ_of_call ht hq visit_mem_journal⟩
      | departure => cases hmoment
    · obtain ⟨allowance', hdepth, hvisits⟩ := ih he
      exact ⟨allowance', by omega, fun q' hq' ↦ mem_journal_succ_of_call ht hq (hvisits q' hq')⟩

/-- **The journal is complete.** How linking the supertypes of a class goes depends on the visits in
the journal and on nothing else. -/
theorem linkSupertypes_eq_of_journal {link' : Class → LinkM Unit}
    (he : e ∈ journal files (allowance + 1) 0 c s) (hmoment : e.moment = .expansion)
    (h : ∀ e' ∈ journal files (allowance + 1) 0 c s, e'.moment = .visit →
      e'.depth = e.depth + 1 →
        link' e'.subject e'.state = linkWithin files (allowance - e.depth) e'.subject e'.state) :
    linkSupertypes files link' e.subject e.state =
      linkSupertypes files (linkWithin files (allowance - e.depth)) e.subject e.state := by
  obtain ⟨allowance', hdepth, hvisits⟩ := exists_visits_of_mem_journal he hmoment
  obtain rfl : allowance' = allowance - e.depth := by omega
  exact (linkSupertypes_congr fun q hq ↦ h _ (hvisits q hq) rfl rfl).1

/-! ## Classes to whose supertypes a call turns -/

/-- The classes to whose supertypes a call turned. -/
def expanded (events : List LinkEvent) : List Class := events.filterMap LinkEvent.expanded?

theorem expanded_journal_succ :
    expanded (journal files (allowance + 1) depth c s) = (begun? c s).toList.flatMap fun t ↦
      c :: (calls files (linkWithin files allowance) c t).flatMap fun q ↦
        expanded (journal files allowance (depth + 1) q.1 q.2) := by
  rw [journal, expanded]
  simp [LinkEvent.expanded?, List.filterMap_flatMap, expanded]

theorem mem_expanded_journal_succ_iff {y : Class} :
    y ∈ expanded (journal files (allowance + 1) depth c s) ↔ ∃ t, begun? c s = some t ∧
      (y = c ∨ ∃ q ∈ calls files (linkWithin files allowance) c t,
        y ∈ expanded (journal files allowance (depth + 1) q.1 q.2)) := by
  rw [expanded_journal_succ]
  simp

end Loader

/-! ## Where events take place -/

/-- The state knows where a call is that began in the state `start`. The classes of the path are the
ones that are being linked, and the list has what is linked now and was not at the start. -/
structure LinkState.Tracks (start : LoaderState) (path : List Class) (s : LinkState) : Prop where
  linking : ∀ (key : String) (x : Class),
    s.loader.cache[key]? = some (.holds x .linking) ↔ x ∈ path ∧ x.name = key
  linked : ∀ (key : String) (x : Class), x ∈ s.linked ∧ x.name = key ↔
    s.loader.cache[key]? = some (.holds x .linked) ∧
      start.loader.cache[key]? ≠ some (.holds x .linked)
  path_distinct : (path.map Class.id).Nodup
  linked_distinct : (s.linked.map Class.id).Nodup

/-- The event takes place at the end of a path that begins with the class `root`, and the state
knows so. A class that is visited may well be one of those before it on the path. -/
structure LinkEvent.OnPath (files : FileSystem) (start : LoaderState) (root : Class) (e : LinkEvent)
    (path : List Class) : Prop where
  length_eq : path.length = e.depth
  head : (path ++ [e.subject]).head? = some root
  chain : (path ++ [e.subject]).IsChain (start.Declares files)
  tracks : e.state.Tracks start (e.inProgress path)

namespace Underway

open Loader

variable {files : FileSystem} {start : LoaderState} {region : String → Prop}
  {path rest : List Class} {allowance : Nat} {c root : Class} {s t u : LinkState}
  {q : Class × LinkState} {e : LinkEvent}

/-- When the end of a path has been removed, the state knows that the call is back where the rest
of the path ends. -/
theorem tracks_evictAll (h : Underway files start region (path ++ rest) u) :
    LinkState.Tracks start path { u with loader := u.loader.evictAll rest } := by
  have hpath {x : Class} (hx : x ∈ path ++ rest) : u.loader.Has x .linking := h.linking_iff.mpr hx
  have hhas {x : Class} {stage : Stage} :
      (u.loader.evictAll rest).Has x stage ↔ x ∉ rest ∧ u.loader.Has x stage :=
    has_evictAll_iff fun x hx ↦ ⟨.linking, hpath (List.mem_append_right path hx)⟩
  have hwf := h.wellFormed.evictAll rest
  have hdisjoint : path.Disjoint rest := List.disjoint_of_nodup_append h.nodup
  constructor
  case linking =>
    intro key x
    constructor
    · intro hx
      obtain ⟨hx, rfl⟩ := hwf.has_of_getElem? hx
      obtain ⟨hrest, hx⟩ := hhas.mp hx
      exact ⟨(List.mem_append.mp (h.linking_iff.mp hx)).resolve_right hrest, rfl⟩
    · rintro ⟨hx, rfl⟩
      exact hhas.mpr ⟨hdisjoint hx, hpath (List.mem_append_left rest hx)⟩
  case linked =>
    intro key x
    constructor
    · rintro ⟨hx, rfl⟩
      obtain ⟨hlinked, hnot⟩ := h.mem_linked_iff.mp hx
      refine ⟨hhas.mpr ⟨fun hrest ↦ ?_, hlinked⟩, hnot⟩
      exact h.not_mem_path_of_mem_linked hx (List.mem_append_right path hrest)
    · rintro ⟨hx, hnot⟩
      obtain ⟨hx, rfl⟩ := hwf.has_of_getElem? hx
      exact ⟨h.mem_linked_iff.mpr ⟨(hhas.mp hx).2, hnot⟩, rfl⟩
  case path_distinct =>
    refine (List.nodup_append.mp h.nodup).1.map_on fun x hx y hy hid ↦ ?_
    exact h.identity (hpath (List.mem_append_left rest hx)) (hpath (List.mem_append_left rest hy))
      hid
  case linked_distinct =>
    exact h.linked_nodup.map_on fun x hx y hy hid ↦
      h.identity (h.mem_linked_iff.mp hx).1 (h.mem_linked_iff.mp hy).1 hid

theorem tracks (h : Underway files start region path s) : s.Tracks start path := by
  rw [← List.append_nil path] at h
  exact h.tracks_evictAll

theorem of_begun? (h : Underway files start region path s)
    (hnext : Next files start region path s c) (ht : begun? c s = some t) :
    Underway files start region (path ++ [c]) t ∧ s.loader.Extends t.loader := by
  obtain ⟨stage, hc⟩ := hnext.cached
  obtain ⟨rfl, rfl⟩ := (begun?_eq_some_iff hc).mp ht
  exact ⟨h.begin hc hnext, extends_restage hc (by simp)⟩

theorem of_call (h : Underway files start region path s)
    (hnext : Next files start region path s c) (ht : begun? c s = some t)
    (hq : q ∈ calls files (linkWithin files allowance) c t) :
    Underway files start region (path ++ [c]) q.2 ∧
      Next files start region (path ++ [c]) q.2 q.1 ∧ s.loader.Extends q.2.loader := by
  obtain ⟨ht, hext⟩ := h.of_begun? hnext ht
  obtain ⟨hs, hnext', hext'⟩ :=
    ht.of_mem_calls (passes_linkWithin files start region allowance _) hq
  exact ⟨hs, hnext', hext.trans hext'⟩

theorem head?_append_singleton {c d : Class} (hroot : (path ++ [c]).head? = some root) :
    (path ++ [c] ++ [d]).head? = some root := by
  rw [List.head?_append, hroot, Option.some_or]

/-- Every event is one of a visit, and the visit is one from the end of a path that begins as the
path of the call does. -/
theorem exists_visit_of_mem_journal (h : Underway files start region path s)
    (hnext : Next files start region path s c) (hroot : (path ++ [c]).head? = some root)
    (he : e ∈ journal files allowance path.length c s) :
    ∃ allowance' path' c' s', allowance' + path'.length = allowance + path.length ∧
      Underway files start region path' s' ∧ Next files start region path' s' c' ∧
        (path' ++ [c']).head? = some root ∧ Belongs files allowance' path'.length c' s' e := by
  induction allowance generalizing path c s with
  | zero => exact ⟨0, path, c, s, rfl, h, hnext, hroot, belongs_of_mem_journal_zero he⟩
  | succ allowance ih =>
    rcases belongs_or_of_mem_journal_succ he with he | ⟨t, ht, q, hq, he⟩
    · exact ⟨allowance + 1, path, c, s, rfl, h, hnext, hroot, he⟩
    · -- one less is allowed, but the path has one more
      have hlength : (path ++ [c]).length = path.length + 1 := by simp
      obtain ⟨hs, hnext', _⟩ := h.of_call hnext ht hq
      obtain ⟨allowance', path', c', s', hdepth, hvisit⟩ :=
        ih hs hnext' (head?_append_singleton hroot) (by rwa [hlength])
      exact ⟨allowance', path', c', s', by omega, hvisit⟩

theorem tracks_departure (h : Underway files start region path s)
    (hnext : Next files start region path s c)
    (hdepth : allowance + path.length = start.loader.maxLinkDepth + 1) :
    (linkWithin files allowance c s).state.Tracks start path := by
  cases hrun : linkWithin files allowance c s with
  | ok _ t => exact (passes_linkWithin files start region allowance path h hnext hrun).1.tracks
  | error e t =>
    obtain ⟨_, ⟨rest, u, hu, rfl, _⟩, rfl⟩ :=
      fails_linkWithin files start region allowance path hdepth h hnext hrun
    exact hu.tracks_evictAll

/-- **Every event takes place at the end of a path**, and there never are more classes being linked
than the limit admits. -/
theorem onPath_of_mem_journal (h : Underway files start region path s)
    (hnext : Next files start region path s c) (hroot : (path ++ [c]).head? = some root)
    (hdepth : allowance + path.length = start.loader.maxLinkDepth + 1)
    (he : e ∈ journal files allowance path.length c s) :
    ∃ path', e.OnPath files start root path' ∧
      (e.inProgress path').length ≤ start.loader.maxLinkDepth + 1 := by
  obtain ⟨allowance', path', c', s', hdepth', h', hnext', hroot', he⟩ :=
    h.exists_visit_of_mem_journal hnext hroot he
  have hchain : (path' ++ [c']).IsChain (start.Declares files) :=
    h'.chain.append (.singleton c') (by simpa using hnext'.declared)
  have hlength : path'.length ≤ start.loader.maxLinkDepth + 1 := by omega
  refine ⟨path', ?_⟩
  cases he with
  | visit => exact ⟨⟨rfl, hroot', hchain, h'.tracks⟩, hlength⟩
  | expansion hpos ht =>
    refine ⟨⟨rfl, hroot', hchain, (h'.of_begun? hnext' ht).1.tracks⟩, ?_⟩
    rw [LinkEvent.inProgress, if_pos rfl, List.length_append, List.length_singleton]
    omega
  | departure =>
    exact ⟨⟨rfl, hroot', hchain, h'.tracks_departure hnext' (by omega)⟩, hlength⟩

/-! ## No object is turned to twice -/

theorem id_ne_of_mem_expanded (h : Underway files start region path s)
    (hnext : Next files start region path s c) {depth : Nat} {x y : Class}
    (hy : y ∈ expanded (journal files allowance depth c s)) (hx : s.loader.Started x) :
    x.id ≠ y.id := by
  induction allowance generalizing path depth c s with
  | zero => cases hy
  | succ allowance ih =>
    obtain ⟨t, ht, rfl | ⟨q, hq, hy⟩⟩ := mem_expanded_journal_succ_iff.mp hy
    · obtain ⟨stage, hc⟩ := hnext.cached
      obtain ⟨stage', hstage', hx⟩ := hx
      obtain ⟨rfl, _⟩ := (begun?_eq_some_iff hc).mp ht
      intro hid
      obtain rfl := h.identity hx hc hid
      exact hstage' (hx.stage_eq hc)
    · obtain ⟨hs, hnext', hext⟩ := h.of_call hnext ht hq
      exact ih hs hnext' hy (hext hx)

theorem started_of_mem_expanded (h : Underway files start region path s)
    (hnext : Next files start region path s c) {depth : Nat} {y : Class}
    (hy : y ∈ expanded (journal files allowance depth c s))
    (hrun : linkWithin files allowance c s = .ok () t) : t.loader.Started y := by
  induction allowance generalizing path depth c s t with
  | zero => cases hy
  | succ allowance ih =>
    obtain ⟨u, hu, rfl | ⟨q, hq, hy⟩⟩ := mem_expanded_journal_succ_iff.mp hy
    · exact (passes_linkWithin files start region _ path h hnext hrun).2.2
    · obtain ⟨hs, hnext', _⟩ := h.of_call hnext hu hq
      rw [linkWithin_of_begun? hu] at hrun
      split at hrun
      · next v hsupertypes =>
        cases hrun
        have hpasses := passes_linkWithin files start region allowance (path ++ [c])
        obtain ⟨hu, _⟩ := h.of_begun? hnext hu
        obtain ⟨w, hw, hext⟩ := hu.exists_ok_of_mem_calls hpasses hsupertypes hq
        have hc := hu.has_linking_of_linkSupertypes hpasses hsupertypes
        exact extends_restage hc (by simp) (hext (ih hs hnext' hy hw))
      · cases hrun

/-- **No object is turned to twice.** -/
theorem nodup_expanded_journal (h : Underway files start region path s)
    (hnext : Next files start region path s c) (depth : Nat) :
    ((expanded (journal files allowance depth c s)).map Class.id).Nodup := by
  rw [List.nodup_iff_pairwise_ne, List.pairwise_map]
  induction allowance generalizing path depth c s with
  | zero => exact .nil
  | succ allowance ih =>
    rw [expanded_journal_succ]
    cases ht : begun? c s with
    | none => exact .nil
    | some t =>
      obtain ⟨hu, _⟩ := h.of_begun? hnext ht
      rw [Option.toList_some, List.flatMap_singleton, List.pairwise_cons, List.pairwise_flatMap]
      refine ⟨fun y hy ↦ ?_, fun q hq ↦ ?_, ?_⟩
      · obtain ⟨q, hq, hy⟩ := List.mem_flatMap.mp hy
        obtain ⟨hs, hnext', _⟩ := h.of_call hnext ht hq
        have hc : q.2.loader.Has c .linking := hs.linking_iff.mpr (by simp)
        exact hs.id_ne_of_mem_expanded hnext' hy ⟨.linking, by simp, hc⟩
      · obtain ⟨hs, hnext', _⟩ := h.of_call hnext ht hq
        exact ih hs hnext' (depth + 1)
      · -- what an earlier call has turned to has started when a later one is made
        have hpasses := passes_linkWithin files start region allowance (path ++ [c])
        refine (hu.pairwise_calls hpasses).imp_of_mem fun hq hq' hcalls x hx y hy ↦ ?_
        obtain ⟨v, hrun, hext⟩ := hcalls
        obtain ⟨hs, hnext₁, _⟩ := h.of_call hnext ht hq
        obtain ⟨hs', hnext₂, _⟩ := h.of_call hnext ht hq'
        exact hs'.id_ne_of_mem_expanded hnext₂ hy (hext (hs.started_of_mem_expanded hnext₁ hx hrun))

/-! ## How deep a call goes -/

/-- **No event is deeper than there are classes that are not linked**, however deep the recursion
may go. -/
theorem depth_le_of_mem_journal
    (h : Underway files start (start.loader.Hierarchy files root.name) path s)
    (hnext : Next files start (start.loader.Hierarchy files root.name) path s c)
    (he : e ∈ journal files allowance path.length c s) :
    (e.depth : ℕ∞) ≤ (start.loader.unlinkedHierarchy files root.name).encard := by
  obtain ⟨first, hfirst⟩ : ∃ first, (path ++ [c]).head? = some first :=
    Option.isSome_iff_exists.mp (by simp)
  obtain ⟨_, path', _, _, _, h', _, _, he⟩ := h.exists_visit_of_mem_journal hnext hfirst he
  cases he <;> exact length_path_le h'

/-- A call that turns to the supertypes of a class has got one class further. -/
theorem lt_of_begun? (h : Underway files start (start.loader.Hierarchy files root.name) path s)
    (hnext : Next files start (start.loader.Hierarchy files root.name) path s c)
    (ht : begun? c s = some t) {n : Nat}
    (hn : (start.loader.unlinkedHierarchy files root.name).encard ≤ n) : path.length < n := by
  have hlength := (length_path_le (h.of_begun? hnext ht).1).trans hn
  rwa [List.length_append, List.length_singleton, Nat.cast_le] at hlength

/-- **Enough depth is as good as more.** A recursion that may go as deep as there are classes that
are not linked ends by itself. -/
theorem linkWithin_eq_of_le
    (h : Underway files start (start.loader.Hierarchy files root.name) path s)
    (hnext : Next files start (start.loader.Hierarchy files root.name) path s c)
    {allowance' : Nat}
    (ha : (start.loader.unlinkedHierarchy files root.name).encard ≤
      ((allowance + path.length : ℕ) : ℕ∞))
    (ha' : (start.loader.unlinkedHierarchy files root.name).encard ≤
      ((allowance' + path.length : ℕ) : ℕ∞)) (depth : Nat) :
    linkWithin files allowance' c s = linkWithin files allowance c s ∧
      journal files allowance' depth c s = journal files allowance depth c s := by
  induction allowance generalizing path allowance' depth c s with
  | zero =>
    cases ht : begun? c s with
    | none => exact congr_of_not_begun? ht allowance' 0 depth
    | some t =>
      have := h.lt_of_begun? hnext ht ha
      omega
  | succ allowance ih =>
    cases ht : begun? c s with
    | none => exact congr_of_not_begun? ht allowance' (allowance + 1) depth
    | some t =>
      have hlt := h.lt_of_begun? hnext ht ha'
      cases allowance' with
      | zero => omega
      | succ allowance' =>
        have hlength (n : Nat) : n + (path ++ [c]).length = n + 1 + path.length := by
          rw [List.length_append, List.length_singleton]
          omega
        have hcall : ∀ q ∈ calls files (linkWithin files allowance) c t,
            linkWithin files allowance' q.1 q.2 = linkWithin files allowance q.1 q.2 ∧
              journal files allowance' (depth + 1) q.1 q.2 =
                journal files allowance (depth + 1) q.1 q.2 := by
          intro q hq
          obtain ⟨hs, hnext', _⟩ := h.of_call hnext ht hq
          exact ih hs hnext' (by rwa [hlength]) (by rwa [hlength]) (depth + 1)
        obtain ⟨hrun, hcalls⟩ := linkSupertypes_congr fun q hq ↦ (hcall q hq).1
        have hvisit : linkWithin files (allowance' + 1) c s =
            linkWithin files (allowance + 1) c s := by
          rw [linkWithin_of_begun? ht, linkWithin_of_begun? ht, hrun]
        refine ⟨hvisit, ?_⟩
        rw [journal, journal, hvisit, ht, Option.toList_some, List.flatMap_singleton,
          List.flatMap_singleton, hcalls, List.flatMap_congr fun q hq ↦ (hcall q hq).2]

end Underway

end JavaClass
