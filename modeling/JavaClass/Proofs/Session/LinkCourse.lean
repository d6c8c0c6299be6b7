import JavaClass.Proofs.Loader.History
import JavaClass.Proofs.Loader.Journal
import JavaClass.Proofs.Session.LinkHierarchy

/-!
# The course of a call of linking

In every session that can be reached, a call of linking knows at each of its events where it is, and
it comes to an end for a reason that has nothing to do with the limit of the loader. Nothing is said
about whether it succeeds, nor about whether the class is one that the loader has: a call for
another class is over as soon as it has begun.

A hierarchy is finite if there are finitely many class files, as there are in every file system
that exists. So there always is a depth that is enough, and with it the recursion is the same as if
there were no limit.

## Main definitions

* `LinkCourse`: the course of a call.

## Main statements

* `Session.linkCourse_of_reachable`: every call takes this course.
-/

namespace JavaClass

namespace Loader

variable {files : FileSystem} {l : Loader} {root key : String}

/-! ## Finite hierarchies -/

theorem Hierarchy.cases_of_wellFormed (h : l.Hierarchy files root key) (hwf : l.WellFormed) :
    key = root ∨ key ∈ l.cache ∨ ∃ path ∈ l.classFiles files, nameAt? files path = some key := by
  cases h with
  | root => exact .inl rfl
  | @supertype _ name _ found _ _ _ hfound =>
    cases hentry : l.entry? name with
    | some entry =>
      refine .inr (.inl (Std.ExtTreeMap.mem_iff_isSome_getElem?.mpr ?_))
      rw [← Loader.entry?, hentry]
      rfl
    | none =>
      rw [← name_of_lookup hwf hfound]
      exact .inr (.inr (exists_classFile_of_lookup hentry hfound))

/-- A hierarchy is finite if there are finitely many class files. -/
theorem finite_unlinkedHierarchy (hwf : l.WellFormed) (hfiles : (l.classFiles files).Finite)
    (root : String) : (l.unlinkedHierarchy files root).Finite := by
  have hroot : ({root} : Set String).Finite := Set.finite_singleton root
  have hcached : {key | key ∈ l.cache.keys}.Finite := List.finite_toSet _
  have hnamed : (Set.preimage some (nameAt? files '' l.classFiles files)).Finite :=
    (hfiles.image _).preimage (Option.some_injective _).injOn
  refine ((hroot.union hcached).union hnamed).subset fun key hkey ↦ ?_
  rcases hkey.1.cases_of_wellFormed hwf with rfl | hmem | hnamed
  · exact .inl (.inl rfl)
  · exact .inl (.inr (Std.ExtTreeMap.mem_keys.mpr hmem))
  · exact .inr hnamed

/-! ## Events of a whole call -/

/-- The events of a call to link the class `c` if the recursion may go `allowance` classes deep. -/
def linkJournal (files : FileSystem) (allowance : Nat) (c : Class) (start : LoaderState) :
    List LinkEvent :=
  journal files allowance 0 c { start with linked := [] }

end Loader

/-- What is left of an event if of the state only the names of the linked classes are kept. -/
def LinkEvent.outline (e : LinkEvent) : LinkMoment × Nat × String × List String :=
  (e.moment, e.depth, e.subject.name, e.state.linked.map Class.name)

open Loader

/-- The course of a call to link the class `root` that begins in the state `start`. -/
structure LinkCourse (files : FileSystem) (start : LoaderState) (root : Class) : Prop where
  /-- No visit to a supertype is missing, since how linking the supertypes of a class goes depends
  on the visits in the journal alone. -/
  complete : ∀ e ∈ linkJournal files (start.loader.maxLinkDepth + 1) root start,
    e.moment = .expansion → ∀ link' : Class → LinkM Unit,
      (∀ e' ∈ linkJournal files (start.loader.maxLinkDepth + 1) root start,
        e'.moment = .visit → e'.depth = e.depth + 1 → link' e'.subject e'.state =
          linkWithin files (start.loader.maxLinkDepth - e.depth) e'.subject e'.state) →
      linkSupertypes files link' e.subject e.state =
        linkSupertypes files (linkWithin files (start.loader.maxLinkDepth - e.depth)) e.subject
          e.state
  /-- Each event takes place at the end of a path, and the classes that are being linked are no more
  than the limit admits. -/
  onPath : ∀ e ∈ linkJournal files (start.loader.maxLinkDepth + 1) root start,
    ∃ path, e.OnPath files start root path ∧
      (e.inProgress path).length ≤ start.loader.maxLinkDepth + 1
  /-- Whatever the limit, no object is turned to twice, … -/
  once : ∀ allowance, ((expanded (linkJournal files allowance root start)).map Class.id).Nodup
  /-- … no event is deeper than there are classes that are not linked, … -/
  depth_le : ∀ allowance, ∀ e ∈ linkJournal files allowance root start,
    (e.depth : ℕ∞) ≤ (start.loader.unlinkedHierarchy files root.name).encard
  /-- … and a recursion that may go as deep as that would not go on if it might go deeper. -/
  ends : ∀ allowance allowance' : Nat,
    (start.loader.unlinkedHierarchy files root.name).encard ≤ allowance →
    (start.loader.unlinkedHierarchy files root.name).encard ≤ allowance' →
      linkWithin files allowance root { start with linked := [] } =
          linkWithin files allowance' root { start with linked := [] } ∧
        linkJournal files allowance root start = linkJournal files allowance' root start
  /-- There is a depth that is enough. -/
  finite : (start.loader.classFiles files).Finite →
    (start.loader.unlinkedHierarchy files root.name).Finite

namespace LoaderState

variable {files : FileSystem} {start : LoaderState} {c : Class} {stage : Stage}

theorem AtRest.linkCourse_of_has (h : start.AtRest) (hc : start.loader.Has c stage) :
    LinkCourse files start c := by
  have hinit := Underway.init h (supertypeClosed_hierarchy files start.loader c.name)
  have hnext : Underway.Next files start (start.loader.Hierarchy files c.name) []
      { start with linked := [] } c := next_of_has hc .root
  constructor
  case complete => exact fun e he hmoment link' ↦ linkSupertypes_eq_of_journal he hmoment
  case onPath => exact fun e he ↦ hinit.onPath_of_mem_journal hnext rfl rfl he
  case once => exact fun allowance ↦ hinit.nodup_expanded_journal hnext 0
  case depth_le => exact fun allowance e he ↦ hinit.depth_le_of_mem_journal hnext he
  case ends => exact fun allowance allowance' ha ha' ↦ hinit.linkWithin_eq_of_le hnext ha' ha 0
  case finite => exact fun hfiles ↦ finite_unlinkedHierarchy h.wellFormed hfiles c.name

theorem AtRest.linkCourse_of_absent (h : start.AtRest)
    (habsent : ∀ d stage, start.loader.cache[c.name]? = some (.holds d stage) →
      d.same c = false) : LinkCourse files start c := by
  have hjournal (allowance : Nat) : linkJournal files allowance c start =
      [⟨.visit, 0, c, { start with linked := [] }⟩,
        ⟨.departure, 0, c, { start with linked := [] }⟩] := journal_of_absent habsent
  have htracks : LinkState.Tracks start [] { start with linked := [] } :=
    (Underway.init h (supertypeClosed_true files start.loader)).tracks
  constructor
  case complete => exact fun e he hmoment link' ↦ linkSupertypes_eq_of_journal he hmoment
  case onPath =>
    intro e he
    rw [hjournal] at he
    rcases List.mem_pair.mp he with rfl | rfl <;>
      exact ⟨[], ⟨rfl, rfl, .singleton c, htracks⟩, Nat.zero_le _⟩
  case once =>
    intro allowance
    rw [hjournal]
    exact .nil
  case depth_le =>
    intro allowance e he
    rw [hjournal] at he
    rcases List.mem_pair.mp he with rfl | rfl <;> exact zero_le
  case ends =>
    intro allowance allowance' _ _
    exact congr_of_not_begun? (begun?_of_absent habsent) allowance allowance' 0
  case finite => exact fun hfiles ↦ finite_unlinkedHierarchy h.wellFormed hfiles c.name

end LoaderState

namespace Session

/-- **The course of any call of linking.** Where a call is shows in the classes that are being
linked and in its list of those that it has linked. It turns to no object twice, and it ends by
itself. -/
theorem linkCourse_of_reachable {s : Session} (hs : s.Reachable) {number : Nat} {l : Loader}
    (hl : s.loaders[number]? = some l) {c : Class} (hc : s.Refers c) :
    LinkCourse s.files ⟨l, s.heap⟩ c := by
  have hmem := List.mem_of_getElem? hl
  have hrest := hs.sound.atRest hmem
  by_cases hcached : ∃ stage, l.Has c stage
  · obtain ⟨stage, hcached⟩ := hcached
    exact hrest.linkCourse_of_has hcached
  · refine hrest.linkCourse_of_absent fun d stage hd ↦ beq_eq_false_iff_ne.mpr fun hid ↦ ?_
    -- an object with the identity of the cached one is that one
    obtain ⟨hhas, _⟩ := hrest.wellFormed.has_of_getElem? hd
    exact hcached ⟨stage, hs.sound.identity (refers_of_has hmem hhas) hc hid ▸ hhas⟩

/-- The events of a call for the first of two classes that extend each other. It is met again while
it is being linked. -/
def cycleOutlines : List (LinkMoment × Nat × String × List String) :=
  [(.visit, 0, "A", []), (.expansion, 0, "A", []), (.visit, 1, "B", []), (.expansion, 1, "B", []),
    (.visit, 2, "A", []), (.departure, 2, "A", []), (.departure, 1, "B", ["B"]),
    (.departure, 0, "A", ["A", "B"])]

theorem linkCourse_of_definedCycle : ∃ c l, definedCycle.loaders[0]? = some l ∧
    l.Has c .defined ∧
    (linkJournal definedCycle.files (l.maxLinkDepth + 1) c ⟨l, definedCycle.heap⟩).map
      LinkEvent.outline = cycleOutlines ∧
    LinkCourse definedCycle.files ⟨l, definedCycle.heap⟩ c := by
  have hclass : ∃ l ∈ definedCycle.loaders[0]?, ∃ entry ∈ l.cache["A"]?, ∃ c ∈ entry.class?,
      entry.stage? = some .defined ∧ c.name = "A" := by
    decide +kernel
  have houtlines : (definedCycle.loaders[0]?.bind fun l ↦
      (l.cache["A"]?.bind Entry.class?).map fun c ↦
        (linkJournal definedCycle.files (l.maxLinkDepth + 1) c ⟨l, definedCycle.heap⟩).map
          LinkEvent.outline) = some cycleOutlines := by
    decide +kernel
  obtain ⟨l, hl, entry, hentry, c, hc, hstage, hname⟩ := hclass
  rw [Option.mem_def.mp hl, Option.bind_some, Option.mem_def.mp hentry, Option.bind_some,
    Option.mem_def.mp hc, Option.map_some] at houtlines
  obtain rfl := Entry.eq_holds hc hstage
  have hcached : l.Has c .defined := by rwa [Has, hname]
  exact ⟨c, l, hl, hcached, Option.some.inj houtlines,
    linkCourse_of_reachable reachable_definedCycle hl
      (refers_of_has (List.mem_of_getElem? hl) hcached)⟩

end Session

end JavaClass
