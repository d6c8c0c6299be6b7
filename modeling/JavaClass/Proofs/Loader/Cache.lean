import JavaClass.Loader
import JavaClass.Proofs.Run

/-!
# The cache of a loader

What finding and defining do to a loader, said without the steps in between. A name is marked while
its class is being defined, but no one sees that: a definition either puts a class in the place of
the mark or takes the mark away again, and as long as the name was not in the cache before, the
cache is then as if nothing had happened.

`Loader.lookup` is what finding a name leads to, as a function of the loader and the files. It is
the file of the class and not the class, since the object may still have to be made. With it,
`Loader.find` has three outcomes: a class that is cached, a class that is made for the file that
was looked up, and no class, in which case nothing changes.

## Main statements

* `Loader.find_cases`: the outcomes of finding.
* `Loader.define_cases`: the outcomes of defining.
-/

namespace JavaClass

/-! ## Names -/

@[simp] theorem internalName_internalName (name : String) :
    internalName (internalName name) = internalName name := by
  rw [internalName, internalName, ← String.toList_inj, String.toList_map, String.toList_map,
    List.map_map]
  refine List.map_congr_left fun c _ ↦ ?_
  by_cases hc : c = '.' <;> simp [hc]

theorem internalName_eq_self_iff {name : String} :
    internalName name = name ↔ '.' ∉ name.toList := by
  rw [internalName, ← String.toList_inj, String.toList_map]
  constructor
  · intro h hdot
    rw [← h, List.mem_map] at hdot
    obtain ⟨c, _, hc⟩ := hdot
    split at hc
    · cases hc
    · next hne => exact hne hc
  · intro h
    have hkept : ∀ c ∈ name.toList, (if c = '.' then '/' else c) = id c := fun c hc ↦
      if_neg fun hdot : c = '.' ↦ h (hdot ▸ hc)
    rw [List.map_congr_left hkept, List.map_id]

theorem dot_notMem_internalName (name : String) : '.' ∉ (internalName name).toList :=
  internalName_eq_self_iff.mp (internalName_internalName name)

/-! ## Pointers -/

namespace Heap

theorem linksOf_congr {heap : Heap} {c d : Class} (h : c.id = d.id) :
    heap.linksOf c = heap.linksOf d := by
  rw [linksOf, linksOf, h]

@[simp] theorem size_allocate (heap : Heap) (file : ClassFile) :
    (heap.allocate file).2.links.size = heap.links.size + 1 := by
  simp [allocate]

/-- A new object points nowhere, like one that was never made. -/
@[simp] theorem linksOf_allocate (heap : Heap) (file : ClassFile) (d : Class) :
    (heap.allocate file).2.linksOf d = heap.linksOf d := by
  rw [allocate, linksOf, linksOf, Array.getElem?_push]
  split
  · next h => rw [h, Array.getElem?_eq_none (Nat.le_refl _)]; rfl
  · rfl

@[simp] theorem size_modify (heap : Heap) (c : Class) (f : Links → Links) :
    (heap.modify c f).links.size = heap.links.size := by
  simp [modify]

theorem linksOf_modify_of_ne {heap : Heap} {c d : Class} {f : Links → Links} (h : c.id ≠ d.id) :
    (heap.modify c f).linksOf d = heap.linksOf d := by
  rw [modify, linksOf, linksOf, Array.getElem?_modify, if_neg h]

theorem linksOf_modify_of_eq {heap : Heap} {c d : Class} {f : Links → Links} (h : c.id = d.id)
    (hmade : c.id < heap.links.size) : (heap.modify c f).linksOf d = f (heap.linksOf d) := by
  rw [modify, linksOf, linksOf, Array.getElem?_modify, if_pos h, ← h,
    Array.getElem?_eq_getElem hmade]
  rfl

theorem constants_setSupertypes (heap : Heap) (c : Class) (superclass : Option Class)
    (interfaces : List Class) (d : Class) :
    ((heap.setSupertypes c superclass interfaces).linksOf d).constants =
      (heap.linksOf d).constants := by
  rw [setSupertypes, modify, linksOf, linksOf, Array.getElem?_modify]
  split
  · cases heap.links[d.id]? <;> rfl
  · rfl

end Heap

/-! ## Entries -/

theorem Entry.eq_holds {entry : Entry} {c : Class} {stage : Stage} (hc : entry.class? = some c)
    (hstage : entry.stage? = some stage) : entry = .holds c stage := by
  cases entry with
  | defining => cases hc
  | holds d stage' =>
    cases hc
    cases hstage
    rfl

namespace Loader

/-! ## Entries -/

@[simp] theorem getElem?_cache_insert (loader : Loader) (key k : String) (entry : Entry) :
    (loader.insert key entry).cache[k]? = if key = k then some entry else loader.cache[k]? := by
  simp [insert, Std.ExtTreeMap.getElem?_insert]

@[simp] theorem getElem?_cache_evict (loader : Loader) (key k : String) :
    (loader.evict key).cache[k]? = if key = k then none else loader.cache[k]? := by
  simp [evict, Std.ExtTreeMap.getElem?_erase]

theorem ext_cache {l m : Loader} (hpath : l.searchPath = m.searchPath)
    (hdepth : l.maxLinkDepth = m.maxLinkDepth) (hcache : ∀ k : String, l.cache[k]? = m.cache[k]?) :
    l = m := by
  have hequal : l.cache = m.cache := Std.ExtTreeMap.ext_getElem? fun {k} ↦ hcache k
  cases l
  cases m
  congr

theorem insert_insert (loader : Loader) (key : String) (entry entry' : Entry) :
    (loader.insert key entry).insert key entry' = loader.insert key entry' := by
  refine ext_cache rfl rfl fun k ↦ ?_
  by_cases hk : key = k <;> simp [hk]

theorem evict_insert (loader : Loader) (key : String) (entry : Entry) :
    (loader.insert key entry).evict key = loader.evict key := by
  refine ext_cache rfl rfl fun k ↦ ?_
  by_cases hk : key = k <;> simp [hk]

theorem evict_of_absent {loader : Loader} {key : String} (h : loader.cache[key]? = none) :
    loader.evict key = loader := by
  refine ext_cache rfl rfl fun k ↦ ?_
  by_cases hk : key = k
  · simp [← hk, h]
  · simp [hk]

theorem mem_classes_iff {loader : Loader} {key : String} {c : Class} {stage : Stage} :
    (key, c, stage) ∈ loader.classes ↔ loader.cache[key]? = some (.holds c stage) := by
  rw [classes, List.mem_filterMap, ← Std.ExtTreeMap.mem_toList_iff_getElem?_eq_some]
  constructor
  · rintro ⟨⟨key', entry⟩, hmem, heq⟩
    cases entry with
    | defining => cases heq
    | holds d stage' =>
      cases heq
      exact hmem
  · exact fun hmem ↦ ⟨_, hmem, rfl⟩

/-- The class is in the cache, under its own name, at this stage. -/
def Has (loader : Loader) (c : Class) (stage : Stage) : Prop :=
  loader.cache[c.name]? = some (.holds c stage)

theorem Has.stage_eq {loader : Loader} {c : Class} {stage stage' : Stage}
    (h : loader.Has c stage) (h' : loader.Has c stage') : stage = stage' := by
  simpa using (Option.some.inj (h.symm.trans h'))

theorem Has.eq_of_name_eq {loader : Loader} {c d : Class} {stage stage' : Stage}
    (h : loader.Has c stage) (h' : loader.Has d stage') (hname : c.name = d.name) : c = d := by
  rw [Has, ← hname] at h'
  have heq : c = d ∧ stage = stage' := by simpa using Option.some.inj (h.symm.trans h')
  exact heq.1

theorem has_insert_self (loader : Loader) (c : Class) (stage : Stage) :
    (loader.insert c.name (.holds c stage)).Has c stage := by
  simp [Has]

theorem has_insert_iff {loader : Loader} {c d : Class} {stage stage' : Stage} :
    (loader.insert c.name (.holds c stage)).Has d stage' ↔
      d = c ∧ stage' = stage ∨ c.name ≠ d.name ∧ loader.Has d stage' := by
  by_cases hname : c.name = d.name
  · simp [Has, hname, eq_comm]
  · have hne : d ≠ c := fun h ↦ hname (by rw [h])
    simp [Has, hname, hne]

/-- Every name of the cache is spelled with slashes and has a class of that name. -/
def WellFormed (loader : Loader) : Prop :=
  ∀ ⦃key entry⦄, loader.cache[key]? = some entry →
    ∃ c stage, entry = .holds c stage ∧ c.name = key ∧ internalName key = key

theorem Has.entry?_eq {loader : Loader} {c : Class} {stage : Stage} (h : loader.Has c stage)
    {name : String} (hname : internalName name = c.name) :
    loader.entry? name = some (.holds c stage) := by
  rw [Loader.entry?, hname]
  exact h

theorem WellFormed.internalName_name {loader : Loader} (h : loader.WellFormed) {c : Class}
    {stage : Stage} (hc : loader.Has c stage) : internalName c.name = c.name := by
  obtain ⟨_, _, _, _, hname⟩ := h hc
  exact hname

theorem WellFormed.has_of_getElem? {loader : Loader} (h : loader.WellFormed) {c : Class}
    {stage : Stage} {key : String} (hc : loader.cache[key]? = some (.holds c stage)) :
    loader.Has c stage ∧ key = c.name := by
  obtain ⟨_, _, ⟨⟩, hname, _⟩ := h hc
  exact ⟨by rw [Has, hname]; exact hc, hname.symm⟩

theorem WellFormed.has_of_entry? {loader : Loader} (h : loader.WellFormed) {c : Class}
    {stage : Stage} {name : String} (hc : loader.entry? name = some (.holds c stage)) :
    loader.Has c stage ∧ internalName name = c.name := h.has_of_getElem? hc

theorem WellFormed.has_or_absent {loader : Loader} (h : loader.WellFormed) (key : String) :
    (∃ c stage, loader.Has c stage ∧ c.name = key) ∨ loader.cache[key]? = none := by
  cases hentry : loader.cache[key]? with
  | none => exact .inr rfl
  | some entry =>
    obtain ⟨c, stage, rfl, rfl, _⟩ := h hentry
    exact .inl ⟨c, stage, hentry, rfl⟩

theorem WellFormed.insert {loader : Loader} (h : loader.WellFormed) {c : Class} (stage : Stage)
    (hname : internalName c.name = c.name) :
    (loader.insert c.name (.holds c stage)).WellFormed := by
  intro key entry hentry
  rw [getElem?_cache_insert] at hentry
  split at hentry
  · next hkey =>
    cases hentry
    exact ⟨c, stage, rfl, hkey, hkey ▸ hname⟩
  · exact h hentry

theorem has_restage_iff {loader : Loader} {c d : Class} {stage stage' stage'' : Stage}
    (hc : loader.Has c stage'') :
    (loader.insert c.name (.holds c stage)).Has d stage' ↔
      d = c ∧ stage' = stage ∨ d ≠ c ∧ loader.Has d stage' := by
  rw [has_insert_iff]
  refine or_congr_right (and_congr_left fun hd ↦ not_congr ⟨fun hname ↦ ?_, fun h ↦ by rw [h]⟩)
  exact hd.eq_of_name_eq hc hname.symm

theorem exists_has_restage_iff {loader : Loader} {c d : Class} {stage stage' : Stage}
    (hc : loader.Has c stage') :
    (∃ stage'', (loader.insert c.name (.holds c stage)).Has d stage'') ↔
      ∃ stage'', loader.Has d stage'' := by
  simp only [has_restage_iff hc, exists_or, exists_and_left]
  constructor
  · rintro (⟨rfl, _⟩ | ⟨_, hd⟩)
    · exact ⟨stage', hc⟩
    · exact hd
  · intro hd
    by_cases hdc : d = c
    · exact .inl ⟨hdc, stage, rfl⟩
    · exact .inr ⟨hdc, hd⟩

/-! ## Looking up -/

/-- The first of some files that a name can be defined from; `failure` is one that came before
them. -/
def firstReadable (key : String) :
    List Bytes → (failure : Option LoadError) → Except LoadError (Option ClassFile)
  | [], none => .ok none
  | [], some e => .error e
  | contents :: rest, failure =>
    match readClass key contents with
    | .ok file => .ok (some file)
    | .error e => firstReadable key rest (failure <|> some e)

/-- The file of the class that a name leads to: that of the class in the cache, or else the one
that the class would be defined from. -/
def lookup (files : FileSystem) (loader : Loader) (name : String) :
    Except LoadError (Option ClassFile) :=
  match loader.entry? name with
  | some (.holds c _) => .ok (some c.file)
  | some .defining => .error (.reentrantDefinition (internalName name))
  | none =>
    firstReadable (internalName name) (loader.candidates files (internalName name)) none

variable {files : FileSystem} {loader : Loader}

@[simp] theorem entry?_internalName (loader : Loader) (name : String) :
    loader.entry? (internalName name) = loader.entry? name := by
  rw [Loader.entry?, entry?, internalName_internalName]

@[simp] theorem lookup_internalName (files : FileSystem) (loader : Loader) (name : String) :
    loader.lookup files (internalName name) = loader.lookup files name := by
  rw [lookup, lookup, entry?_internalName, internalName_internalName]

theorem readClass_eq_ok_iff {key : String} {contents : Bytes} {file : ClassFile} :
    readClass key contents = .ok file ↔
      (∃ rest, ClassFile.decode contents = .ok file rest) ∧ file.name = key := by
  rw [readClass]
  cases ClassFile.decode contents with
  | error e rest => simp
  | ok found rest =>
    by_cases hname : found.name = key
    · simp only [hname, if_true]
      constructor
      · rintro ⟨⟩
        exact ⟨⟨rest, rfl⟩, hname⟩
      · rintro ⟨⟨_, ⟨⟩⟩, _⟩
        rfl
    · simp only [hname, if_false]
      constructor
      · rintro ⟨⟩
      · rintro ⟨⟨_, ⟨⟩⟩, h⟩
        exact absurd h hname

theorem name_of_firstReadable {key : String} {file : ClassFile} :
    ∀ {candidates : List Bytes} {failure : Option LoadError},
      firstReadable key candidates failure = .ok (some file) → file.name = key
  | [], none, h => by cases h
  | [], some e, h => by cases h
  | contents :: rest, failure, h => by
    rw [firstReadable] at h
    split at h
    · next found hread =>
      cases h
      exact (readClass_eq_ok_iff.mp hread).2
    · exact name_of_firstReadable h

/-- The errors of a definition that fails. -/
inductive IsUndefinable (key : String) : LoadError → Prop
  | parse (source : DecodeError) : IsUndefinable key (.parse key source)
  | nameMismatch (found : String) : IsUndefinable key (.nameMismatch key found)

theorem isUndefinable_of_readClass {key : String} {contents : Bytes} {e : LoadError}
    (h : readClass key contents = .error e) : IsUndefinable key e := by
  rw [readClass] at h
  split at h
  · cases h
    exact .parse _
  · split at h
    · cases h
    · cases h
      exact .nameMismatch _

theorem isUndefinable_of_firstReadable {key : String} {e : LoadError} :
    ∀ {candidates : List Bytes} {failure : Option LoadError},
      (∀ e', failure = some e' → IsUndefinable key e') →
        firstReadable key candidates failure = .error e → IsUndefinable key e
  | [], none, _, h => by cases h
  | [], some e', hfailure, h => by
    cases h
    exact hfailure e rfl
  | contents :: rest, failure, hfailure, h => by
    rw [firstReadable] at h
    split at h
    · cases h
    · next e' hread =>
      refine isUndefinable_of_firstReadable (fun e'' he'' ↦ ?_) h
      cases failure with
      | none =>
        cases he''
        exact isUndefinable_of_readClass hread
      | some first => exact hfailure e'' he''

theorem name_of_lookup (hwf : loader.WellFormed) {name : String} {file : ClassFile}
    (h : loader.lookup files name = .ok (some file)) : file.name = internalName name := by
  rw [lookup] at h
  split at h
  · next c stage hentry =>
    cases h
    obtain ⟨_, _, ⟨⟩, hname, _⟩ := hwf hentry
    exact hname
  · cases h
  · exact name_of_firstReadable h

/-- What a name leads to that is not cached is not cached under its own name either. -/
theorem absent_of_lookup (hwf : loader.WellFormed) {name : String} {c : Class}
    (habsent : loader.entry? name = none) (h : loader.lookup files name = .ok (some c.file)) :
    loader.cache[c.name]? = none := by
  have hname : c.name = internalName name := name_of_lookup hwf h
  rwa [hname]

theorem isUndefinable_of_lookup (hwf : loader.WellFormed) {name : String} {e : LoadError}
    (h : loader.lookup files name = .error e) : IsUndefinable (internalName name) e := by
  rw [lookup] at h
  split at h
  · cases h
  · next hentry =>
    obtain ⟨_, _, ⟨⟩, _⟩ := hwf hentry
  · exact isUndefinable_of_firstReadable (fun _ h ↦ by cases h) h

/-! ## Defining and finding -/

end Loader

/-- The state after an object has been made for a class and put into the cache. -/
def LoaderState.enter (s : LoaderState) (c : Class) : LoaderState where
  loader := s.loader.insert c.name (.holds c .defined)
  heap := (s.heap.allocate c.file).2

namespace Loader

variable {files : FileSystem} {s t : LoaderState} {key name : String}

theorem has_enter_iff {c d : Class} {stage : Stage} (habsent : s.loader.cache[c.name]? = none) :
    (s.enter c).loader.Has d stage ↔ d = c ∧ stage = .defined ∨ s.loader.Has d stage := by
  rw [LoaderState.enter, has_insert_iff]
  refine or_congr_right (and_iff_right_of_imp fun hd hname ↦ ?_)
  rw [Has, ← hname, habsent] at hd
  cases hd

/-- The mark on a name while it is being defined is gone afterwards. -/
theorem defineFresh_apply (h : s.loader.cache[key]? = none) (contents : Bytes) :
    defineFresh key contents s =
      match readClass key contents with
      | .ok file => .ok ⟨s.heap.links.size, file⟩ (s.enter ⟨s.heap.links.size, file⟩)
      | .error e => .error e s := by
  rw [defineFresh, EStateM.bind_apply]
  cases hread : readClass key contents with
  | ok file =>
    obtain rfl := (readClass_eq_ok_iff.mp hread).2
    simp [modifyLoader, enter, LoaderState.enter, insert_insert, Heap.allocate, Class.name]
  | error e => simp [modifyLoader, EStateM.bind_apply, evict_insert, evict_of_absent h]

theorem defineFirst_apply (h : s.loader.cache[key]? = none) :
    ∀ (candidates : List Bytes) (failure : Option LoadError),
      defineFirst key candidates failure s =
        match firstReadable key candidates failure with
        | .ok (some file) =>
          .ok (some ⟨s.heap.links.size, file⟩) (s.enter ⟨s.heap.links.size, file⟩)
        | .ok none => .ok none s
        | .error e => .error e s
  | [], none => rfl
  | [], some e => rfl
  | contents :: rest, failure => by
    have hfresh := defineFresh_apply h contents
    rw [firstReadable]
    cases hread : readClass key contents with
    | ok file => simp [defineFirst, hfresh, hread]
    | error e =>
      -- nothing is left of the attempt, so the next one begins in the same state
      rw [hread] at hfresh
      rw [defineFirst]
      simp only [hfresh]
      exact defineFirst_apply h rest _

theorem cached?_apply (key : String) (s : LoaderState) :
    cached? key s =
      match s.loader.cache[key]? with
      | some .defining => .error (.reentrantDefinition key) s
      | some (.holds c _) => .ok (some c) s
      | none => .ok none s := rfl

theorem find_of_cached {c : Class} {stage : Stage}
    (h : s.loader.entry? name = some (.holds c stage)) : find files name s = .ok (some c) s := by
  rw [Loader.entry?] at h
  simp [find, EStateM.bind_apply, cached?_apply, h]

theorem find_of_absent (h : s.loader.entry? name = none) :
    find files name s =
      match s.loader.lookup files name with
      | .ok (some file) =>
        .ok (some ⟨s.heap.links.size, file⟩) (s.enter ⟨s.heap.links.size, file⟩)
      | .ok none => .ok none s
      | .error e => .error e s := by
  have hfirst := defineFirst_apply h (s.loader.candidates files (internalName name)) none
  rw [Loader.entry?] at h
  rw [lookup, entry?, h]
  simp only [find, EStateM.bind_apply, cached?_apply, h]
  exact hfirst

/-- **What finding does.** -/
theorem find_cases (hwf : s.loader.WellFormed) (files : FileSystem) (name : String) :
    (∃ c stage, s.loader.entry? name = some (.holds c stage) ∧
      s.loader.lookup files name = .ok (some c.file) ∧ find files name s = .ok (some c) s) ∨
    (∃ c, s.loader.entry? name = none ∧ s.loader.lookup files name = .ok (some c.file) ∧
      c.id = s.heap.links.size ∧ find files name s = .ok (some c) (s.enter c)) ∨
    (s.loader.lookup files name = .ok none ∧ find files name s = .ok none s) ∨
    (∃ e, s.loader.lookup files name = .error e ∧ find files name s = .error e s) := by
  cases hentry : s.loader.entry? name with
  | some entry =>
    obtain ⟨c, stage, rfl, _⟩ := hwf hentry
    exact .inl ⟨c, stage, rfl, by rw [lookup, hentry], find_of_cached hentry⟩
  | none =>
    have hfind : find files name s = _ := find_of_absent hentry
    cases hlookup : s.loader.lookup files name with
    | error e =>
      rw [hlookup] at hfind
      exact .inr (.inr (.inr ⟨e, rfl, hfind⟩))
    | ok found =>
      rw [hlookup] at hfind
      cases found with
      | none => exact .inr (.inr (.inl ⟨rfl, hfind⟩))
      | some file => exact .inr (.inl ⟨⟨s.heap.links.size, file⟩, rfl, rfl, rfl, hfind⟩)

theorem of_find_eq_some {c : Class} (hwf : s.loader.WellFormed)
    (h : find files name s = .ok (some c) t) :
    s.loader.lookup files name = .ok (some c.file) ∧
      ((∃ stage, s.loader.entry? name = some (.holds c stage)) ∧ t = s ∨
        s.loader.entry? name = none ∧ c.id = s.heap.links.size ∧ t = s.enter c) := by
  rcases find_cases hwf files name with ⟨c', stage, hentry, hlookup, hfind⟩ |
      ⟨c', hentry, hlookup, hid, hfind⟩ | ⟨_, hfind⟩ | ⟨e, _, hfind⟩ <;> rw [hfind] at h <;> cases h
  · exact ⟨hlookup, .inl ⟨⟨stage, hentry⟩, rfl⟩⟩
  · exact ⟨hlookup, .inr ⟨hentry, hid, rfl⟩⟩

theorem exists_has_of_find {c : Class} (hwf : s.loader.WellFormed)
    (h : find files name s = .ok (some c) t) : ∃ stage, t.loader.Has c stage := by
  obtain ⟨_, ⟨⟨stage, hentry⟩, rfl⟩ | ⟨_, _, rfl⟩⟩ := of_find_eq_some hwf h
  · exact ⟨stage, (hwf.has_of_entry? hentry).1⟩
  · exact ⟨.defined, has_insert_self _ _ _⟩

theorem of_find_eq_none (hwf : s.loader.WellFormed) (h : find files name s = .ok none t) :
    s.loader.lookup files name = .ok none ∧ t = s := by
  rcases find_cases hwf files name with ⟨c', stage, hentry, hlookup, hfind⟩ |
      ⟨c', hentry, hlookup, hid, hfind⟩ | ⟨hlookup, hfind⟩ | ⟨e, _, hfind⟩ <;>
    rw [hfind] at h <;> cases h
  exact ⟨hlookup, rfl⟩

theorem of_find_eq_error {e : LoadError} (hwf : s.loader.WellFormed)
    (h : find files name s = .error e t) :
    s.loader.lookup files name = .error e ∧ t = s := by
  rcases find_cases hwf files name with ⟨c', stage, hentry, hlookup, hfind⟩ |
      ⟨c', hentry, hlookup, hid, hfind⟩ | ⟨_, hfind⟩ | ⟨e', hlookup, hfind⟩ <;>
    rw [hfind] at h <;> cases h
  exact ⟨hlookup, rfl⟩

/-- **What defining does.** -/
theorem define_cases (hwf : s.loader.WellFormed) (name : String) (contents : Bytes) :
    (∃ c stage, s.loader.entry? name = some (.holds c stage) ∧
      define name contents s = .ok c s) ∨
    (∃ c, s.loader.entry? name = none ∧ c.name = internalName name ∧
      c.id = s.heap.links.size ∧ define name contents s = .ok c (s.enter c)) ∨
    (∃ e, IsUndefinable (internalName name) e ∧ define name contents s = .error e s) := by
  cases hentry : s.loader.entry? name with
  | some entry =>
    obtain ⟨c, stage, rfl, _⟩ := hwf hentry
    rw [Loader.entry?] at hentry
    exact .inl ⟨c, stage, rfl, by simp [define, EStateM.bind_apply, cached?_apply, hentry]⟩
  | none =>
    have hfresh := defineFresh_apply hentry contents
    rw [Loader.entry?] at hentry
    have hdefine : define name contents s = defineFresh (internalName name) contents s := by
      simp [define, EStateM.bind_apply, cached?_apply, hentry]
    rw [← hdefine] at hfresh
    cases hread : readClass (internalName name) contents with
    | ok file =>
      rw [hread] at hfresh
      exact .inr (.inl ⟨⟨s.heap.links.size, file⟩, rfl, (readClass_eq_ok_iff.mp hread).2, rfl,
        hfresh⟩)
    | error e =>
      rw [hread] at hfresh
      exact .inr (.inr ⟨e, isUndefinable_of_readClass hread, hfresh⟩)

end Loader

/-! ## Order in the cache -/

/-- The cache is in order: every key is a name with slashes and has the class of that name, and no
two classes of it are the same object. -/
structure LoaderState.Coherent (s : LoaderState) : Prop where
  wellFormed : s.loader.WellFormed
  identity : ∀ {c d stage stage'}, s.loader.Has c stage → s.loader.Has d stage' →
    c.id = d.id → c = d
  made : ∀ {c stage}, s.loader.Has c stage → c.id < s.heap.links.size

namespace LoaderState.Coherent

open Loader

variable {s : LoaderState} {c : Class}

theorem enter (h : s.Coherent) (hname : internalName c.name = c.name)
    (habsent : s.loader.cache[c.name]? = none) (hid : c.id = s.heap.links.size) :
    (s.enter c).Coherent := by
  have hne {d : Class} {stage : Stage} (hd : s.loader.Has d stage) : d.id ≠ c.id := by
    have := h.made hd
    omega
  constructor
  case wellFormed => exact h.wellFormed.insert .defined hname
  case identity =>
    intro d d' stage stage' hd hd' heq
    rw [has_enter_iff habsent] at hd hd'
    rcases hd with ⟨rfl, _⟩ | hd <;> rcases hd' with ⟨rfl, _⟩ | hd'
    · rfl
    · exact absurd heq.symm (hne hd')
    · exact absurd heq (hne hd)
    · exact h.identity hd hd' heq
  case made =>
    intro d stage hd
    rw [LoaderState.enter, Heap.size_allocate]
    rcases (has_enter_iff habsent).mp hd with ⟨rfl, _⟩ | hd
    · omega
    · exact Nat.lt_succ_of_lt (h.made hd)

theorem restage (h : s.Coherent) {stage : Stage} (hc : s.loader.Has c stage) (stage' : Stage)
    {heap : Heap} (hsize : heap.links.size = s.heap.links.size) :
    Coherent ⟨s.loader.insert c.name (.holds c stage'), heap⟩ := by
  have hold {d : Class} {stage'' : Stage}
      (hd : (s.loader.insert c.name (.holds c stage')).Has d stage'') :
      ∃ stage₀, s.loader.Has d stage₀ := (exists_has_restage_iff hc).mp ⟨stage'', hd⟩
  constructor
  case wellFormed => exact h.wellFormed.insert stage' (h.wellFormed.internalName_name hc)
  case identity =>
    intro d d' _ _ hd hd'
    obtain ⟨_, hd⟩ := hold hd
    obtain ⟨_, hd'⟩ := hold hd'
    exact h.identity hd hd'
  case made =>
    intro d _ hd
    obtain ⟨_, hd⟩ := hold hd
    exact hsize ▸ h.made hd

end LoaderState.Coherent

end JavaClass
