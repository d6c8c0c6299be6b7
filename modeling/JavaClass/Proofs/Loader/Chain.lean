import JavaClass.Proofs.Loader.Breakdown
import JavaClass.Proofs.Loader.History

/-!
# Chains of superclasses

On a chain, where each class extends the next one and nothing else, a tour has no choice. It comes
to the classes one after the other until the chain ends, or until it meets a class that has been
visited, or until it has gone as deep as it may. The depth is counted in classes that it has to
visit: the class at which it turns back, because that one is linked already, takes no depth, and
neither does what comes after the last class.

A tour that goes too deep breaks down at the first class that it may not visit, in the midst of all
those before. So a failure leaves nothing behind.

## Main definitions

* `ClassFile.Chain`: class files of which each extends the next one.

## Main statements

* `Territory.Leads.exists_tour_eq_ok` and `Territory.Leads.tour_eq_error`: how a tour of a chain
  ends.
* `Loader.load_chain_ok` and `Loader.load_chain_error`: how loading the first class of a chain ends.
-/

namespace JavaClass

/-! ## Chains -/

namespace ClassFile

/-- Of the class files `C 0` to `C n` each extends the next one, and the last extends nothing. They
have different names, and none of them declares interfaces. -/
structure Chain (C : Nat → ClassFile) (n : Nat) : Prop where
  superclass : ∀ i < n, ∃ name, (C i).superclass.map Symbol.text = some name ∧
    internalName name = (C (i + 1)).name
  last : (C n).superclass = none
  interfaces : ∀ i ≤ n, (C i).interfaces = []
  name_inj : ∀ i ≤ n, ∀ j ≤ n, (C i).name = (C j).name → i = j

variable {C : Nat → ClassFile} {n i : Nat}

theorem Chain.tail (h : Chain C (n + 1)) : Chain (fun i ↦ C (i + 1)) n where
  superclass := fun i hi ↦ h.superclass (i + 1) (Nat.succ_lt_succ hi)
  last := h.last
  interfaces := fun i hi ↦ h.interfaces (i + 1) (Nat.succ_le_succ hi)
  name_inj := fun i hi j hj hname ↦
    Nat.succ.inj (h.name_inj (i + 1) (Nat.succ_le_succ hi) (j + 1) (Nat.succ_le_succ hj) hname)

theorem Chain.interfaceNames (h : Chain C n) (hi : i ≤ n) : (C i).interfaceNames = .ok [] := by
  rw [interfaceNames_eq_ok_iff, h.interfaces i hi]
  exact .nil

theorem Chain.supertypeNames (h : Chain C n) (hi : i ≤ n) :
    (C i).supertypeNames = ((C i).superclass.map Symbol.text).toList :=
  supertypeNames_eq (h.interfaceNames hi)

end ClassFile

namespace Territory

/-- The classes of a chain are found where they are expected. -/
structure Leads (T : Territory) (C : Nat → ClassFile) (n : Nat) : Prop extends
    ClassFile.Chain C n where
  lookup : ∀ i < n, ∀ name, (C i).superclass.map Symbol.text = some name →
    T.lookup name = .ok (some (C (i + 1)))

variable {T : Territory} {C : Nat → ClassFile} {n i k allowance : Nat} {visited : Finset String}
  {tour : ClassFile → Finset String → Except LoadError (Finset String)}
  {breakdown : ClassFile → Finset String → Breakdown} {e : LoadError}

namespace Leads

theorem tourSupertypes_of_lt (h : T.Leads C n) (hi : i < n) :
    T.tourSupertypes tour (C i) visited = tour (C (i + 1)) visited := by
  obtain ⟨name, hname, _⟩ := h.superclass i hi
  rw [tourSupertypes_of_interfaceNames (h.interfaceNames hi.le), h.supertypeNames hi.le, hname,
    Option.toList_some, List.foldlM_cons, tourSupertype_of_lookup (h.lookup i hi name hname)]
  simp

theorem tourSupertypes_last (h : T.Leads C n) :
    T.tourSupertypes tour (C n) visited = .ok visited := by
  rw [tourSupertypes_of_interfaceNames (h.interfaceNames le_rfl), h.supertypeNames le_rfl, h.last]
  rfl

theorem breakdownSupertypes_of_lt (h : T.Leads C n) (hi : i < n)
    (htour : tour (C (i + 1)) visited = .error e) :
    T.breakdownSupertypes tour breakdown (C i) visited =
      (breakdown (C (i + 1)) visited).within (C i).name := by
  obtain ⟨name, hname, _⟩ := h.superclass i hi
  rw [breakdownSupertypes, h.interfaceNames hi.le, h.supertypeNames hi.le, hname,
    Option.toList_some]
  exact congrArg (Breakdown.within · (C i).name)
    (breakdownAmong_of_error (h.lookup i hi name hname) htour)

theorem not_mem_insert (h : T.Leads C n) (hk : k ≤ n + 1)
    (hnew : ∀ j, i ≤ j → j < k → (C j).name ∉ visited) {j : Nat} (hj : i + 1 ≤ j) (hj' : j < k) :
    (C j).name ∉ insert (C i).name visited := by
  rw [Finset.mem_insert, not_or]
  refine ⟨fun hname ↦ ?_, hnew j (by omega) hj'⟩
  have := h.name_inj j (by omega) i (by omega) hname
  omega

/-- **A tour that may go deep enough succeeds.** The class `C k` has been visited, or it would come
after the last one. -/
theorem exists_tour_eq_ok (h : T.Leads C n) (hk : k ≤ n + 1)
    (hend : k ≤ n → (C k).name ∈ visited) (hi : i < k)
    (hnew : ∀ j, i ≤ j → j < k → (C j).name ∉ visited) (hdepth : k ≤ i + allowance) :
    ∃ visited', T.tour allowance (C i) visited = .ok visited' := by
  induction allowance generalizing i visited with
  | zero => omega
  | succ allowance ih =>
    rw [tour_succ_of_not_mem (hnew i le_rfl hi)]
    rcases Nat.lt_or_ge i n with hlt | hge
    · rw [h.tourSupertypes_of_lt hlt]
      have hend' (hkn : k ≤ n) : (C k).name ∈ insert (C i).name visited :=
        Finset.mem_insert_of_mem (hend hkn)
      rcases Nat.lt_or_eq_of_le (Nat.succ_le_of_lt hi) with hnext | rfl
      · exact ih hend' hnext (fun j ↦ h.not_mem_insert hk hnew) (by omega)
      · exact ⟨_, tour_of_mem (hend' hlt)⟩
    · obtain rfl : i = n := by omega
      exact ⟨_, h.tourSupertypes_last⟩

/-- **A tour that would have to go deeper fails**, and it leaves nothing behind. -/
theorem tour_eq_error (h : T.Leads C n) (hk : k ≤ n + 1)
    (hnew : ∀ j, i ≤ j → j < k → (C j).name ∉ visited) (hdepth : i + allowance < k) :
    T.tour allowance (C i) visited =
        .error (.linkageTooDeep (C (i + allowance)).name T.maxDepth) ∧
      (T.breakdown allowance (C i) visited).visited ⊆
        visited ∪ (T.breakdown allowance (C i) visited).path := by
  induction allowance generalizing i visited with
  | zero =>
    rw [Territory.tour, if_neg (hnew i le_rfl hdepth), Territory.breakdown]
    refine ⟨rfl, ?_⟩
    rw [Finset.union_comm, ← Finset.insert_eq]
  | succ allowance ih =>
    have hlt : i < n := by omega
    have hnext : i + 1 + allowance = i + (allowance + 1) := by omega
    obtain ⟨htour, hbreakdown⟩ :=
      ih (fun j ↦ h.not_mem_insert hk hnew) (by rw [hnext]; exact hdepth)
    rw [tour_succ_of_not_mem (hnew i le_rfl (by omega)), h.tourSupertypes_of_lt hlt, ← hnext,
      Territory.breakdown, h.breakdownSupertypes_of_lt hlt htour]
    refine ⟨htour, hbreakdown.trans ?_⟩
    rw [Breakdown.within, Finset.insert_union, Finset.union_insert]

end Leads

end Territory

/-! ## Loading a chain -/

namespace Loader

variable {files : FileSystem} {l : Loader} {s t : LoaderState} {C : Nat → ClassFile} {n i k : Nat}
  {c : Class} {name : String}

theorem leads_territory (hchain : ClassFile.Chain C n)
    (hleads : ∀ i ≤ n, l.lookup files (C i).name = .ok (some (C i))) :
    (l.territory files).Leads C n where
  toChain := hchain
  lookup := by
    intro i hi name hname
    obtain ⟨name', hname', hkey⟩ := hchain.superclass i hi
    obtain rfl := Option.some.inj (hname'.symm.trans hname)
    change l.lookup files name' = _
    rw [← lookup_internalName, hkey]
    exact hleads (i + 1) hi

/-- The loader has linked a class of this file. -/
def HasLinked (loader : Loader) (file : ClassFile) : Prop :=
  ∃ c, c.file = file ∧ loader.Has c .linked

theorem HasLinked.mem_linkedNames {file : ClassFile} (h : l.HasLinked file) :
    file.name ∈ l.linkedNames := by
  obtain ⟨c, rfl, hc⟩ := h
  exact mem_linkedNames_iff.mpr ⟨c, hc⟩

theorem not_mem_linkedNames_of_absent {key : String} (h : l.cache[key]? = none) :
    key ∉ l.linkedNames := by
  rw [mem_linkedNames_iff, h]
  simp

theorem lookup_eq_of_load (h : s.AtRest) (hrun : load files name s = .ok (some c) t)
    (name' : String) : t.loader.lookup files name' = s.loader.lookup files name' := by
  obtain ⟨found, u, hfind, hrest⟩ := EStateM.bind_eq_ok_iff.mp hrun
  cases found with
  | none => cases hrest
  | some d =>
    obtain ⟨_, v, hlink, hlast⟩ := EStateM.bind_eq_ok_iff.mp hrest
    cases hlast
    have hgrown := LoaderState.grown_find files name h
    have hu := (LoaderState.evolves_find files name h).atRest
    rw [hfind] at hgrown hu
    obtain ⟨stage, hd⟩ := exists_has_of_find h.wellFormed hfind
    obtain ⟨⟨w, hw, rfl⟩, _⟩ := link_ok hu (supertypeClosed_true _ _) hd trivial hlink
    exact (hw.lookup_eq hu.wellFormed name').trans (hgrown.lookup_eq h.wellFormed name')

/-- **Loading the first class of a chain succeeds** if the limit admits the classes before `C k`,
which is linked or would come after the last one. -/
theorem load_chain_ok (h : s.AtRest) (hchain : ClassFile.Chain C n)
    (hleads : ∀ i ≤ n, s.loader.lookup files (C i).name = .ok (some (C i))) (hk : k ≤ n + 1)
    (hend : k ≤ n → (C k).name ∈ s.loader.linkedNames)
    (hnew : ∀ j < k, (C j).name ∉ s.loader.linkedNames) (hdepth : k ≤ s.loader.maxLinkDepth + 1) :
    ∃ c t, load files (C 0).name s = .ok (some c) t ∧ c.file = C 0 := by
  have hlookup := hleads 0 (Nat.zero_le n)
  obtain ⟨visited, htour⟩ : ∃ visited,
      (s.loader.territory files).tour (s.loader.maxLinkDepth + 1) (C 0) s.loader.linkedNames =
        .ok visited := by
    rcases Nat.eq_zero_or_pos k with rfl | hpos
    · exact ⟨_, Territory.tour_of_mem (hend (Nat.zero_le n))⟩
    · exact (leads_territory hchain hleads).exists_tour_eq_ok hk hend hpos (fun j _ ↦ hnew j)
        (by omega)
  have hloadTour : s.loader.loadTour files (C 0).name = .ok (some (C 0, visited)) := by
    rw [loadTour, hlookup]
    dsimp only
    rw [htour]
    rfl
  rcases load_cases files (C 0).name h with ⟨e, t, _, he, _⟩ | ⟨_, he⟩ | ⟨c, t, hload, he⟩ <;>
    rw [hloadTour] at he
  · cases he
  · cases he
  · exact ⟨c, t, hload, (Prod.mk.inj (Option.some.inj (Except.ok.inj he))).1.symm⟩

/-- Whatever the limit, the class before a linked one can be loaded. -/
theorem load_chain_of_next (h : s.AtRest) (hchain : ClassFile.Chain C n)
    (hleads : ∀ i ≤ n, s.loader.lookup files (C i).name = .ok (some (C i)))
    (hnext : 1 ≤ n → s.loader.HasLinked (C 1)) :
    ∃ c t, load files (C 0).name s = .ok (some c) t ∧ c.file = C 0 := by
  by_cases hlinked : (C 0).name ∈ s.loader.linkedNames
  · exact load_chain_ok h hchain hleads (k := 0) (Nat.zero_le _) (fun _ ↦ hlinked)
      (fun _ hj ↦ absurd hj (Nat.not_lt_zero _)) (Nat.zero_le _)
  · refine load_chain_ok h hchain hleads (k := 1) (by omega) (fun hn ↦ (hnext hn).mem_linkedNames)
      (fun j hj ↦ ?_) (by omega)
    rwa [Nat.lt_one_iff.mp hj]

/-- **Loading the first class of a chain fails** if the limit does not admit the classes before
`C k`, and no class is cached then that was not before. -/
theorem load_chain_error (h : s.AtRest) (hchain : ClassFile.Chain C n)
    (hleads : ∀ i ≤ n, s.loader.lookup files (C i).name = .ok (some (C i))) (hk : k ≤ n + 1)
    (hnew : ∀ j < k, (C j).name ∉ s.loader.linkedNames) (hdepth : s.loader.maxLinkDepth + 1 < k) :
    ∃ t, load files (C 0).name s =
        .error (.linkageTooDeep (C (s.loader.maxLinkDepth + 1)).name s.loader.maxLinkDepth) t ∧
      ∀ key : String, s.loader.cache[key]? = none → t.loader.cache[key]? = none := by
  have hlookup := hleads 0 (Nat.zero_le n)
  have hdepth' : 0 + (s.loader.maxLinkDepth + 1) < k := by omega
  obtain ⟨htour, hbreakdown⟩ :=
    (leads_territory hchain hleads).tour_eq_error hk (fun j _ ↦ hnew j) hdepth'
  rw [Nat.zero_add] at htour
  have hloadTour : s.loader.loadTour files (C 0).name = .error (.linkageTooDeep
      (C (s.loader.maxLinkDepth + 1)).name s.loader.maxLinkDepth) := by
    rw [loadTour, hlookup]
    dsimp only
    rw [htour]
    rfl
  rcases load_cases files (C 0).name h with ⟨e, t, hload, he, _⟩ | ⟨_, he⟩ | ⟨c, t, _, he⟩ <;>
    rw [hloadTour] at he <;> cases he
  refine ⟨t, hload, fun key habsent ↦ ?_⟩
  have hmem := mem_cache_of_load_error h hload key
  rw [loadBreakdown, hlookup, Std.ExtTreeMap.mem_iff_isSome_getElem?,
    Std.ExtTreeMap.mem_iff_isSome_getElem?, habsent] at hmem
  rw [Option.eq_none_iff_forall_not_mem]
  intro entry hentry
  rw [Option.mem_def.mp hentry] at hmem
  obtain ⟨hcached | hvisited, hpath⟩ := hmem.mp rfl
  · cases hcached
  · -- what the tour has visited was linked before, or it is on the path that is removed
    rcases Finset.mem_union.mp (hbreakdown hvisited) with hlinked | hmem
    · exact not_mem_linkedNames_of_absent habsent hlinked
    · exact hpath hmem

theorem hasLinked_of_le (h : s.AtRest) (hchain : ClassFile.Chain C n)
    (hleads : ∀ i ≤ n, s.loader.lookup files (C i).name = .ok (some (C i)))
    (hk : s.loader.HasLinked (C k)) (hi : k ≤ i) (hin : i ≤ n) : s.loader.HasLinked (C i) := by
  induction i, hi using Nat.le_induction with
  | base => exact hk
  | succ i hi ih =>
    obtain ⟨c, hfile, hc⟩ := ih (Nat.le_of_succ_le hin)
    obtain ⟨name, hname, hkey⟩ := hchain.superclass i hin
    have hrel := (h.points hc).superclass
    rw [Class.superName, hfile, hname] at hrel
    generalize (s.heap.linksOf c).superclass = superclass at hrel
    cases hrel with
    | some hentry =>
      rename_i p
      have hlookup := hleads (i + 1) hin
      rw [← hkey, lookup_internalName, lookup, hentry] at hlookup
      exact ⟨p, Option.some.inj (Except.ok.inj hlookup), (h.wellFormed.has_of_entry? hentry).1⟩

end Loader

end JavaClass
