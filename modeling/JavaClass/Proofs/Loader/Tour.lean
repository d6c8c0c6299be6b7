import JavaClass.Proofs.Loader.Supertypes
import Mathlib.Data.Set.Card

/-!
# Tours of a hierarchy

Linking walks through a hierarchy depth first, and where it goes and whether it fails has nothing
to do with objects: it is decided by where names lead, by how deep the walk may go, and by the
names of the classes that need no visit any more. A `tour` is this walk and nothing else. It goes
from file to file and collects the names of the classes that it has come to.

Names that need no visit may be left out of account. They are those of linked classes, so a tour
that did visit them would meet no fault there and would not leave them; all it could do is to go too
deep. If the depth admits all classes that there are, the tour is the same with and without them.

## Main statements

* `Territory.tour_union`: a tour does not depend on names that have been settled before.
-/

namespace JavaClass

/-! ## Tours -/

/-- What a tour goes by: where names lead, and how many supertypes away it may get. -/
structure Territory where
  lookup : String → Except LoadError (Option ClassFile)
  maxDepth : Nat

namespace Territory

/-- Comes to a supertype that the class of `file` declares. -/
def tourSupertype (T : Territory)
    (tour : ClassFile → Finset String → Except LoadError (Finset String)) (file : ClassFile)
    (visited : Finset String) (name : String) : Except LoadError (Finset String) :=
  match T.lookup name with
  | .error e => .error e
  | .ok none => .error (.missingSupertype file.name name)
  | .ok (some found) => tour found visited

/-- Comes to all supertypes that the class of `file` declares. -/
def tourSupertypes (T : Territory)
    (tour : ClassFile → Finset String → Except LoadError (Finset String)) (file : ClassFile)
    (visited : Finset String) : Except LoadError (Finset String) :=
  match file.interfaceNames with
  | .error source => .error (.parse file.name source)
  | .ok _ => file.supertypeNames.foldlM (T.tourSupertype tour file) visited

/-- Comes to the class of a file, and goes on from there if it is not one of those already visited.
`allowance` is how many classes deep it may still go, this one included. -/
def tour (T : Territory) :
    (allowance : Nat) → ClassFile → (visited : Finset String) → Except LoadError (Finset String)
  | 0, file, visited =>
    if file.name ∈ visited then .ok visited else .error (.linkageTooDeep file.name T.maxDepth)
  | allowance + 1, file, visited =>
    if file.name ∈ visited then .ok visited
    else T.tourSupertypes (T.tour allowance) file (insert file.name visited)

variable {T : Territory} {tour : ClassFile → Finset String → Except LoadError (Finset String)}
  {file found : ClassFile} {visited visited' settled : Finset String} {name : String}
  {allowance : Nat}

theorem tour_of_mem (h : file.name ∈ visited) : T.tour allowance file visited = .ok visited := by
  cases allowance <;> rw [Territory.tour, if_pos h]

theorem tour_succ_of_not_mem (h : file.name ∉ visited) :
    T.tour (allowance + 1) file visited =
      T.tourSupertypes (T.tour allowance) file (insert file.name visited) := by
  rw [Territory.tour, if_neg h]

theorem tourSupertype_of_lookup (h : T.lookup name = .ok (some found)) :
    T.tourSupertype tour file visited name = tour found visited := by
  rw [tourSupertype, h]

theorem tourSupertypes_of_interfaceNames {names : List String}
    (h : file.interfaceNames = .ok names) :
    T.tourSupertypes tour file visited =
      file.supertypeNames.foldlM (T.tourSupertype tour file) visited := by
  rw [tourSupertypes, h]

/-! ## What has been visited stays visited -/

theorem subset_of_tourSupertype
    (htour : ∀ file visited visited', tour file visited = .ok visited' → visited ⊆ visited')
    (h : T.tourSupertype tour file visited name = .ok visited') : visited ⊆ visited' := by
  rw [tourSupertype] at h
  split at h
  · cases h
  · cases h
  · exact htour _ _ _ h

theorem subset_of_tourSupertypes
    (htour : ∀ file visited visited', tour file visited = .ok visited' → visited ⊆ visited')
    (h : T.tourSupertypes tour file visited = .ok visited') : visited ⊆ visited' := by
  rw [tourSupertypes] at h
  split at h
  · cases h
  · exact Except.of_foldlM_eq_ok (visited ⊆ ·)
      (fun _ _ _ _ hsub hstep ↦ hsub.trans (subset_of_tourSupertype htour hstep))
      (Finset.Subset.refl _) h

theorem subset_of_tour (h : T.tour allowance file visited = .ok visited') : visited ⊆ visited' := by
  induction allowance generalizing file visited visited' with
  | zero =>
    rw [Territory.tour] at h
    split at h
    · cases h
      exact Finset.Subset.refl _
    · cases h
  | succ allowance ih =>
    by_cases hmem : file.name ∈ visited
    · rw [tour_of_mem hmem] at h
      cases h
      exact Finset.Subset.refl _
    · rw [tour_succ_of_not_mem hmem] at h
      exact (Finset.subset_insert _ _).trans (subset_of_tourSupertypes (fun _ _ _ ↦ ih) h)

/-! ## Enough depth -/

def names (T : Territory) : Set String :=
  {key | ∃ name file, T.lookup name = .ok (some file) ∧ file.name = key}

/-- There are at most so many classes besides those already visited. -/
def Within (T : Territory) (visited : Finset String) (allowance : Nat) : Prop :=
  (T.names \ visited).encard ≤ allowance

theorem Within.mono (h : T.Within visited allowance) (hsub : visited ⊆ visited') :
    T.Within visited' allowance :=
  (Set.encard_le_encard (Set.sdiff_subset_sdiff_right (Finset.coe_subset.mpr hsub))).trans h

theorem mem_names (h : T.lookup name = .ok (some file)) : file.name ∈ T.names :=
  ⟨name, file, h, rfl⟩

/-- If there are no classes left, everything has been visited. -/
theorem Within.mem (h : T.Within visited 0) (hfile : T.lookup name = .ok (some file)) :
    file.name ∈ visited := by
  have hnone : T.names \ visited = ∅ := Set.encard_eq_zero.mp (nonpos_iff_eq_zero.mp h)
  exact Set.sdiff_eq_empty.mp hnone (mem_names hfile)

theorem Within.insert (h : T.Within visited (allowance + 1))
    (hfile : T.lookup name = .ok (some file)) (hmem : file.name ∉ visited) :
    T.Within (insert file.name visited) allowance := by
  have hrest : T.names \ ↑(Insert.insert file.name visited) =
      (T.names \ visited) \ {file.name} := by
    rw [Finset.coe_insert, Set.sdiff_sdiff, Set.union_singleton]
  have hcount := Set.encard_sdiff_singleton_add_one
    (show file.name ∈ T.names \ (visited : Set String) from ⟨mem_names hfile, hmem⟩)
  rw [Within, ← hcount, ← hrest] at h
  exact (ENat.add_le_add_iff_right ENat.one_ne_top).mp (by simpa using h)

/-! ## Settled names -/

/-- The classes of these names declare nothing that cannot be met, and only supertypes that are
among them. -/
def Settled (T : Territory) (settled : Finset String) : Prop :=
  ∀ ⦃name file⦄, T.lookup name = .ok (some file) → file.name ∈ settled →
    (∃ names, file.interfaceNames = .ok names) ∧
      ∀ name ∈ file.supertypeNames, ∃ found, T.lookup name = .ok (some found) ∧
        found.name ∈ settled

/-- A tour that comes to a settled class stays among these. -/
theorem Settled.exists_tour (h : T.Settled settled) (hfile : T.lookup name = .ok (some file))
    (hsettled : file.name ∈ settled) (hdepth : T.Within visited allowance) :
    ∃ visited', T.tour allowance file visited = .ok visited' ∧ visited ⊆ visited' ∧
      visited' ⊆ visited ∪ settled := by
  induction allowance generalizing name file visited with
  | zero =>
    exact ⟨visited, tour_of_mem (hdepth.mem hfile), subset_rfl, Finset.subset_union_left⟩
  | succ allowance ih =>
    by_cases hmem : file.name ∈ visited
    · exact ⟨visited, tour_of_mem hmem, subset_rfl, Finset.subset_union_left⟩
    obtain ⟨⟨names, hnames⟩, hsupertypes⟩ := h hfile hsettled
    rw [tour_succ_of_not_mem hmem, tourSupertypes_of_interfaceNames hnames]
    have hbegun : insert file.name visited ⊆ visited ∪ settled :=
      Finset.insert_subset (Finset.mem_union_right _ hsettled) Finset.subset_union_left
    have hstep : ∀ name ∈ file.supertypeNames, ∀ v,
        insert file.name visited ⊆ v ∧ v ⊆ visited ∪ settled →
          ∃ w, T.tourSupertype (T.tour allowance) file v name = .ok w ∧
            insert file.name visited ⊆ w ∧ w ⊆ visited ∪ settled := by
      rintro name hname v ⟨hv, hv'⟩
      obtain ⟨found, hfound, hsettled'⟩ := hsupertypes name hname
      obtain ⟨w, hw, hvw, hwv⟩ := ih hfound hsettled' ((hdepth.insert hfile hmem).mono hv)
      exact ⟨w, (tourSupertype_of_lookup hfound).trans hw, hv.trans hvw,
        hwv.trans (Finset.union_subset hv' Finset.subset_union_right)⟩
    obtain ⟨last, hlast, hsub, hsub'⟩ :=
      Except.exists_foldlM_eq_ok _ hstep ⟨subset_rfl, hbegun⟩
    exact ⟨last, hlast, (Finset.subset_insert _ _).trans hsub, hsub'⟩

/-- **A tour does not depend on what has been settled**, if it may go as deep as there are classes:
it fails with the same error, or it comes to the same classes besides. -/
theorem tour_union (h : T.Settled settled) (hfile : T.lookup name = .ok (some file))
    (hdepth : T.Within visited allowance) :
    T.tour allowance file (visited ∪ settled) =
      (· ∪ settled) <$> T.tour allowance file visited := by
  induction allowance generalizing name file visited with
  | zero =>
    have hmem := hdepth.mem hfile
    rw [tour_of_mem hmem, tour_of_mem (Finset.mem_union_left _ hmem)]
    rfl
  | succ allowance ih =>
    by_cases hmem : file.name ∈ visited
    · rw [tour_of_mem hmem, tour_of_mem (Finset.mem_union_left _ hmem)]
      rfl
    by_cases hsettled : file.name ∈ settled
    · -- one of them turns back at once, and the other when it has been to settled classes
      obtain ⟨visited', htour, hsub, hsub'⟩ := h.exists_tour hfile hsettled hdepth
      rw [htour, tour_of_mem (Finset.mem_union_right _ hsettled)]
      exact congrArg Except.ok (Finset.Subset.antisymm (Finset.union_subset_union_left hsub)
        (Finset.union_subset hsub' Finset.subset_union_right))
    · have hdepth' := hdepth.insert hfile hmem
      rw [tour_succ_of_not_mem hmem, tour_succ_of_not_mem (by simp [hmem, hsettled]),
        ← Finset.insert_union]
      cases hnames : file.interfaceNames with
      | error source =>
        rw [tourSupertypes, tourSupertypes, hnames]
        rfl
      | ok names =>
        rw [tourSupertypes_of_interfaceNames hnames, tourSupertypes_of_interfaceNames hnames]
        refine Except.foldlM_map_of_step (· ∪ settled) (T.Within · allowance) ?_ ?_ hdepth'
        · intro name _ v w hv hstep
          exact hv.mono (subset_of_tourSupertype (fun _ _ _ ↦ subset_of_tour) hstep)
        · intro name _ v hv
          rw [tourSupertype, tourSupertype]
          split
          · rfl
          · rfl
          · next found hfound => exact ih hfound hv

end Territory

end JavaClass
