import JavaClass.Proofs.Loader.History
import JavaClass.Proofs.Session.LinkClosure

/-!
# Loading does not depend on history

A run that only finds, loads, links and resolves leaves behind caches that may differ in
everything: classes that are linked, classes that a failed call left merely defined, names whose
class was evicted and made anew. None of this shows in what loading answers. Every name can be
loaded exactly if a fresh loader could load it, the class has the same file, and otherwise the
error is the same.

So the order of loads does not matter either: each has the same outcome wherever it comes, and in
the end the same names are linked.

All of this is for a limit that admits every class file to which a name can lead, and there may be
some outside of the search path. The class files under its directories are not enough to go by.

## Main statements

* `Session.StemsFrom.step`: what each loader has is what it would have found at the beginning.
* `Session.load_independent_of_history`: the outcome of loading.
* `Session.load_depends_on_history`: what can happen below that limit.
-/

namespace JavaClass

/-- The operation addresses one of so many loaders, if it addresses any, and it defines classes only
from the files that there are. -/
def SessionOp.OnlyLoads (count : Nat) : SessionOp → Prop
  | .find loader _ _ | .load loader _ _ | .link loader _ | .resolve loader _ _ _ => loader < count
  | .constant .. | .superclass .. | .interface .. | .drop _ => True
  | .define .. | .addDirectory .. | .writeFile .. | .removeFile .. | .reset _ => False

theorem SessionOp.OnlyLoads.worksOn {count : Nat} {op : SessionOp} (h : op.OnlyLoads count) :
    op.WorksOn count := by
  cases op <;> first | exact h | exact h.elim

theorem FileSystem.eq_or_read_of_read_write {files : FileSystem} {path p : Path}
    {contents contents' : Bytes} (h : (files.write path contents).read p = some contents') :
    p = path ∨ files.read p = some contents' := by
  rw [write] at h
  split at h
  · by_cases hp : p = path
    · exact .inl hp
    · exact .inr (by simpa [hp] using h)
  · exact .inr h

namespace Session

open Loader

variable {start s t : Session} {l m o : Loader} {c : Class} {number : Nat} {op : SessionOp}
  {ops : List SessionOp} {name : String}

/-! ## Caches that stem from the beginning -/

/-- Each loader has only what it would have found in the session `start`, and the files are still
those of that session. -/
structure StemsFrom (start s : Session) : Prop where
  files_eq : s.files = start.files
  length_eq : s.loaders.length = start.loaders.length
  foundBy : ∀ {i : Nat} {o l}, start.loaders[i]? = some o → s.loaders[i]? = some l →
    FoundBy start.files o l

theorem Fresh.stemsFrom (h : start.Fresh) : start.StemsFrom start where
  files_eq := rfl
  length_eq := rfl
  foundBy := fun {i o l} ho hl ↦ by
    obtain rfl := Option.some.inj (ho.symm.trans hl)
    exact (h.sound.atRest (List.mem_of_getElem? ho)).grown.foundBy

theorem StemsFrom.congr (h : start.StemsFrom s) (hfiles : t.files = s.files)
    (hloaders : t.loaders = s.loaders) : start.StemsFrom t where
  files_eq := hfiles.trans h.files_eq
  length_eq := by rw [hloaders, h.length_eq]
  foundBy := fun ho hl ↦ h.foundBy ho (hloaders ▸ hl)

theorem StemsFrom.resume (h : start.StemsFrom s) (hstart : start.Fresh) (hs : s.Sound)
    (hl : s.loaders[number]? = some l) {u : LoaderState} (hu : FoundBy s.files l u.loader) :
    start.StemsFrom (s.resume number u) where
  files_eq := h.files_eq
  length_eq := List.length_set.trans h.length_eq
  foundBy := fun {i o m} ho hm ↦ by
    rw [getElem?_loaders_resume hl] at hm
    split at hm
    · next hi =>
      subst hi
      cases hm
      have hfound := h.foundBy ho hl
      rw [h.files_eq] at hu
      exact hfound.trans hu (hfound.lookup_eq (hstart.cache o (List.mem_of_getElem? ho))
        (hs.atRest (List.mem_of_getElem? hl)).wellFormed)
    · exact h.foundBy ho hm

/-! ## Operations -/

/-- A call that is not for a definition from bytes at hand, nor for the search path, leaves only
what could be found before. -/
theorem Calls.foundBy {f : LoaderState → LoaderState} (hcall : s.Calls op number f) (hs : s.Sound)
    (hl : s.loaders[number]? = some l)
    (hdefine : ∀ name contents as, op ≠ .define number name contents as)
    (hpath : ∀ directory, op ≠ .addDirectory number directory) :
    FoundBy s.files l (f ⟨l, s.heap⟩).loader := by
  have hmem := List.mem_of_getElem? hl
  have hrest := hs.atRest hmem
  cases hcall with
  | find _ name _ => exact (LoaderState.grown_find s.files name hrest).foundBy
  | load _ name _ => exact LoaderState.foundBy_load s.files name hrest
  | define _ name contents as => exact absurd rfl (hdefine name contents as)
  | link _ hheld =>
    exact LoaderState.foundBy_link s.files hrest
      fun _ _ hd ↦ hs.identity (refers_of_has hmem hd) (refers_of_held hheld)
  | resolve _ _ _ _ name => exact LoaderState.foundBy_load s.files name hrest
  | addDirectory _ directory => exact absurd rfl (hpath directory)

theorem Sound.foundBy_of_load (hs : s.Sound) (hl : s.loaders[number]? = some l)
    {found : Option Class} {u : LoaderState}
    (hload : Loader.load s.files name ⟨l, s.heap⟩ = .ok found u) :
    FoundBy s.files l u.loader := by
  simpa [hload] using
    LoaderState.foundBy_load s.files name (hs.atRest (List.mem_of_getElem? hl))

theorem Becomes.stemsFrom (hbecomes : s.Becomes op t) (h : start.StemsFrom s)
    (hstart : start.Fresh) (hs : s.Sound) (hop : op.OnlyLoads s.loaders.length) :
    start.StemsFrom t := by
  induction hbecomes with
  | same => exact h
  | write path contents => exact hop.elim
  | remove path => exact hop.elim
  | call hl hcall =>
    refine h.resume hstart hs hl (hcall.foundBy hs hl ?_ ?_)
    · rintro _ _ _ rfl
      exact hop
    · rintro _ rfl
      exact hop
  | record _ _ _ hl hload =>
    exact (h.resume hstart hs hl (hs.foundBy_of_load hl hload)).congr rfl rfl
  | hold _ _ ih => exact (ih hop).congr rfl rfl

/-- **What each loader has is what it would have found at the beginning**, after every operation
that defines classes only from the files that there are. -/
theorem StemsFrom.step (h : start.StemsFrom s) (hstart : start.Fresh) (hs : s.Sound)
    (hop : op.OnlyLoads s.loaders.length) : start.StemsFrom (Session.step op s).2 :=
  (hs.becomes_step hop.worksOn).stemsFrom h hstart hs hop

theorem StemsFrom.run (h : start.StemsFrom s) (hstart : start.Fresh) (hs : s.Sound)
    (hops : ∀ op ∈ ops, op.OnlyLoads start.loaders.length) :
    (run ops s).Sound ∧ start.StemsFrom (run ops s) := by
  rw [← h.length_eq] at hops
  have hworks (op : SessionOp) (hop : op ∈ ops) : op.WorksOn s.loaders.length :=
    (hops op hop).worksOn
  refine ⟨hs.run hworks, hs.of_run start.StemsFrom hworks ?_ h⟩
  intro op hop t u ht hlength hbecomes hstems
  exact hbecomes.stemsFrom hstems hstart ht (hlength ▸ hops op hop)

/-! ## Outcomes -/

/-- What a call that yields a class leads to, whatever the object is: an error, or the file of the
class if there is one. -/
def outcome : EStateM.Result LoadError Session (Option Class) → Except LoadError (Option ClassFile)
  | .ok found _ => .ok (found.map Class.file)
  | .error e _ => .error e

def loads (number : Nat) (names : List String) : List SessionOp :=
  names.map fun name ↦ .load number name none

def outcomes (number : Nat) : List String → Session → List (Except LoadError (Option ClassFile))
  | [], _ => []
  | name :: names, s =>
    outcome (load number name s) :: outcomes number names (step (.load number name none) s).2

theorem snd_step_load (number : Nat) (name : String) (s : Session) :
    (step (.load number name none) s).2 = (load number name s).state := by
  rw [step, answerFound]
  cases load number name s <;> rfl

theorem StemsFrom.after_load (h : start.StemsFrom s) (hstart : start.Fresh) (hs : s.Sound)
    (ho : start.loaders[number]? = some o) (name : String) :
    start.StemsFrom (Session.step (.load number name none) s).2 ∧
      (Session.step (.load number name none) s).2.Sound := by
  have hop : SessionOp.OnlyLoads s.loaders.length (.load number name none) :=
    h.length_eq.symm ▸ (List.getElem?_eq_some_iff.mp ho).1
  exact ⟨h.step hstart hs hop, (hs.step hop.worksOn).1⟩

section

variable (hstart : start.Fresh) (ho : start.loaders[number]? = some o)
  (hdepth : (o.classFiles start.files).encard ≤ o.maxLinkDepth)

include hstart ho hdepth

theorem load_of_stemsFrom (h : start.StemsFrom s) (hs : s.Sound) (hl : s.loaders[number]? = some l)
    (name : String) :
    outcome (load number name s) = Option.map Prod.fst <$> o.loadTour start.files name ∧
      ∃ m, (load number name s).state.loaders[number]? = some m ∧
        m.linkedNames = l.linkedNames ∪ o.reached start.files name := by
  have hrest := hs.atRest (List.mem_of_getElem? hl)
  have hempty := hstart.cache o (List.mem_of_getElem? ho)
  obtain ⟨hlinked, hcases⟩ := (h.foundBy ho hl).load_cases hempty hrest hdepth name
  rw [← h.files_eq] at hlinked hcases ⊢
  have hrun : load number name s = _ := runLoader_apply hl (Loader.load s.files name)
  rw [hrun]
  constructor
  · rcases hcases with ⟨e, t, hload, hlead⟩ | ⟨t, hload, hlead⟩ | ⟨c, t, visited, hload, hlead⟩ <;>
      rw [hload, hlead] <;> rfl
  · rw [← hrun]
    refine ⟨_, ?_, hlinked⟩
    have hstate : (load number name s).state = _ := state_runLoader hl (Loader.load s.files name)
    rw [hstate]
    exact getElem?_loaders_resume_self hl _

theorem outcome_load (h : start.StemsFrom s) (hs : s.Sound) (name : String) :
    outcome (load number name s) = outcome (load number name start) := by
  have hlt := (List.getElem?_eq_some_iff.mp ho).1
  have hl := List.getElem?_eq_getElem (h.length_eq.symm ▸ hlt)
  rw [(load_of_stemsFrom hstart ho hdepth h hs hl name).1,
    (load_of_stemsFrom hstart ho hdepth hstart.stemsFrom hstart.sound ho name).1]

theorem outcomes_eq (h : start.StemsFrom s) (hs : s.Sound) (names : List String) :
    outcomes number names s = names.map fun name ↦ outcome (load number name start) := by
  induction names generalizing s with
  | nil => rfl
  | cons name names ih =>
    obtain ⟨hstems, hsound⟩ := h.after_load hstart hs ho name
    rw [outcomes, outcome_load hstart ho hdepth h hs, List.map_cons, ih hstems hsound]

/-- After some loads those names are linked that were linked before or that one of them reaches. -/
theorem mem_linkedNames_run_loads (h : start.StemsFrom s) (hs : s.Sound) {names : List String}
    (hl : s.loaders[number]? = some l) (hm : (run (loads number names) s).loaders[number]? = some m)
    {key : String} :
    key ∈ m.linkedNames ↔
      key ∈ l.linkedNames ∨ ∃ name ∈ names, key ∈ o.reached start.files name := by
  induction names generalizing s l with
  | nil =>
    obtain rfl := Option.some.inj (hl.symm.trans hm)
    simp
  | cons name names ih =>
    obtain ⟨hstems, hsound⟩ := h.after_load hstart hs ho name
    obtain ⟨_, k, hk, hlinked⟩ := load_of_stemsFrom hstart ho hdepth h hs hl name
    rw [← snd_step_load] at hk
    rw [ih hstems hsound hk hm, hlinked, Finset.mem_union, or_assoc]
    simp

end

/-- **Loading does not depend on history.** If the limit of a loader admits all class files to which
names lead from its directories, then after any run that defines classes only from files every name
can be loaded with the same outcome as at the beginning. So of some loads in a row each has the
outcome that it would have had alone, and which names are linked in the end does not depend on their
order. -/
theorem load_independent_of_history (hstart : start.Fresh) (ho : start.loaders[number]? = some o)
    (hdepth : (o.classFiles start.files).encard ≤ o.maxLinkDepth)
    (hops : ∀ op ∈ ops, op.OnlyLoads start.loaders.length) :
    (∀ name, outcome (load number name (run ops start)) = outcome (load number name start)) ∧
      (∀ names, outcomes number names (run ops start) =
        names.map fun name ↦ outcome (load number name start)) ∧
      ∀ names names' : List String, names.Perm names' → ∀ l l',
        (run (loads number names) (run ops start)).loaders[number]? = some l →
          (run (loads number names') (run ops start)).loaders[number]? = some l' →
            ∀ key : String, (∃ c, l.cache[key]? = some (.holds c .linked)) ↔
              ∃ c, l'.cache[key]? = some (.holds c .linked) := by
  obtain ⟨hs, h⟩ := hstart.stemsFrom.run hstart hstart.sound hops
  refine ⟨outcome_load hstart ho hdepth h hs, outcomes_eq hstart ho hdepth h hs, ?_⟩
  intro names names' hperm l l' hl hl' key
  have hlt := (List.getElem?_eq_some_iff.mp ho).1
  have hk := List.getElem?_eq_getElem (h.length_eq.symm ▸ hlt)
  rw [← mem_linkedNames_iff, ← mem_linkedNames_iff,
    mem_linkedNames_run_loads hstart ho hdepth h hs hk hl,
    mem_linkedNames_run_loads hstart ho hdepth h hs hk hl']
  simp only [hperm.mem_iff]

/-- A loader for two classes that extend each other and one whose superclass is missing. -/
def threeFiles : Session where
  files := cycle.files.write ⟨false, ["C.class"]⟩ (letterClass 67 68)
  loaders := [{ searchPath := ["."], maxLinkDepth := 3 }]

theorem fresh_threeFiles : threeFiles.Fresh where
  cache := by simp [threeFiles]
  heap := rfl
  held := rfl

theorem mem_of_read_threeFiles {path : Path} {contents : Bytes}
    (h : threeFiles.files.read path = some contents) :
    path ∈ ({⟨false, ["A.class"]⟩, ⟨false, ["B.class"]⟩, ⟨false, ["C.class"]⟩} : Finset Path) := by
  simp only [threeFiles, cycle] at h
  obtain rfl | h := FileSystem.eq_or_read_of_read_write h
  · decide
  obtain rfl | h := FileSystem.eq_or_read_of_read_write h
  · decide
  obtain rfl | h := FileSystem.eq_or_read_of_read_write h
  · decide
  · cases h

/-- A failure has evicted one class by then, and the other two are linked. -/
theorem load_independent_of_history_threeFiles :
    let s := run [.find 0 "B" none, .load 0 "C" none, .load 0 "A" none] threeFiles
    outcome (load 0 "C" s) = .error (.missingSupertype "C" "D") ∧
      outcomes 0 ["C", "B"] s =
        [.error (.missingSupertype "C" "D"), outcome (load 0 "B" threeFiles)] ∧
      ∀ l l', (run (loads 0 ["C", "B"]) s).loaders[0]? = some l →
        (run (loads 0 ["B", "C"]) s).loaders[0]? = some l' →
          ∀ key : String, (∃ c, l.cache[key]? = some (.holds c .linked)) ↔
            ∃ c, l'.cache[key]? = some (.holds c .linked) := by
  intro s
  have hdepth : (Loader.classFiles threeFiles.files
      { searchPath := ["."], maxLinkDepth := 3 }).encard ≤ (3 : ℕ) := by
    refine (Set.encard_le_encard fun path hpath ↦ ?_).trans
      (Set.encard_coe_eq_coe_finsetCard
        ({⟨false, ["A.class"]⟩, ⟨false, ["B.class"]⟩, ⟨false, ["C.class"]⟩} : Finset Path)).le
    obtain ⟨_, _, _, _, contents, _, _, hread, _⟩ := hpath
    exact mem_of_read_threeFiles hread
  have hloader : threeFiles.loaders[0]? = some { searchPath := ["."], maxLinkDepth := 3 } := rfl
  have hops : ∀ op ∈ [SessionOp.find 0 "B" none, .load 0 "C" none, .load 0 "A" none],
      op.OnlyLoads threeFiles.loaders.length := by
    simp [SessionOp.OnlyLoads, threeFiles]
  obtain ⟨halone, hrow, horder⟩ :=
    load_independent_of_history fresh_threeFiles hloader hdepth hops
  have hC : outcome (load 0 "C" threeFiles) = .error (.missingSupertype "C" "D") := by
    decide +kernel
  refine ⟨(halone "C").trans hC, ?_, horder _ _ (.swap _ _ _)⟩
  rw [hrow, List.map_cons, hC]
  rfl

/-! ### Files elsewhere

A name that begins with a slash leads to an absolute path, whatever the directories are. So a class
can have supertypes that are in none of them, and a limit that admits the class files of the
directories need not admit these. -/

/-- A loader whose directory has one class file. The class extends one that is elsewhere, and that
one extends another. -/
def filesElsewhere : Session where
  files := ((FileSystem.empty.write
    ⟨true, ["root", "A.class"]⟩ (classExtending [65] [47, 66])).write
    ⟨true, ["B.class"]⟩ (classExtending [47, 66] [47, 67])).write
    ⟨true, ["C.class"]⟩ (classExtending [47, 67] [47, 67])
  loaders := [{ searchPath := ["/root"], maxLinkDepth := 1 }]

theorem fresh_filesElsewhere : filesElsewhere.Fresh where
  cache := by simp [filesElsewhere]
  heap := rfl
  held := rfl

theorem rootFiles_filesElsewhere_subset :
    Loader.rootFiles filesElsewhere.files { searchPath := ["/root"], maxLinkDepth := 1 } ⊆
      {⟨true, ["root", "A.class"]⟩} := by
  rintro path ⟨directory, hdirectory, ⟨_, hunder⟩, contents, _, _, hread, _⟩
  obtain rfl := List.mem_singleton.mp hdirectory
  simp only [filesElsewhere] at hread
  obtain rfl | hread := FileSystem.eq_or_read_of_read_write hread
  · exact absurd hunder (by decide +kernel)
  obtain rfl | hread := FileSystem.eq_or_read_of_read_write hread
  · exact absurd hunder (by decide +kernel)
  obtain rfl | hread := FileSystem.eq_or_read_of_read_write hread
  · exact rfl
  · cases hread

/-- **It is not enough to admit the class files under the directories.** The class that is too deep
for the first load is no longer so when it has been linked on its own account. -/
theorem load_depends_on_history : ¬ ∀ start number o ops name, Fresh start →
    start.loaders[number]? = some o → (o.rootFiles start.files).encard ≤ o.maxLinkDepth →
      (∀ op ∈ ops, op.OnlyLoads start.loaders.length) →
        outcome (load number name (run ops start)) = outcome (load number name start) := by
  intro h
  have hdepth : (Loader.rootFiles filesElsewhere.files
      { searchPath := ["/root"], maxLinkDepth := 1 }).encard ≤ (1 : ℕ) :=
    (Set.encard_le_encard rootFiles_filesElsewhere_subset).trans (Set.encard_singleton _).le
  have heq := h filesElsewhere 0 _ [.load 0 "/C" none] "A" fresh_filesElsewhere rfl hdepth
    (by simp [SessionOp.OnlyLoads, filesElsewhere])
  have hfirst : outcome (load 0 "A" filesElsewhere) = .error (.linkageTooDeep "/C" 1) := by
    decide +kernel
  have hlater : outcome (load 0 "A" (run [.load 0 "/C" none] filesElsewhere)) ≠
      .error (.linkageTooDeep "/C" 1) := by
    decide +kernel
  exact hlater (heq.trans hfirst)

end Session

end JavaClass
