import JavaClass.Proofs.Loader.Repetition
import JavaClass.Proofs.Session.History

/-!
# A failed load repeats

What loading answers may well depend on history when the limit of a loader is too small: a class
that is linked already takes no depth. But this is all that history can do. Two loaders with the
same directories, the same limit and the same linked names answer alike, in whatever sessions they
are and whatever else they have cached. Alike means that nothing tells the answers apart but the
identity of objects: the errors are the same, and from two classes every route along superclasses
and interfaces leads to the same files.

A failure links nothing and leaves the directories alone, so the next load of the same name is
bound to fail in the same way. It leaves the cache as the first failure left it.

## Main statements

* `Session.FollowsPath.run`: a loader for which nothing is defined from bytes at hand has only
  classes from its search path.
* `Session.alike_load`: loaders that answer alike.
* `Session.failed_load_repeats`: how a load fails twice.
-/

namespace JavaClass

/-- The operation leaves the files alone, and it does not define a class of the loader with this
number from bytes at hand. -/
def SessionOp.Searches (number : Nat) : SessionOp → Prop
  | .define loader _ _ _ => loader ≠ number
  | .writeFile .. | .removeFile .. => False
  | .find .. | .load .. | .link .. | .resolve .. | .addDirectory .. | .constant .. | .superclass ..
  | .interface .. | .drop _ | .reset _ => True

namespace Session

open Loader

variable {files : FileSystem} {s s' t : Session} {l l' m : Loader} {c c' : Class}
  {i number number' : Nat} {op : SessionOp} {ops : List SessionOp} {name : String} {e : LoadError}

/-! ## Loaders that follow their search path -/

/-- The files are the ones given, and the classes of the loader with this number are from them. -/
structure FollowsPath (files : FileSystem) (number : Nat) (s : Session) : Prop where
  files_eq : s.files = files
  fromPath : ∀ {l}, s.loaders[number]? = some l → l.FromPath files

theorem FollowsPath.congr (h : FollowsPath files number s) (hfiles : t.files = s.files)
    (hloaders : t.loaders = s.loaders) : FollowsPath files number t where
  files_eq := hfiles.trans h.files_eq
  fromPath := fun hl ↦ h.fromPath (hloaders ▸ hl)

theorem FollowsPath.resume (h : FollowsPath files number s) (hl : s.loaders[i]? = some l)
    {u : LoaderState} (hu : i = number → u.loader.FromPath files) :
    FollowsPath files number (s.resume i u) where
  files_eq := h.files_eq
  fromPath := fun {m} hm ↦ by
    rw [getElem?_loaders_resume hl] at hm
    split at hm
    · next hi =>
      cases hm
      exact hu hi.symm
    · exact h.fromPath hm

theorem Fresh.followsPath (h : s.Fresh) (number : Nat) : FollowsPath s.files number s where
  files_eq := rfl
  fromPath := fun {l} hl c stage hc ↦ by
    rw [Has, h.cache l (List.mem_of_getElem? hl), Std.ExtTreeMap.getElem?_empty] at hc
    cases hc

theorem Calls.fromPath {f : LoaderState → LoaderState} (hcall : s.Calls op number f) (hs : s.Sound)
    (hl : s.loaders[number]? = some l) (hop : op.Searches number) (h : l.FromPath s.files) :
    (f ⟨l, s.heap⟩).loader.FromPath s.files := by
  by_cases hpath : ∃ directory, op = .addDirectory number directory
  · obtain ⟨directory, rfl⟩ := hpath
    cases hcall
    exact h.append [directory]
  · have hdefine (name : String) (contents : Bytes) (as : Option String) :
        op ≠ .define number name contents as := by
      rintro rfl
      exact hop rfl
    exact (hcall.foundBy hs hl hdefine (not_exists.mp hpath)).fromPath h
      (hs.atRest (List.mem_of_getElem? hl)).wellFormed (hcall.evolves hs hl).atRest.wellFormed

theorem Sound.fromPath_of_load (hs : s.Sound) (hl : s.loaders[number]? = some l)
    (h : l.FromPath s.files) (name : String) :
    (Loader.load s.files name ⟨l, s.heap⟩).state.loader.FromPath s.files :=
  Calls.fromPath (.load number name none) hs hl trivial h

theorem Becomes.followsPath (hbecomes : s.Becomes op t) (h : FollowsPath files number s)
    (hs : s.Sound) (hop : op.Searches number) : FollowsPath files number t := by
  induction hbecomes with
  | same => exact h
  | write path contents => exact hop.elim
  | remove path => exact hop.elim
  | call hl hcall =>
    refine h.resume hl ?_
    rintro rfl
    rw [← h.files_eq]
    exact hcall.fromPath hs hl hop (h.files_eq ▸ h.fromPath hl)
  | @record _ _ _ _ _ u _ _ name _ hl hload =>
    refine (h.resume hl (u := u) ?_).congr rfl rfl
    rintro rfl
    have hafter := hs.fromPath_of_load hl (h.files_eq ▸ h.fromPath hl) name
    rw [hload, h.files_eq] at hafter
    exact hafter
  | hold _ _ ih => exact (ih hop).congr rfl rfl

/-- **A loader has only classes from its search path**, after any run that leaves the files alone
and defines no class of this loader from bytes at hand. -/
theorem FollowsPath.run (h : FollowsPath files number s) (hs : s.Sound)
    (hops : ∀ op ∈ ops, op.WorksOn s.loaders.length ∧ op.Searches number) :
    FollowsPath files number (run ops s) :=
  hs.of_run (FollowsPath files number) (fun op hop ↦ (hops op hop).1)
    (fun op hop _ _ ht _ hbecomes hfollows ↦ hbecomes.followsPath hfollows ht (hops op hop).2) h

/-- The session is what some operations have made of a fresh one over these files. They left the
files alone, and none of them defined a class of the loader with this number from bytes at hand. -/
def Searched (files : FileSystem) (number : Nat) (s : Session) : Prop :=
  ∃ start ops, Fresh start ∧ start.files = files ∧
    (∀ op ∈ ops, op.WorksOn start.loaders.length ∧ op.Searches number) ∧ run ops start = s

theorem Searched.sound (h : Searched files number s) : s.Sound := by
  obtain ⟨start, ops, hfresh, _, hops, rfl⟩ := h
  exact hfresh.sound.run fun op hop ↦ (hops op hop).1

theorem Searched.followsPath (h : Searched files number s) : FollowsPath files number s := by
  obtain ⟨start, ops, hfresh, rfl, hops, rfl⟩ := h
  exact (hfresh.followsPath number).run hfresh.sound hops

/-! ## Answers that are alike -/

/-- The class to which a route leads from another one. It goes to the superclass, or to the
interface at some position. -/
def follow (s : Session) : (route : List (Option Nat)) → Class → Option Class
  | [], c => some c
  | none :: route, c => (s.superclass? c).bind (s.follow route)
  | some position :: route, c => (s.interfaces c)[position]?.bind (s.follow route)

/-- Two loads had the same outcome, and nothing but the identity of objects tells them apart. -/
inductive Alike : EStateM.Result LoadError Session (Option Class) →
    EStateM.Result LoadError Session (Option Class) → Prop
  | error (e : LoadError) (s t : Session) : Alike (.error e s) (.error e t)
  | nothing (s t : Session) : Alike (.ok none s) (.ok none t)
  | found {c d : Class} {s t : Session} (h : ∀ route,
    (s.follow route c).map Class.file = (t.follow route d).map Class.file) :
    Alike (.ok (some c) s) (.ok (some d) t)

/-- Two classes with the same file, each linked in one of two loaders. -/
structure Twins (l l' : Loader) (c c' : Class) : Prop where
  file_eq : c'.file = c.file
  left : l.Has c .linked
  right : l'.Has c' .linked

theorem twins_of_leads (hwf : l.WellFormed) (hwf' : l'.WellFormed)
    (hlookup : l'.lookup files = l.lookup files) (hc : l.entry? name = some (.holds c .linked))
    (hc' : l'.entry? name = some (.holds c' .linked)) : Twins l l' c c' where
  file_eq := by
    have heq := congrFun hlookup name
    rw [lookup, hc', lookup, hc] at heq
    simpa using heq
  left := (hwf.has_of_entry? hc).1
  right := (hwf'.has_of_entry? hc').1

section

variable (hs : s.Sound) (hs' : s'.Sound) (hl : l ∈ s.loaders) (hl' : l' ∈ s'.loaders)
  (hlookup : l'.lookup files = l.lookup files)

include hs hs' hl hl' hlookup

theorem Twins.supertypes (h : Twins l l' c c') :
    Option.Rel (Twins l l') (s.superclass? c) (s'.superclass? c') ∧
      List.Forall₂ (Twins l l') (s.interfaces c) (s'.interfaces c') := by
  have hwf := (hs.atRest hl).wellFormed
  have hwf' := (hs'.atRest hl').wellFormed
  have hname : c'.superName = c.superName := by rw [Class.superName, h.file_eq, Class.superName]
  have hsuperclass := hs.linkClosed.superclass l hl c.name c h.left
  have hsuperclass' := hs'.linkClosed.superclass l' hl' c'.name c' h.right
  have hinterfaces := hs.linkClosed.interfaces l hl c.name c h.left
  have hinterfaces' := hs'.linkClosed.interfaces l' hl' c'.name c' h.right
  rw [hname] at hsuperclass'
  rw [h.file_eq] at hinterfaces'
  constructor
  · generalize c.superName = superName at hsuperclass hsuperclass'
    generalize s.superclass? c = superclass at hsuperclass ⊢
    generalize s'.superclass? c' = superclass' at hsuperclass' ⊢
    cases hsuperclass with
    | none =>
      cases hsuperclass'
      exact .none
    | some hp =>
      cases hsuperclass' with
      | some hp' => exact .some (twins_of_leads hwf hwf' hlookup hp hp')
  · refine (forall₂_comp hinterfaces.flip hinterfaces').imp ?_
    rintro p p' ⟨index, ⟨name, hindex, hp⟩, name', hindex', hp'⟩
    obtain rfl : name' = name := Option.some.inj (hindex'.symm.trans hindex)
    exact twins_of_leads hwf hwf' hlookup hp hp'

theorem Twins.follow_eq (h : Twins l l' c c') (route : List (Option Nat)) :
    (s.follow route c).map Class.file = (s'.follow route c').map Class.file := by
  induction route generalizing c c' with
  | nil => exact congrArg some h.file_eq.symm
  | cons position route ih =>
    obtain ⟨hsuperclass, hinterfaces⟩ := h.supertypes hs hs' hl hl' hlookup
    have hbind {p p' : Option Class} (hp : Option.Rel (Twins l l') p p') :
        (p.bind (s.follow route)).map Class.file = (p'.bind (s'.follow route)).map Class.file := by
      cases hp with
      | none => rfl
      | some htwins => exact ih htwins
    cases position with
    | none => exact hbind hsuperclass
    | some position => exact hbind (rel_getElem?_of_forall₂ hinterfaces position)

end

/-! ## Loads -/

/-- **Loaders that answer alike.** They have the same directories, the same limit and the same
linked names, and only classes from the same files. -/
theorem alike_load (hs : s.Sound) (hs' : s'.Sound) (hfollows : FollowsPath files number s)
    (hfollows' : FollowsPath files number' s') (hl : s.loaders[number]? = some l)
    (hl' : s'.loaders[number']? = some l') (hpath : l'.searchPath = l.searchPath)
    (hdepth : l'.maxLinkDepth = l.maxLinkDepth) (hlinked : l'.linkedNames = l.linkedNames)
    (name : String) : Alike (load number name s) (load number' name s') := by
  have hrest := hs.atRest (List.mem_of_getElem? hl)
  have hrest' := hs'.atRest (List.mem_of_getElem? hl')
  have hfrom := hfollows.fromPath hl
  have hfrom' := hfollows'.fromPath hl'
  have hterritory : l'.territory files = l.territory files :=
    hfrom.territory_eq hrest.wellFormed hfrom' hrest'.wellFormed hpath hdepth
  have hrun : load number name s = _ := runLoader_apply hl (Loader.load s.files name)
  have hrun' : load number' name s' = _ := runLoader_apply hl' (Loader.load s'.files name)
  rw [hfollows.files_eq] at hrun
  rw [hfollows'.files_eq] at hrun'
  rw [hrun, hrun']
  rcases load_cases_of_loadTour_eq hrest hrest' (loadTour_congr hterritory hlinked name) with
      ⟨e, t, t', hload, hload'⟩ | ⟨t, t', hload, hload'⟩ | ⟨c, c', t, t', hload, hload', hfile⟩ <;>
    rw [hload, hload']
  · exact .error e _ _
  · exact .nothing _ _
  · have hevolves := LoaderState.evolves_load files name hrest
    have hevolves' := LoaderState.evolves_load files name hrest'
    have hafter := (territory_of_load files name hrest hfrom).2
    have hafter' := (territory_of_load files name hrest' hfrom').2
    rw [hload] at hevolves hafter
    rw [hload'] at hevolves' hafter'
    have htwins : Twins t.loader t'.loader c c' :=
      ⟨hfile, LoaderState.has_linked_of_load hrest hload,
        LoaderState.has_linked_of_load hrest' hload'⟩
    exact .found (htwins.follow_eq (hs.resume hl hevolves) (hs'.resume hl' hevolves')
      (List.mem_of_getElem? (getElem?_loaders_resume_self hl t))
      (List.mem_of_getElem? (getElem?_loaders_resume_self hl' t'))
      (congrArg Territory.lookup (hafter'.trans (hterritory.trans hafter.symm))))

/-- **A failed load repeats.** Take a loader with any limit, in a session that some operations have
made of a fresh one without changing a file or defining a class of this loader from bytes at hand.
What loading a name answers depends on the search path, on the limit and on which names are linked:
every other such loader that has these in common, over the same files, answers alike. And if a load
fails, then it fails with the same error when it is done again at once, and the second failure
leaves the same names at the same stages as the first. -/
theorem failed_load_repeats (hs : Searched files number s) (hl : s.loaders[number]? = some l)
    (name : String) :
    (∀ number' s' l', Searched files number' s' → s'.loaders[number']? = some l' →
      l'.searchPath = l.searchPath → l'.maxLinkDepth = l.maxLinkDepth →
        (∀ key : String, (∃ c, l'.cache[key]? = some (.holds c .linked)) ↔
          ∃ c, l.cache[key]? = some (.holds c .linked)) →
            Alike (load number name s) (load number' name s')) ∧
    ∀ e t, load number name s = .error e t → ∃ u m m', load number name t = .error e u ∧
      t.loaders[number]? = some m ∧ u.loaders[number]? = some m' ∧
        ∀ key : String, (m'.cache[key]?).map Entry.stage? = (m.cache[key]?).map Entry.stage? := by
  have hsound := hs.sound
  have hfollows := hs.followsPath
  constructor
  · intro number' s' l' hs' hl' hpath hdepth hlinked
    have hnames : l'.linkedNames = l.linkedNames := by
      ext key
      rw [mem_linkedNames_iff, mem_linkedNames_iff, hlinked]
    exact alike_load hsound hs'.sound hfollows hs'.followsPath hl hl' hpath hdepth hnames name
  · intro e t hrun
    obtain ⟨v, hload, rfl⟩ := (runLoader_eq_error_iff hl).mp hrun
    rw [hfollows.files_eq] at hload
    obtain ⟨w, hagain, hstages⟩ := load_eq_error_again (hsound.atRest (List.mem_of_getElem? hl))
      (hfollows.fromPath hl) hload
    have hm : (s.resume number v).loaders[number]? = some v.loader :=
      getElem?_loaders_resume_self hl v
    rw [← hfollows.files_eq] at hagain
    have hrun' : load number name (s.resume number v) = .error e _ :=
      (runLoader_eq_error_iff hm).mpr ⟨w, hagain, rfl⟩
    exact ⟨_, v.loader, w.loader, hrun', hm, getElem?_loaders_resume_self hm w, hstages⟩

/-- A loader for a class that extends one for which there is no file. Its interface, which extends
itself, is linked before this is found out. -/
def orphan : Session where
  files := (FileSystem.empty.write ⟨false, ["A.class"]⟩
    [0xCA, 0xFE, 0xBA, 0xBE, 0, 0, 0, 52, 0, 7, 1, 0, 1, 65, 7, 0, 1, 1, 0, 1, 66, 7, 0, 3, 1, 0, 1,
      73, 7, 0, 5, 0, 0, 0, 2, 0, 4, 0, 1, 0, 6, 0, 0, 0, 0, 0, 0]).write
    ⟨false, ["I.class"]⟩ (letterClass 73 73)
  loaders := [{ searchPath := ["."], maxLinkDepth := 1 }]

theorem fresh_orphan : orphan.Fresh where
  cache := by simp [orphan]
  heap := rfl
  held := rfl

theorem searched_orphan (hops : ∀ op ∈ ops, op.WorksOn 1 ∧ op.Searches 0) :
    Searched orphan.files 0 (run ops orphan) :=
  ⟨orphan, ops, fresh_orphan, rfl, hops, rfl⟩

/-- It makes no difference that the class has been found before. The first failure leaves the
interface behind, and the second one comes to it where it is. -/
theorem failed_load_repeats_orphan :
    Alike (load 0 "A" orphan) (load 0 "A" (run [.find 0 "A" none] orphan)) ∧
      ∃ t u m m', load 0 "A" orphan = .error (.missingSupertype "A" "B") t ∧
        load 0 "A" t = .error (.missingSupertype "A" "B") u ∧
          t.loaders[0]? = some m ∧ u.loaders[0]? = some m' ∧ m.isLoaded "A" = false ∧
            (m.entry? "I").bind Entry.stage? = some .defined ∧
              ∀ key : String,
                (m'.cache[key]?).map Entry.stage? = (m.cache[key]?).map Entry.stage? := by
  have hl : (run [] orphan).loaders[0]? = some { searchPath := ["."], maxLinkDepth := 1 } := rfl
  have hfound : ∃ l ∈ (run [.find 0 "A" none] orphan).loaders[0]?, l.searchPath = ["."] ∧
      l.maxLinkDepth = 1 ∧ l.linkedNames = ∅ := by
    decide +kernel
  have hfailed : ∃ r ∈ (load 0 "A" orphan).error?, r.1 = .missingSupertype "A" "B" ∧
      ∃ m ∈ r.2.loaders[0]?, m.isLoaded "A" = false ∧
        (m.entry? "I").bind Entry.stage? = some .defined := by
    decide +kernel
  obtain ⟨l, hl', hpath, hdepth, hlinked⟩ := hfound
  obtain ⟨⟨_, t⟩, hrun, rfl, m, hm, hA, hI⟩ := hfailed
  have hrun := EStateM.Result.error?_eq_some_iff.mp hrun
  obtain ⟨halike, hagain⟩ := failed_load_repeats (searched_orphan (by simp)) hl "A"
  refine ⟨halike 0 _ l (searched_orphan ?_) hl' hpath hdepth fun key ↦ ?_, ?_⟩
  · simp [SessionOp.WorksOn, SessionOp.Searches]
  · rw [← mem_linkedNames_iff, hlinked]
    simp
  · obtain ⟨u, m₀, m', hrun', hm₀, hm', hstages⟩ := hagain _ t hrun
    obtain rfl := Option.some.inj (hm.symm.trans hm₀)
    exact ⟨t, u, m, m', hrun, hrun', hm, hm', hA, hI, hstages⟩

end Session

end JavaClass
