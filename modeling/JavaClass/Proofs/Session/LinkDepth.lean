import JavaClass.Proofs.Loader.Chain
import JavaClass.Proofs.Session.LinkClosure

/-!
# How deep linking may go

The limit of a loader is a limit on chains: it is how many supertypes away from the first class a
class may be that still has to be linked. A chain with one class more cannot be linked, and what has
been defined of it is gone then. But what is linked already does not count. So a chain of any length
can be linked with any limit, if its classes are loaded one at a time from the last one on: each of
them is at most one class away from the ones that are linked.

## Main statements

* `Session.load_chain_outcomes`: when the first class of a chain can be loaded.
-/

namespace JavaClass

namespace Session

open Loader

variable {s : Session} {l : Loader} {number n : Nat} {C : Nat → ClassFile}

/-- Loads the classes of a chain, the last one first. -/
def loadLastFirst (number : Nat) (C : Nat → ClassFile) : (n : Nat) → SessionM Unit
  | 0 => discard (load number (C 0).name)
  | n + 1 => do
    loadLastFirst number (fun i ↦ C (i + 1)) n
    discard (load number (C 0).name)

/-- The session went on to `s'`, and its loader became `l'`. Names lead where they led before, and
what was linked still is. -/
structure Resumes (s : Session) (number : Nat) (l : Loader) (s' : Session) (l' : Loader) :
    Prop where
  sound : s'.Sound
  files_eq : s'.files = s.files
  loader_eq : s'.loaders[number]? = some l'
  lookup_eq : ∀ name, l'.lookup s.files name = l.lookup s.files name
  linked_kept : ∀ {c}, l.Has c .linked → l'.Has c .linked

theorem Sound.exists_resumes_of_load (h : s.Sound) (hl : s.loaders[number]? = some l)
    {name : String} {c : Class} {t : LoaderState}
    (hload : Loader.load s.files name ⟨l, s.heap⟩ = .ok (some c) t) :
    load number name s = .ok (some c) (s.resume number t) ∧
      s.Resumes number l (s.resume number t) t.loader ∧ t.loader.Has c .linked := by
  have hrest := h.atRest (List.mem_of_getElem? hl)
  have hevolves := h.evolves_of_load hl hload
  exact ⟨(runLoader_eq_ok_iff hl).mpr ⟨t, hload, rfl⟩, {
      sound := h.resume hl hevolves
      files_eq := rfl
      loader_eq := getElem?_loaders_resume_self hl t
      lookup_eq := lookup_eq_of_load hrest hload
      linked_kept := hevolves.linked_kept },
    LoaderState.has_linked_of_load hrest hload⟩

theorem Resumes.trans {s₁ s₂ : Session} {l₁ l₂ : Loader} (h : s.Resumes number l s₁ l₁)
    (h' : s₁.Resumes number l₁ s₂ l₂) : s.Resumes number l s₂ l₂ where
  sound := h'.sound
  files_eq := h'.files_eq.trans h.files_eq
  loader_eq := h'.loader_eq
  lookup_eq := fun name ↦ (h.files_eq ▸ h'.lookup_eq name).trans (h.lookup_eq name)
  linked_kept := fun hc ↦ h'.linked_kept (h.linked_kept hc)

/-- **A chain can be linked with any limit**, if the last class is loaded first. -/
theorem Sound.exists_loadLastFirst (h : s.Sound) (hl : s.loaders[number]? = some l)
    (hchain : ClassFile.Chain C n)
    (hleads : ∀ i ≤ n, l.lookup s.files (C i).name = .ok (some (C i))) :
    ∃ s' l', loadLastFirst number C n s = .ok () s' ∧ s.Resumes number l s' l' ∧
      ∀ i ≤ n, l'.HasLinked (C i) := by
  induction n generalizing C with
  | zero =>
    obtain ⟨c, t, hload, hfile⟩ :=
      load_chain_of_next (h.atRest (List.mem_of_getElem? hl)) hchain hleads nofun
    obtain ⟨hrun, hresumes, hlinked⟩ := h.exists_resumes_of_load hl hload
    refine ⟨_, _, EStateM.map_eq_ok_iff.mpr ⟨_, hrun, rfl⟩, hresumes, fun i hi ↦ ?_⟩
    rw [Nat.le_zero.mp hi]
    exact ⟨c, hfile, hlinked⟩
  | succ n ih =>
    obtain ⟨s₁, l₁, hrest, hresumes₁, hlinked₁⟩ :=
      ih hchain.tail fun i hi ↦ hleads (i + 1) (Nat.succ_le_succ hi)
    have hleads₁ (i : Nat) (hi : i ≤ n + 1) :
        l₁.lookup s₁.files (C i).name = .ok (some (C i)) := by
      rw [hresumes₁.files_eq, hresumes₁.lookup_eq, hleads i hi]
    obtain ⟨c, t, hload, hfile⟩ := load_chain_of_next
      (hresumes₁.sound.atRest (List.mem_of_getElem? hresumes₁.loader_eq)) hchain hleads₁
      fun _ ↦ hlinked₁ 0 (Nat.zero_le n)
    obtain ⟨hrun, hresumes, hlinked⟩ :=
      hresumes₁.sound.exists_resumes_of_load hresumes₁.loader_eq hload
    refine ⟨_, _, EStateM.bind_eq_ok_iff.mpr ⟨_, _, hrest,
      EStateM.map_eq_ok_iff.mpr ⟨_, hrun, rfl⟩⟩, hresumes₁.trans hresumes, fun i hi ↦ ?_⟩
    rcases i with _ | i
    · exact ⟨c, hfile, hlinked⟩
    · obtain ⟨d, hd, hd'⟩ := hlinked₁ i (Nat.le_of_succ_le_succ hi)
      exact ⟨d, hd, hresumes.linked_kept hd'⟩

/-- **When the first class of a chain can be loaded.** If nothing of it is cached, then all of it is
linked, or it is longer than the limit admits and nothing of it is cached afterwards. If some of it
is linked, then only the classes before count. And there always is an order in which all of it can
be loaded. Where a name leads that is not cached is up to the search path. -/
theorem load_chain_outcomes (hs : s.Reachable) (hl : s.loaders[number]? = some l)
    (hchain : ClassFile.Chain C n)
    (hleads : ∀ i ≤ n, l.lookup s.files (C i).name = .ok (some (C i))) :
    ((∀ i ≤ n, l.cache[(C i).name]? = none) →
      (n ≤ l.maxLinkDepth → ∃ c s' l', load number (C 0).name s = .ok (some c) s' ∧ c.file = C 0 ∧
        s'.loaders[number]? = some l' ∧ ∀ i ≤ n, l'.HasLinked (C i)) ∧
      (l.maxLinkDepth < n → ∃ s' l', load number (C 0).name s =
          .error (.linkageTooDeep (C (l.maxLinkDepth + 1)).name l.maxLinkDepth) s' ∧
        s'.loaders[number]? = some l' ∧ ∀ i ≤ n, l'.cache[(C i).name]? = none)) ∧
    (∀ k ≤ n, l.HasLinked (C k) → (∀ i < k, l.cache[(C i).name]? = none) →
      (∀ i, k ≤ i → i ≤ n → l.HasLinked (C i)) ∧
      ((∃ c s', load number (C 0).name s = .ok (some c) s') ↔ k ≤ l.maxLinkDepth + 1)) ∧
    ∃ s' l', loadLastFirst number C n s = .ok () s' ∧ s'.loaders[number]? = some l' ∧
      ∀ i ≤ n, l'.HasLinked (C i) := by
  have h := hs.sound
  have hrest := h.atRest (List.mem_of_getElem? hl)
  refine ⟨fun habsent ↦ ⟨fun hdepth ↦ ?_, fun hdepth ↦ ?_⟩, fun k hk hlinked habsent ↦
    ⟨fun i ↦ hasLinked_of_le hrest hchain hleads hlinked, ?_⟩, ?_⟩
  · obtain ⟨c, t, hload, hfile⟩ := load_chain_ok hrest hchain hleads (Nat.le_refl (n + 1))
      (fun hn ↦ absurd hn (Nat.not_succ_le_self n))
      (fun j hj ↦ not_mem_linkedNames_of_absent (habsent j (Nat.le_of_lt_succ hj)))
      (Nat.succ_le_succ hdepth)
    obtain ⟨hrun, hresumes, hc⟩ := h.exists_resumes_of_load hl hload
    have hleads' (i : Nat) (hi : i ≤ n) :
        t.loader.lookup s.files (C i).name = .ok (some (C i)) := by
      rw [hresumes.lookup_eq, hleads i hi]
    exact ⟨c, _, t.loader, hrun, hfile, hresumes.loader_eq, fun i ↦
      hasLinked_of_le (hresumes.sound.atRest (List.mem_of_getElem? hresumes.loader_eq)) hchain
        hleads' ⟨c, hfile, hc⟩ (Nat.zero_le i)⟩
  · obtain ⟨t, hload, hkept⟩ := load_chain_error hrest hchain hleads (Nat.le_refl (n + 1))
      (fun j hj ↦ not_mem_linkedNames_of_absent (habsent j (Nat.le_of_lt_succ hj)))
      (Nat.succ_lt_succ hdepth)
    exact ⟨_, t.loader, (runLoader_eq_error_iff hl).mpr ⟨t, hload, rfl⟩,
      getElem?_loaders_resume_self hl t, fun i hi ↦ hkept _ (habsent i hi)⟩
  · have hnew (j : Nat) (hj : j < k) := not_mem_linkedNames_of_absent (habsent j hj)
    constructor
    · rintro ⟨c, s', hrun⟩
      by_contra hdepth
      obtain ⟨t, hload, _⟩ :=
        load_chain_error hrest hchain hleads (Nat.le_succ_of_le hk) hnew (Nat.lt_of_not_le hdepth)
      obtain ⟨t', hload', _⟩ := (runLoader_eq_ok_iff hl).mp hrun
      cases hload.symm.trans hload'
    · intro hdepth
      obtain ⟨c, t, hload, _⟩ := load_chain_ok hrest hchain hleads (Nat.le_succ_of_le hk)
        (fun _ ↦ hlinked.mem_linkedNames) hnew hdepth
      exact ⟨c, _, (runLoader_eq_ok_iff hl).mpr ⟨t, hload, rfl⟩⟩
  · obtain ⟨s', l', hrun, hresumes, hlinked⟩ := h.exists_loadLastFirst hl hchain hleads
    exact ⟨s', l', hrun, hresumes.loader_eq, hlinked⟩

/-- A class that extends another one, which extends nothing. The limit admits no supertypes. -/
def shallow : Session where
  files := (FileSystem.empty.write ⟨false, ["A.class"]⟩ (letterClass 65 66)).write
    ⟨false, ["B.class"]⟩ [0xCA, 0xFE, 0xBA, 0xBE, 0, 0, 0, 52, 0, 3, 1, 0, 1, 66, 7, 0, 1,
      0, 0, 0, 2, 0, 0, 0, 0, 0, 0, 0, 0, 0, 0]
  loaders := [{ searchPath := ["."], maxLinkDepth := 0 }]

theorem reachable_shallow : shallow.Reachable :=
  ⟨shallow, [], ⟨by simp [shallow], rfl, rfl⟩, by simp, rfl⟩

theorem chain_pair {a b : ClassFile} {name : String}
    (hsuper : a.superclass.map Symbol.text = some name) (hkey : internalName name = b.name)
    (hlast : b.superclass = none) (ha : a.interfaces = []) (hb : b.interfaces = [])
    (hne : a.name ≠ b.name) : ClassFile.Chain (fun i ↦ if i = 0 then a else b) 1 := by
  constructor
  case superclass =>
    intro i hi
    obtain rfl : i = 0 := Nat.lt_one_iff.mp hi
    exact ⟨name, hsuper, hkey⟩
  case last => exact hlast
  case interfaces =>
    intro i _
    split <;> assumption
  case name_inj =>
    intro i hi j hj hname
    by_cases hi0 : i = 0 <;> by_cases hj0 : j = 0 <;>
      simp only [hi0, hj0, if_true, if_false] at hname
    · omega
    · exact absurd hname hne
    · exact absurd hname.symm hne
    · omega

/-- The chain cannot be loaded at once, but it can be loaded one class after the other. -/
theorem load_chain_outcomes_shallow : ∃ C : Nat → ClassFile, C 0 ≠ C 1 ∧
    (∃ s' l', load 0 "A" shallow = .error (.linkageTooDeep "B" 0) s' ∧
      s'.loaders[0]? = some l' ∧ l'.cache["A"]? = none ∧ l'.cache["B"]? = none) ∧
    ∃ s' l', loadLastFirst 0 C 1 shallow = .ok () s' ∧ s'.loaders[0]? = some l' ∧
      l'.HasLinked (C 0) ∧ l'.HasLinked (C 1) := by
  have hfiles : ∃ l ∈ shallow.loaders[0]?, l.maxLinkDepth = 0 ∧ l.cache["A"]?.isNone ∧
      l.cache["B"]?.isNone ∧ internalName "B" = "B" ∧
        ∃ a ∈ (l.lookup shallow.files "A").toOption.bind id,
          ∃ b ∈ (l.lookup shallow.files "B").toOption.bind id, a.name = "A" ∧ b.name = "B" ∧
            a.superclass.map Symbol.text = some "B" ∧ b.superclass = none ∧ a.interfaces = [] ∧
            b.interfaces = [] := by
    decide +kernel
  obtain ⟨l, hl, hmax, hA, hB, hkey, a, ha, b, hb, hname, hname', hsuper, hlast, hinterfaces,
    hinterfaces'⟩ := hfiles
  have hlookup {name : String} {file : ClassFile}
      (h : file ∈ (l.lookup shallow.files name).toOption.bind id) :
      l.lookup shallow.files name = .ok (some file) := by
    rcases hfound : l.lookup shallow.files name with _ | _ | found <;>
      simp_all [Except.toOption]
  have hne : a.name ≠ b.name := by simp [hname, hname']
  obtain ⟨honce, -, t, m, hrun, hm, hlinked⟩ := load_chain_outcomes reachable_shallow hl
    (chain_pair hsuper (hkey.trans hname'.symm) hlast hinterfaces hinterfaces' hne) fun i _ ↦ by
      split
      · exact hname ▸ hlookup ha
      · exact hname' ▸ hlookup hb
  obtain ⟨s', l', hrun', hl', hgone⟩ := (honce fun i _ ↦ by
    split
    · exact hname ▸ Option.isNone_iff_eq_none.mp hA
    · exact hname' ▸ Option.isNone_iff_eq_none.mp hB).2 (by omega)
  refine ⟨_, fun h ↦ hne (congrArg ClassFile.name h), ⟨s', l', ?_, hl', ?_, ?_⟩, t, m, hrun, hm,
    hlinked 0 (by omega), hlinked 1 le_rfl⟩
  · simpa [hmax, hname, hname'] using hrun'
  · simpa [hname] using hgone 0 (by omega)
  · simpa [hname'] using hgone 1 le_rfl

end Session

end JavaClass
