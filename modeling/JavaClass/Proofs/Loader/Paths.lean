import JavaClass.Proofs.Loader.Cache

/-!
# Where names lead

The file of a class is looked for along the path that its name writes down, from each directory of
the search path. Two dots would lead out of a directory, but a name has no dots by then: each of
them has become a slash, and the only dot is the one before the last part of the file's name. So a
name can lead out of a directory in one way only, which is to begin with a slash.

## Main definitions

* `Path.IsUnder`: being in a directory, however deep.

## Main statements

* `isUnder_join_internalName`: names that do not begin with a slash stay in the directories.
-/

namespace JavaClass

/-! ## Parts of a text -/

theorem sublist_of_mem_splitChars {separator : Char} {cs part : List Char}
    (h : part ∈ splitChars separator cs) : part.Sublist cs := by
  induction cs generalizing part with
  | nil =>
    obtain rfl := List.mem_singleton.mp h
    exact .slnil
  | cons c cs ih =>
    rw [splitChars, List.foldr_cons, ← splitChars] at h
    split at h
    · obtain rfl | h := List.mem_cons.mp h
      · exact List.nil_sublist _
      · exact (ih h).cons c
    · split at h
      · next hnil => exact absurd hnil (splitChars_ne_nil separator cs)
      · next first parts hparts =>
        rw [hparts] at ih
        obtain rfl | h := List.mem_cons.mp h
        · exact (ih List.mem_cons_self).cons_cons c
        · exact (ih (List.mem_cons_of_mem _ h)).cons c

/-- The only dot in the path of a class file is the one before its ending. -/
theorem twoDots_notMem_splitText (name : String) :
    ".." ∉ splitText '/' (internalName name ++ ".class") := by
  intro h
  obtain ⟨part, hpart, hdots⟩ := List.mem_map.mp h
  have hpart := (sublist_of_mem_splitChars hpart).count_le '.'
  have hname := List.count_eq_zero_of_not_mem (dot_notMem_internalName name)
  rw [← String.toList_ofList (l := part), hdots, String.toList_append, List.count_append,
    hname] at hpart
  exact absurd hpart (by decide)

/-! ## Paths -/

namespace Path

variable {path directory next : Path} {component : String} {components : List String}

/-- The path is in the directory or in one below it. -/
def IsUnder (path directory : Path) : Prop :=
  path.absolute = directory.absolute ∧ directory.components <+: path.components

theorem IsUnder.refl (path : Path) : path.IsUnder path := ⟨rfl, List.prefix_refl _⟩

theorem IsUnder.trans {inner : Path} (h : inner.IsUnder path) (h' : path.IsUnder directory) :
    inner.IsUnder directory :=
  ⟨h.1.trans h'.1, h'.2.trans h.2⟩

theorem isUnder_enter (h : component ≠ "..") (path : Path) :
    (path.enter component).IsUnder path := by
  rw [enter, if_neg h]
  split
  · exact .refl path
  · exact ⟨rfl, List.prefix_append _ _⟩

theorem isUnder_foldl_enter (h : ".." ∉ components) (path : Path) :
    (components.foldl enter path).IsUnder path := by
  induction components generalizing path with
  | nil => exact .refl path
  | cons component components ih =>
    rw [List.mem_cons, not_or] at h
    exact (ih h.2 _).trans (isUnder_enter (Ne.symm h.1) path)

theorem twoDots_notMem_foldl_enter (h : ".." ∉ components) (hpath : ".." ∉ path.components) :
    ".." ∉ (components.foldl enter path).components := by
  induction components generalizing path with
  | nil => exact hpath
  | cons component components ih =>
    rw [List.mem_cons, not_or] at h
    refine ih h.2 ?_
    rw [enter, if_neg (Ne.symm h.1)]
    split
    · exact hpath
    · simpa [hpath] using h.1

/-- **A name that does not begin with a slash stays in the directory**, and one that does leads to
the same file from every directory. -/
theorem isUnder_join_internalName (directory : Path) (name : String) :
    (directory.join (ofString (internalName name ++ ".class"))).IsUnder directory ∨
      (internalName name).toList.head? = some '/' ∧
        directory.join (ofString (internalName name ++ ".class")) =
          ofString (internalName name ++ ".class") := by
  have hdots := twoDots_notMem_splitText name
  have habsolute := (isUnder_foldl_enter hdots
    ⟨(internalName name ++ ".class").toList.head? = some '/', []⟩).1
  by_cases h : (ofString (internalName name ++ ".class")).absolute = true
  · refine .inr ⟨?_, if_pos h⟩
    rw [ofString, habsolute, decide_eq_true_iff, String.toList_append] at h
    cases hname : (internalName name).toList with
    | nil => simp [hname] at h
    | cons c cs => simpa [hname] using h
  · rw [join, if_neg h]
    exact .inl (isUnder_foldl_enter (twoDots_notMem_foldl_enter hdots List.not_mem_nil) directory)

end Path

end JavaClass
