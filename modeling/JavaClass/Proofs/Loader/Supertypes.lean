import JavaClass.Loader.Link
import JavaClass.Proofs.Loader.Cache
import Mathlib.Data.List.Forall2

/-!
# Supertypes and where they are found

A class file declares its supertypes by name, and a class that has been linked points at objects
for them. `Heap.Points` ties the two together: it says of an object that its pointers are where the
declared names lead, for whatever it is that decides where a name leads. In a loader at rest that
is the cache, restricted to the classes that are linked.

## Main statements

* `ClassFile.interfaceNames_eq_ok_iff`: the interfaces have names exactly if all of their indices
  lead to classes, and then these are the names.
* `LoaderState.AtRest`: the state of a loader in between two calls.
-/

namespace JavaClass

/-! ## Declared names -/

theorem mapM_eq_ok_iff {α β ε : Type} {f : α → Except ε β} {as : List α} {bs : List β} :
    as.mapM f = .ok bs ↔ List.Forall₂ (fun a b ↦ f a = .ok b) as bs := by
  induction as generalizing bs with
  | nil =>
    constructor
    · rintro ⟨⟩
      exact .nil
    · rintro ⟨⟩
      rfl
  | cons a as ih =>
    rw [List.mapM_cons, Except.bind_eq_ok_iff]
    simp only [Except.bind_eq_ok_iff, ih]
    constructor
    · rintro ⟨b, hfirst, bs, hrest, ⟨⟩⟩
      exact .cons hfirst hrest
    · rintro (_ | ⟨hfirst, hrest⟩)
      exact ⟨_, hfirst, _, hrest, rfl⟩

theorem mapM_eq_error_iff {α β ε : Type} {f : α → Except ε β} {as : List α} {e : ε} :
    as.mapM f = .error e ↔ ∃ before a after, as = before ++ a :: after ∧
      (∀ b ∈ before, ∃ c, f b = .ok c) ∧ f a = .error e := by
  induction as with
  | nil =>
    constructor
    · rintro ⟨⟩
    · rintro ⟨before, a, after, hsplit, _⟩
      simp at hsplit
  | cons a as ih =>
    rw [List.mapM_cons, Except.bind_eq_error_iff]
    constructor
    · rintro (ha | ⟨b, hb, hrest⟩)
      · exact ⟨[], a, as, rfl, by simp, ha⟩
      · rw [Except.bind_eq_error_iff, ih] at hrest
        obtain ⟨before, a', after, rfl, hbefore, ha'⟩ := hrest.resolve_right (by rintro ⟨_, _, ⟨⟩⟩)
        exact ⟨a :: before, a', after, rfl, List.forall_mem_cons.mpr ⟨⟨b, hb⟩, hbefore⟩, ha'⟩
    · rintro ⟨_ | ⟨_, before⟩, a', after, ⟨⟩, hbefore, ha'⟩
      · exact .inl ha'
      · obtain ⟨⟨b, hb⟩, hbefore⟩ := List.forall_mem_cons.mp hbefore
        refine .inr ⟨b, hb, Except.bind_eq_error_iff.mpr (.inl (ih.mpr ?_))⟩
        exact ⟨before, a', after, rfl, hbefore, ha'⟩

theorem filterMap_eq_of_forall₂ {α β : Type} {f : α → Option β} {as : List α} {bs : List β}
    (h : List.Forall₂ (fun a b ↦ f a = some b) as bs) : as.filterMap f = bs := by
  induction h with
  | nil => rfl
  | cons hb _ ih => rw [List.filterMap_cons_some hb, ih]

theorem forall₂_comp {α β γ : Type} {r : α → β → Prop} {r' : β → γ → Prop} {as : List α}
    {bs : List β} {cs : List γ} (h : List.Forall₂ r as bs) (h' : List.Forall₂ r' bs cs) :
    List.Forall₂ (fun a c ↦ ∃ b, r a b ∧ r' b c) as cs := by
  induction h generalizing cs with
  | nil =>
    cases h'
    exact .nil
  | cons hab _ ih =>
    cases h' with
    | cons hbc h' => exact .cons ⟨_, hab, hbc⟩ (ih h')

theorem exists_mem_of_forall₂ {α β : Type} {r : α → β → Prop} {as : List α} {bs : List β}
    (h : List.Forall₂ r as bs) {b : β} (hb : b ∈ bs) : ∃ a ∈ as, r a b := by
  induction h with
  | nil => cases hb
  | cons hab _ ih =>
    rcases List.mem_cons.mp hb with rfl | hb
    · exact ⟨_, List.mem_cons_self, hab⟩
    · obtain ⟨a, ha, hab⟩ := ih hb
      exact ⟨a, List.mem_cons_of_mem _ ha, hab⟩

theorem rel_getElem?_of_forall₂ {α β : Type} {r : α → β → Prop} {as : List α} {bs : List β}
    (h : List.Forall₂ r as bs) (i : Nat) : Option.Rel r as[i]? bs[i]? := by
  induction h generalizing i with
  | nil => exact .none
  | cons hab _ ih =>
    cases i with
    | zero => exact .some hab
    | succ i => exact ih i

theorem Pool.text_requireClass_eq_ok_iff {pool : Pool} {referrer : Referrer} {index : UInt16}
    {name : String} :
    Symbol.text <$> pool.requireClass referrer index = .ok name ↔
      pool.className? index = some name := by
  rw [requireClass, require, className?]
  cases pool.entry? index >>= Constant.className? with
  | none => simp [Functor.map, Except.map]
  | some found => simp [Functor.map, Except.map]

namespace ClassFile

theorem interfaceNames_eq_ok_iff {file : ClassFile} {names : List String} :
    file.interfaceNames = .ok names ↔
      List.Forall₂ (fun index name ↦ file.pool.className? index = some name)
        file.interfaces names := by
  rw [interfaceNames, mapM_eq_ok_iff]
  simp only [Pool.text_requireClass_eq_ok_iff]
  conv_rhs => rw [← List.zipIdx_map_fst 0 file.interfaces, List.forall₂_map_left_iff]

theorem exists_interfaceNames_iff {file : ClassFile} :
    (∃ names, file.interfaceNames = .ok names) ↔
      ∀ index ∈ file.interfaces, ∃ name, file.pool.className? index = some name := by
  simp only [interfaceNames_eq_ok_iff]
  constructor
  · rintro ⟨names, h⟩ index hindex
    obtain ⟨name, _, hname⟩ := exists_mem_of_forall₂ h.flip hindex
    exact ⟨name, hname⟩
  · intro h
    generalize file.interfaces = indices at h ⊢
    induction indices with
    | nil => exact ⟨[], .nil⟩
    | cons index indices ih =>
      obtain ⟨name, hname⟩ := h index List.mem_cons_self
      obtain ⟨names, hnames⟩ := ih fun index' h' ↦ h index' (List.mem_cons_of_mem index h')
      exact ⟨name :: names, .cons hname hnames⟩

/-- The names of the supertypes that a class file declares: of the interfaces, as far as their
indices lead to classes, and of the superclass. -/
def supertypeNames (file : ClassFile) : List String :=
  file.interfaces.filterMap file.pool.className? ++ (file.superclass.map Symbol.text).toList

theorem supertypeNames_eq {file : ClassFile} {names : List String}
    (h : file.interfaceNames = .ok names) :
    file.supertypeNames = names ++ (file.superclass.map Symbol.text).toList := by
  rw [supertypeNames, filterMap_eq_of_forall₂ (interfaceNames_eq_ok_iff.mp h)]

theorem mem_supertypeNames_iff {file : ClassFile} {names : List String}
    (h : file.interfaceNames = .ok names) {name : String} :
    name ∈ file.supertypeNames ↔ name ∈ names ∨ file.superclass.map Symbol.text = some name := by
  rw [supertypeNames_eq h, List.mem_append, Option.mem_toList]

theorem mem_supertypeNames_of_interface {file : ClassFile} {names : List String}
    (h : file.interfaceNames = .ok names) {name : String} (hname : name ∈ names) :
    name ∈ file.supertypeNames :=
  (mem_supertypeNames_iff h).mpr (.inl hname)

theorem mem_supertypeNames_of_superclass {file : ClassFile} {name : String}
    (h : file.superclass.map Symbol.text = some name) : name ∈ file.supertypeNames :=
  List.mem_append_right _ (Option.mem_toList.mpr h)

end ClassFile

/-! ## Pointers to supertypes -/

/-- The pointers of an object to its supertypes are where the declared names lead. -/
structure Heap.Points (heap : Heap) (leads : String → Class → Prop) (c : Class) : Prop where
  /-- There is one for each interface, in the order of their declaration. -/
  interfaces : ∃ names, c.file.interfaceNames = .ok names ∧
    List.Forall₂ leads names (heap.linksOf c).interfaces
  superclass : Option.Rel leads c.superName (heap.linksOf c).superclass

theorem optionRel_imp {α β : Type} {r r' : α → β → Prop} (h : ∀ a b, r a b → r' a b) {a : Option α}
    {b : Option β} (hr : Option.Rel r a b) : Option.Rel r' a b := by
  cases hr with
  | some hab => exact .some (h _ _ hab)
  | none => exact .none

/-- Pointers stay right if their targets are still led to. -/
theorem Heap.Points.imp {heap heap' : Heap} {leads leads' : String → Class → Prop} {c : Class}
    (h : heap.Points leads c)
    (hsuperclass : (heap'.linksOf c).superclass = (heap.linksOf c).superclass)
    (hinterfaces : (heap'.linksOf c).interfaces = (heap.linksOf c).interfaces)
    (hleads : ∀ name p, leads name p → leads' name p) : heap'.Points leads' c where
  interfaces := by
    obtain ⟨names, hnames, hall⟩ := h.interfaces
    exact ⟨names, hnames, hinterfaces ▸ hall.imp hleads⟩
  superclass := hsuperclass ▸ optionRel_imp hleads h.superclass

theorem Heap.Points.imp_of_linksOf_eq {heap heap' : Heap} {leads leads' : String → Class → Prop}
    {c : Class} (h : heap.Points leads c) (hlinks : heap'.linksOf c = heap.linksOf c)
    (hleads : ∀ name p, leads name p → leads' name p) : heap'.Points leads' c :=
  h.imp (congrArg Links.superclass hlinks) (congrArg Links.interfaces hlinks) hleads

theorem Heap.points_setSupertypes {heap : Heap} {leads : String → Class → Prop} {c : Class}
    {names : List String} {superclass : Option Class} {interfaces : List Class}
    (hmade : c.id < heap.links.size) (hnames : c.file.interfaceNames = .ok names)
    (hinterfaces : List.Forall₂ leads names interfaces)
    (hsuperclass : Option.Rel leads c.superName superclass) :
    (heap.setSupertypes c superclass interfaces).Points leads c := by
  have hlinks : (heap.setSupertypes c superclass interfaces).linksOf c = _ :=
    linksOf_modify_of_eq rfl hmade
  constructor
  · exact ⟨names, hnames, by rw [hlinks]; exact hinterfaces⟩
  · rw [hlinks]
    exact hsuperclass

theorem Heap.Points.exists_leads {heap : Heap} {leads : String → Class → Prop} {c p : Class}
    (h : heap.Points leads c)
    (hp : (heap.linksOf c).superclass = some p ∨ p ∈ (heap.linksOf c).interfaces) :
    ∃ name, leads name p := by
  rcases hp with hp | hp
  · have hrel : Option.Rel leads c.superName (some p) := hp ▸ h.superclass
    generalize c.superName = superName at hrel
    cases hrel with
    | some hleads => exact ⟨_, hleads⟩
  · obtain ⟨names, _, hall⟩ := h.interfaces
    obtain ⟨name, _, hleads⟩ := exists_mem_of_forall₂ hall hp
    exact ⟨name, hleads⟩

theorem Heap.Points.exists_leads_of_mem {heap : Heap} {leads : String → Class → Prop} {c : Class}
    (h : heap.Points leads c) {name : String} (hname : name ∈ c.file.supertypeNames) :
    ∃ p, leads name p := by
  obtain ⟨names, hnames, hall⟩ := h.interfaces
  rcases (ClassFile.mem_supertypeNames_iff hnames).mp hname with hmem | hsuper
  · obtain ⟨p, _, hleads⟩ := exists_mem_of_forall₂ hall.flip hmem
    exact ⟨p, hleads⟩
  · have hrel : Option.Rel leads (some name) (heap.linksOf c).superclass := hsuper ▸ h.superclass
    generalize (heap.linksOf c).superclass = superclass at hrel
    cases hrel with
    | some hleads => exact ⟨_, hleads⟩

/-- The object is the target of a pointer. -/
def Links.Targets (links : Links) (c : Class) : Prop :=
  links.superclass = some c ∨ c ∈ links.interfaces ∨
    ∃ index : UInt16, links.constants[index]? = some c

/-- A loader in between two calls: nothing is being defined or linked, and the classes that are
linked point at classes that are linked. -/
structure LoaderState.AtRest (s : LoaderState) : Prop extends s.Coherent where
  not_linking : ∀ c, ¬ s.loader.Has c .linking
  points : ∀ {c}, s.loader.Has c .linked →
    s.heap.Points (fun name p ↦ s.loader.entry? name = some (.holds p .linked)) c

/-- A loader stays at rest if the heap changes but its linked classes keep their supertypes. -/
theorem LoaderState.AtRest.withHeap {l : Loader} {heap heap' : Heap} (h : AtRest ⟨l, heap⟩)
    (hsize : heap.links.size ≤ heap'.links.size)
    (hsuperclass : ∀ c, l.Has c .linked →
      (heap'.linksOf c).superclass = (heap.linksOf c).superclass)
    (hinterfaces : ∀ c, l.Has c .linked →
      (heap'.linksOf c).interfaces = (heap.linksOf c).interfaces) : AtRest ⟨l, heap'⟩ where
  wellFormed := h.wellFormed
  identity := h.identity
  made := fun hc ↦ Nat.lt_of_lt_of_le (h.made hc) hsize
  not_linking := h.not_linking
  points := fun {c} hc ↦
    (h.points hc).imp (hsuperclass c hc) (hinterfaces c hc) fun _ _ hp ↦ hp

end JavaClass
