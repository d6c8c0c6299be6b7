import JavaClass.Proofs.Session.Reachable

/-!
# Linked classes point at linked classes

Between two operations the supertypes that a class can be asked for are the whole truth: if it is
linked, they are the objects that its loader has under the declared names, all of them linked, and
otherwise there are none. No pointer leads to a class that was evicted or whose linking was taken
back, whatever failed on the way.

The statement is about what a session answers. A pointer to an object that is gone would read as
if it had never been set; it has to be shown that this does not happen to a class that is linked.

## Main statements

* `Session.linkClosed_run`: every run leaves a session in which linking is closed.
-/

namespace JavaClass

namespace Session

open Loader

variable {s : Session} {l : Loader} {c : Class}

theorem isAlive_of_has {stage : Stage} (hl : l ∈ s.loaders) (hc : l.Has c stage) :
    s.isAlive c = true := by
  rw [isAlive, Bool.or_eq_true]
  refine .inl (List.any_eq_true.mpr ⟨l, hl, ?_⟩)
  exact List.any_eq_true.mpr ⟨_, mem_classes_iff.mpr hc, beq_self_eq_true c.id⟩

/-- Linking is closed: the supertypes of a class are those that it declares, if it is linked, and
none otherwise. -/
structure LinkClosed (s : Session) : Prop where
  /-- There is a superclass if and only if one is declared, and it is the object under its name. -/
  superclass : ∀ l ∈ s.loaders, ∀ (key : String) (c : Class),
    l.cache[key]? = some (.holds c .linked) →
      Option.Rel (fun name p ↦ l.entry? name = some (.holds p .linked)) c.superName
        (s.superclass? c)
  /-- There is an interface for each index, in their order, and it is the object under the name to
  which the index leads. -/
  interfaces : ∀ l ∈ s.loaders, ∀ (key : String) (c : Class),
    l.cache[key]? = some (.holds c .linked) →
      List.Forall₂ (fun index p ↦ ∃ name, c.file.pool.className? index = some name ∧
        l.entry? name = some (.holds p .linked)) c.file.interfaces (s.interfaces c)
  /-- An object that no loader has linked has no supertypes, wherever it is. -/
  others : ∀ c : Class,
    (∀ l ∈ s.loaders, ∀ (key : String) (d : Class),
      l.cache[key]? = some (.holds d .linked) → ¬ d.same c) →
      s.superclass? c = none ∧ s.interfaces c = []

namespace Sound

/-- None of the supertypes of a linked class is gone. -/
theorem isAlive_of_target (h : s.Sound) (hl : l ∈ s.loaders) (hc : l.Has c .linked) {p : Class}
    (hp : (s.heap.linksOf c).superclass = some p ∨ p ∈ (s.heap.linksOf c).interfaces) :
    s.isAlive p = true := by
  obtain ⟨name, hentry⟩ := ((h.atRest hl).points hc).exists_leads hp
  exact isAlive_of_has hl ((h.atRest hl).wellFormed.has_of_entry? hentry).1

theorem superclass?_of_linked (h : s.Sound) (hl : l ∈ s.loaders) (hc : l.Has c .linked) :
    s.superclass? c = (s.heap.linksOf c).superclass := by
  rw [superclass?]
  cases hsuper : (s.heap.linksOf c).superclass with
  | none => rfl
  -- the target is cached, and so the pointer can be followed
  | some p => exact Option.filter_some_pos (h.isAlive_of_target hl hc (.inl hsuper))

theorem interfaces_of_linked (h : s.Sound) (hl : l ∈ s.loaders) (hc : l.Has c .linked) :
    s.interfaces c = (s.heap.linksOf c).interfaces :=
  List.filter_eq_self.mpr fun _ hp ↦ h.isAlive_of_target hl hc (.inr hp)

theorem supertypes_of_unlinked (h : s.Sound) (hc : s.Unlinked c) :
    s.superclass? c = none ∧ s.interfaces c = [] := by
  obtain ⟨hsuperclass, hinterfaces⟩ := h.bare hc
  rw [superclass?, hsuperclass, Session.interfaces, hinterfaces]
  exact ⟨rfl, rfl⟩

theorem linkClosed (h : s.Sound) : s.LinkClosed where
  superclass := by
    intro l hl key c hc
    obtain ⟨hhas, _⟩ := (h.atRest hl).wellFormed.has_of_getElem? hc
    rw [h.superclass?_of_linked hl hhas]
    exact ((h.atRest hl).points hhas).superclass
  interfaces := by
    intro l hl key c hc
    obtain ⟨hhas, _⟩ := (h.atRest hl).wellFormed.has_of_getElem? hc
    obtain ⟨names, hnames, hall⟩ := ((h.atRest hl).points hhas).interfaces
    rw [h.interfaces_of_linked hl hhas]
    exact forall₂_comp (ClassFile.interfaceNames_eq_ok_iff.mp hnames) hall
  others := by
    intro c hc
    exact h.supertypes_of_unlinked fun l hl d hd hid ↦ hc l hl d.name d hd (beq_iff_eq.mpr hid)

end Sound

/-- **Linking is closed after every run**, from any files and with any settings of the loaders,
whichever of the operations succeed. -/
theorem linkClosed_run {start : Session} {ops : List SessionOp} (hstart : start.Fresh)
    (hops : ∀ op ∈ ops, op.WorksOn start.loaders.length) : (run ops start).LinkClosed :=
  (hstart.sound.run hops).linkClosed

/-- The file of a class that extends another one. The names have to be short. -/
def classExtending (name superclass : Bytes) : Bytes :=
  [0xCA, 0xFE, 0xBA, 0xBE, 0, 0, 0, 52, 0, 5, 1, 0, UInt8.ofNat name.length] ++ name ++
    [7, 0, 1, 1, 0, UInt8.ofNat superclass.length] ++ superclass ++
    [7, 0, 3, 0, 0, 0, 2, 0, 4, 0, 0, 0, 0, 0, 0, 0, 0]

/-- The file of a class with a name of one letter, which extends another one. -/
def letterClass (name superclass : UInt8) : Bytes := classExtending [name] [superclass]

/-- A loader for two classes that extend each other. Its depth is just enough for them. -/
def cycle : Session where
  files := (FileSystem.empty.write ⟨false, ["A.class"]⟩ (letterClass 65 66)).write
    ⟨false, ["B.class"]⟩ (letterClass 66 65)
  loaders := [{ searchPath := ["."], maxLinkDepth := 1 }]

theorem fresh_cycle : cycle.Fresh where
  cache := by simp [cycle]
  heap := rfl
  held := rfl

theorem linkClosed_run_cycle :
    (run [.load 0 "A" none] cycle).LinkClosed ∧
      (run [.load 0 "A" none] cycle).loaders.map (fun l ↦ (l.entry? "B").bind Entry.stage?) =
        [some .linked] :=
  ⟨linkClosed_run fresh_cycle (by simp [cycle, SessionOp.WorksOn]), by decide +kernel⟩

end Session

end JavaClass
