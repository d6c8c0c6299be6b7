import JavaClass.Proofs.Session.Operations

/-!
# Sessions that can be reached

A run begins with loaders that have no classes, over any files, and each of its operations
addresses one of these loaders. The handles are common to all of them, so an operation may well get
a class of another loader, or one that was evicted long ago. Every session in the course of a run
is sound, by induction on the run with one case for each thing that an operation can do.

## Main statements

* `Session.Sound.step`: an operation keeps a session sound, whether it succeeds or fails.
* `Session.Sound.of_run`: what every operation preserves is preserved by a run.
* `Session.Reachable.sound`: every session that can be reached is sound.
-/

namespace JavaClass

namespace Session

open Loader

variable {s t : Session} {op : SessionOp} {ops : List SessionOp}

/-- A session became another one in order, with as many loaders. -/
def Keeps (s t : Session) : Prop := t.Sound ∧ t.loaders.length = s.loaders.length

theorem Becomes.keeps (h : s.Becomes op t) (hs : s.Sound) : s.Keeps t := by
  induction h with
  | same => exact ⟨hs, rfl⟩
  | write path contents => exact ⟨hs.withFiles _, rfl⟩
  | remove path => exact ⟨hs.withFiles _, rfl⟩
  | call hl hcall => exact ⟨hs.resume hl (hcall.evolves hs hl), List.length_set⟩
  | @record number _ index _ _ u c target _ _ hl hload =>
    have htarget : HasIn (s.resume number u) number target .linked :=
      ⟨_, getElem?_loaders_resume_self hl _,
        LoaderState.has_linked_of_load (hs.atRest (List.mem_of_getElem? hl)) hload⟩
    exact ⟨(hs.resume hl (hs.evolves_of_load hl hload)).setConstant htarget.refers c index,
      List.length_set⟩
  | hold _ hheld ih => exact ⟨ih.1.withHeld hheld, ih.2⟩

theorem Sound.link {number : Nat} {l : Loader} {c : Class} (h : s.Sound)
    (hl : s.loaders[number]? = some l) (hc : s.Refers c) :
    s.Keeps (Session.link number c s).state := by
  have hstate : (Session.link number c s).state = _ := state_runLoader hl (Loader.link s.files c)
  rw [hstate]
  exact ⟨h.resume hl (h.evolves_link hl hc), List.length_set⟩

/-- **Every operation keeps a session in order.** -/
theorem Sound.step (h : s.Sound) (hop : op.WorksOn s.loaders.length) : s.Keeps (step op s).2 :=
  (h.becomes_step hop).keeps h

theorem Sound.keeps_run (h : s.Sound) (hops : ∀ op ∈ ops, op.WorksOn s.loaders.length) :
    s.Keeps (run ops s) := by
  induction ops generalizing s with
  | nil => exact ⟨h, rfl⟩
  | cons op ops ih =>
    obtain ⟨hsound, hlength⟩ := h.step (hops op List.mem_cons_self)
    obtain ⟨hsound', hlength'⟩ := ih hsound fun op' hop' ↦ by
      rw [hlength]
      exact hops op' (List.mem_cons_of_mem op hop')
    exact ⟨hsound', hlength'.trans hlength⟩

theorem Sound.run (h : s.Sound) (hops : ∀ op ∈ ops, op.WorksOn s.loaders.length) :
    (run ops s).Sound :=
  (h.keeps_run hops).1

theorem run_append_singleton (ops : List SessionOp) (op : SessionOp) (s : Session) :
    run (ops ++ [op]) s = (step op (run ops s)).2 := by
  rw [run, List.foldl_append]
  rfl

/-- **What every operation preserves is preserved by a run.** -/
theorem Sound.of_run (inv : Session → Prop) (hs : s.Sound)
    (hops : ∀ op ∈ ops, op.WorksOn s.loaders.length)
    (hinv : ∀ op ∈ ops, ∀ t u, t.Sound → t.loaders.length = s.loaders.length → t.Becomes op u →
      inv t → inv u) (h : inv s) : inv (Session.run ops s) := by
  induction ops using List.reverseRecOn with
  | nil => exact h
  | append_singleton ops op ih =>
    have hbefore (op' : SessionOp) (hop' : op' ∈ ops) : op' ∈ ops ++ [op] :=
      List.mem_append_left _ hop'
    have hlast : op ∈ ops ++ [op] := List.mem_append_right _ List.mem_cons_self
    obtain ⟨hsound, hlength⟩ := hs.keeps_run fun op' hop' ↦ hops op' (hbefore op' hop')
    rw [run_append_singleton]
    exact hinv op hlast _ _ hsound hlength (hsound.becomes_step (hlength ▸ hops op hlast))
      (ih (fun op' hop' ↦ hops op' (hbefore op' hop')) fun op' hop' ↦ hinv op' (hbefore op' hop'))

/-- Nothing has been done in the session: no loader has a class, and no object has been made. -/
structure Fresh (s : Session) : Prop where
  cache : ∀ l ∈ s.loaders, l.cache = ∅
  heap : s.heap = {}
  held : s.held = ∅

theorem Fresh.sound (h : s.Fresh) : s.Sound := by
  have hlinks (d : Class) : s.heap.linksOf d = {} := by simp [h.heap, Heap.linksOf]
  have hnone {l : Loader} (hl : l ∈ s.loaders) (key : String) : l.cache[key]? = none := by
    rw [h.cache l hl]
    exact Std.ExtTreeMap.getElem?_empty
  have hhas {l : Loader} (hl : l ∈ s.loaders) {c : Class} {stage : Stage} : ¬ l.Has c stage := by
    rw [Has, hnone hl]
    simp
  have hrefers (c : Class) : ¬ s.Refers c := by
    rintro (⟨l, hl, stage, hc⟩ | ⟨handle, hc⟩ | ⟨d, hc⟩)
    · exact hhas hl hc
    · rw [h.held, Std.ExtTreeMap.getElem?_empty] at hc
      cases hc
    · rw [hlinks] at hc
      rcases hc with hc | hc | ⟨index, hc⟩
      · cases hc
      · cases hc
      · rw [Std.ExtTreeMap.getElem?_empty] at hc
        cases hc
  exact {
    made := fun hc ↦ absurd hc (hrefers _)
    identity := fun hc ↦ absurd hc (hrefers _)
    apart := fun hi _ hc ↦ absurd hc (hhas (List.mem_of_getElem? hi))
    atRest := fun {l} hl ↦ {
      wellFormed := fun key entry hentry ↦ by
        rw [hnone hl] at hentry
        cases hentry
      identity := fun hc ↦ absurd hc (hhas hl)
      made := fun hc ↦ absurd hc (hhas hl)
      not_linking := fun _ ↦ hhas hl
      points := fun hc ↦ absurd hc (hhas hl) }
    bare := fun {d} _ ↦ by rw [hlinks]; exact ⟨rfl, rfl⟩ }

/-- The session is what some operations on its loaders make of a fresh one. -/
def Reachable (s : Session) : Prop :=
  ∃ start ops, Fresh start ∧ (∀ op ∈ ops, op.WorksOn start.loaders.length) ∧ run ops start = s

/-- **Every session that can be reached is sound.** -/
theorem Reachable.sound (h : s.Reachable) : s.Sound := by
  obtain ⟨start, ops, hfresh, hops, rfl⟩ := h
  exact hfresh.sound.run hops

end Session

end JavaClass
