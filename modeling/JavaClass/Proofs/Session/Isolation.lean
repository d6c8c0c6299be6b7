import JavaClass.Proofs.Session.Permanence

/-!
# How far loaders are isolated

Classes go from one loader to another under handles, and what a class points at is there for whoever
holds it. So it is a question which loader has the class that an operation yields. Finding, loading
and defining go by the cache of the loader that they address, and what they yield is there.
Resolving a constant is different. What a constant led to is recorded on the object that has the
constant and not with the loader, and it is the answer for every other loader as well.

The record can be followed back. It was made by an operation that addressed some loader, and this
loader has had the class linked ever since. That is as far as the isolation goes: a class that was
handed to another loader, and had a constant resolved there, is answered by its own loader with a
class that this one does not have.

## Main statements

* `Session.recorded_run`: what is recorded on objects stems from an operation of the run.
* `Session.isolated_run`: which loader has the class that an operation yields.
* `Session.not_isolated`: it need not be the one that the operation addresses.
-/

namespace JavaClass

namespace Session

open Loader

variable {start s t : Session} {l : Loader} {c d target : Class} {stage : Stage} {number : Nat}
  {index : UInt16} {op : SessionOp} {ops : List SessionOp}

/-! ## Where records stem from -/

/-- In the course of the run an operation on the loader has resolved this constant of the object. -/
def ResolvedIn (start : Session) (ops : List SessionOp) (number : Nat) (d : Class)
    (index : UInt16) : Prop :=
  ∃ before after handle c as, ops = before ++ .resolve number handle index as :: after ∧
    (run before start).held[handle]? = some c ∧ c.same d = true

theorem ResolvedIn.append (h : ResolvedIn start ops number d index) (later : List SessionOp) :
    ResolvedIn start (ops ++ later) number d index := by
  obtain ⟨before, after, handle, c, as, rfl, hheld, hsame⟩ := h
  exact ⟨before, after ++ later, handle, c, as, by simp, hheld, hsame⟩

theorem Continues.hasIn_linked (h : s.Continues t) (hc : s.HasIn number c .linked) :
    t.HasIn number c .linked := by
  obtain ⟨l, hl, hc⟩ := hc
  have hlt := (List.getElem?_eq_some_iff.mp hl).1
  have hm := List.getElem?_eq_getElem (h.length_eq.symm ▸ hlt)
  exact ⟨_, hm, (h.lasts hl hm).linked_kept hc⟩

/-- An operation records nothing, unless it is one that resolves the constant. Then what it records
is linked in the loader that it addresses. -/
theorem Becomes.recorded (h : s.Becomes op t) (hs : s.Sound)
    (hrecorded : (t.heap.linksOf d).constants[index]? = some target) :
    (s.heap.linksOf d).constants[index]? = some target ∨
      ∃ number handle c as, op = .resolve number handle index as ∧ s.held[handle]? = some c ∧
        c.same d = true ∧ t.HasIn number target .linked := by
  induction h with
  | same => exact .inl hrecorded
  | write path contents => exact .inl hrecorded
  | remove path => exact .inl hrecorded
  | call hl hcall => exact .inl ((hcall.evolves hs hl).constants_eq d ▸ hrecorded)
  | @record number handle _ as _ _ c _ _ hheld hl hload =>
    rcases Heap.constants_setConstant hrecorded with ⟨hid, rfl, rfl⟩ | hrecorded
    · exact .inr ⟨number, handle, c, as, rfl, hheld, beq_iff_eq.mpr hid, _,
        getElem?_loaders_resume_self hl _,
        LoaderState.has_linked_of_load (hs.atRest (List.mem_of_getElem? hl)) hload⟩
    · exact .inl ((hs.evolves_of_load hl hload).constants_eq d ▸ hrecorded)
  | hold _ _ ih => exact ih hrecorded

/-- **What is recorded on an object stems from an operation of the run**, and the class is linked in
the loader that this operation addressed. -/
theorem recorded_run (hstart : start.Fresh) (hops : ∀ op ∈ ops, op.WorksOn start.loaders.length)
    (hrecorded : ((run ops start).heap.linksOf d).constants[index]? = some target) :
    ∃ number, ResolvedIn start ops number d index ∧
      (run ops start).HasIn number target .linked := by
  induction ops using List.reverseRecOn with
  | nil =>
    have hlinks : (run [] start).heap.linksOf d = {} := by
      simp [run, hstart.heap, Heap.linksOf]
    rw [hlinks, Std.ExtTreeMap.getElem?_empty] at hrecorded
    cases hrecorded
  | append_singleton ops op ih =>
    obtain ⟨hops, hop⟩ := List.forall_mem_append.mp hops
    obtain ⟨hs, hlength⟩ := hstart.sound.keeps_run hops
    have hbecomes := hs.becomes_step (hlength ▸ hop op List.mem_cons_self)
    rw [run_append_singleton] at hrecorded ⊢
    rcases hbecomes.recorded hs hrecorded with hbefore |
        ⟨number, handle, c, as, rfl, hheld, hsame, hc⟩
    · obtain ⟨number, hresolved, hc⟩ := ih hops hbefore
      exact ⟨number, hresolved.append _, (hbecomes.continues hs).hasIn_linked hc⟩
    · exact ⟨number, ⟨ops, [], handle, c, as, rfl, hheld, hsame⟩, hc⟩

/-! ## Classes that operations yield -/

theorem answerFound_eq_iff {act : SessionM (Option Class)} {handle : Option String} :
    answerFound act handle s = (.ok (.found (some c)), t) ↔
      ∃ u, act s = .ok (some c) u ∧ u.keep handle (some c) = t := by
  rw [answerFound]
  cases act s with
  | error e u => simp
  | ok found u =>
    simp only [Prod.mk.injEq, Except.ok.injEq, SessionAnswer.found.injEq,
      EStateM.Result.ok.injEq]
    constructor
    · rintro ⟨rfl, rfl⟩
      exact ⟨u, ⟨rfl, rfl⟩, rfl⟩
    · rintro ⟨_, ⟨rfl, rfl⟩, rfl⟩
      exact ⟨rfl, rfl⟩

theorem loaders_keep (s : Session) (handle : Option String) (found : Option Class) :
    (s.keep handle found).loaders = s.loaders := by
  rcases handle with _ | handle <;> rcases found with _ | c <;> rfl

/-- The classes that operations yield are where they can be expected. -/
structure Isolated (start : Session) (ops : List SessionOp) : Prop where
  find : ∀ {number name handle c t}, number < start.loaders.length →
    step (.find number name handle) (run ops start) = (.ok (.found (some c)), t) →
      ∃ stage, t.HasIn number c stage
  load : ∀ {number name handle c t}, number < start.loaders.length →
    step (.load number name handle) (run ops start) = (.ok (.found (some c)), t) →
      t.HasIn number c .linked
  define : ∀ {number name contents handle c t}, number < start.loaders.length →
    step (.define number name contents handle) (run ops start) = (.ok (.found (some c)), t) →
      ∃ stage, t.HasIn number c stage
  /-- If the constant of the object was not resolved in another loader before, then the class is
  linked in the loader that is addressed, and otherwise in such a loader. -/
  resolve : ∀ {number handle index as c t}, number < start.loaders.length →
    step (.resolve number handle index as) (run ops start) = (.ok (.found (some c)), t) →
      t.HasIn number c .linked ∨ ∃ d other, (run ops start).held[handle]? = some d ∧
        ResolvedIn start ops other d index ∧ t.HasIn other c .linked

/-- **The classes that operations yield**, in the course of every run. -/
theorem isolated_run (hstart : start.Fresh) (hops : ∀ op ∈ ops, op.WorksOn start.loaders.length) :
    Isolated start ops := by
  obtain ⟨hs, hlength⟩ := hstart.sound.keeps_run hops
  have hloader {number : Nat} (hlt : number < start.loaders.length) :
      ∃ l, (run ops start).loaders[number]? = some l :=
    ⟨_, List.getElem?_eq_getElem (hlength.symm ▸ hlt)⟩
  constructor
  case find =>
    intro number name handle c t hlt hstep
    obtain ⟨l, hl⟩ := hloader hlt
    obtain ⟨u, hrun, rfl⟩ := answerFound_eq_iff.mp hstep
    obtain ⟨stage, hc⟩ := hs.exists_hasIn_of_find hl hrun
    exact ⟨stage, hc.congr (loaders_keep _ _ _)⟩
  case load =>
    intro number name handle c t hlt hstep
    obtain ⟨l, hl⟩ := hloader hlt
    obtain ⟨u, hrun, rfl⟩ := answerFound_eq_iff.mp hstep
    exact (hs.hasIn_of_load hl hrun).congr (loaders_keep _ _ _)
  case define =>
    intro number name contents handle c t hlt hstep
    obtain ⟨l, hl⟩ := hloader hlt
    obtain ⟨u, hrun, rfl⟩ := answerFound_eq_iff.mp hstep
    obtain ⟨_, hrun, ⟨⟩⟩ := EStateM.map_eq_ok_iff.mp hrun
    obtain ⟨stage, hc⟩ := hs.exists_hasIn_of_define hl hrun
    exact ⟨stage, hc.congr (loaders_keep _ _ _)⟩
  case resolve =>
    intro number handle index as c t hlt hstep
    obtain ⟨l, hl⟩ := hloader hlt
    rw [step, withHandle] at hstep
    split at hstep
    · next d hheld =>
      obtain ⟨u, hrun, rfl⟩ := answerFound_eq_iff.mp hstep
      rcases resolve_cases number d index (run ops start) with ⟨target, hconstant, hresolve⟩ |
          ⟨_, hresolve⟩ | ⟨name, _, ⟨e, v, _, hresolve⟩ | ⟨v, _, hresolve⟩ |
            ⟨target, v, hname, hresolve⟩⟩ <;> rw [hresolve] at hrun <;> cases hrun
      · -- the constant has been resolved before
        obtain ⟨other, hresolved, hc⟩ :=
          recorded_run hstart hops (Option.filter_eq_some_iff.mp hconstant).1
        exact .inr ⟨d, other, hheld, hresolved, hc.congr (loaders_keep _ _ _)⟩
      · exact .inl ((hs.hasIn_of_load hl hname).congr (loaders_keep _ _ _))
    · cases hstep

/-- Two loaders for the same two classes. -/
def twoLoaders : Session where
  files := cycle.files
  loaders := [{ searchPath := ["."] }, { searchPath := ["."] }]

theorem fresh_twoLoaders : twoLoaders.Fresh where
  cache := by simp [twoLoaders]
  heap := rfl
  held := rfl

/-- One of them defines a class, and the other one resolves a constant of it. -/
def resolvedAbroad : List SessionOp := [.find 0 "A" (some "a"), .resolve 1 "a" 4 none]

theorem worksOn_resolvedAbroad : ∀ op ∈ resolvedAbroad, op.WorksOn twoLoaders.loaders.length := by
  simp [resolvedAbroad, twoLoaders, SessionOp.WorksOn]

def answered? : Except SessionError SessionAnswer → Option Class
  | .ok (.found c) => c
  | .ok .done | .error _ => none

theorem answered?_eq_some_iff {answer : Except SessionError SessionAnswer} {c : Class} :
    answered? answer = some c ↔ answer = .ok (.found (some c)) := by
  rcases answer with _ | _ | found <;> simp [answered?]

/-- When the first loader resolves the same constant, it yields a class that it does not have. -/
theorem step_resolvedAbroad : ∃ c t,
    step (.resolve 0 "a" 4 none) (run resolvedAbroad twoLoaders) = (.ok (.found (some c)), t) ∧
      ∃ l, t.loaders[0]? = some l ∧ l.cache[c.name]? = none := by
  have hrun : ∃ c ∈ answered? (step (.resolve 0 "a" 4 none) (run resolvedAbroad twoLoaders)).1,
      ∃ l ∈ (step (.resolve 0 "a" 4 none) (run resolvedAbroad twoLoaders)).2.loaders[0]?,
        l.cache[c.name]?.isNone = true := by
    decide +kernel
  obtain ⟨c, hc, l, hl, habsent⟩ := hrun
  exact ⟨c, _, Prod.ext (answered?_eq_some_iff.mp hc) rfl, l, hl,
    Option.isNone_iff_eq_none.mp habsent⟩

theorem isolated_run_twoLoaders : ∃ c d t other,
    step (.resolve 0 "a" 4 none) (run resolvedAbroad twoLoaders) = (.ok (.found (some c)), t) ∧
      (∃ l, t.loaders[0]? = some l ∧ l.cache[c.name]? = none) ∧
      (run resolvedAbroad twoLoaders).held["a"]? = some d ∧
      ResolvedIn twoLoaders resolvedAbroad other d 4 ∧ t.HasIn other c .linked := by
  obtain ⟨c, t, hstep, l, hl, habsent⟩ := step_resolvedAbroad
  rcases (isolated_run fresh_twoLoaders worksOn_resolvedAbroad).resolve (by decide) hstep with
    ⟨m, hm, hc⟩ | ⟨d, other, hheld, hresolved, hc⟩
  · obtain rfl := Option.some.inj (hl.symm.trans hm)
    rw [Has, habsent] at hc
    cases hc
  · exact ⟨c, d, t, other, hstep, ⟨l, hl, habsent⟩, hheld, hresolved, hc⟩

/-- **Resolving does not keep loaders apart.** The class that it yields need not be one that the
loader has which is addressed. -/
theorem not_isolated : ¬ ∀ start ops number handle index as c t, Fresh start →
    (∀ op ∈ ops, op.WorksOn start.loaders.length) → number < start.loaders.length →
      step (.resolve number handle index as) (run ops start) = (.ok (.found (some c)), t) →
        t.HasIn number c .linked := by
  intro h
  obtain ⟨c, t, hstep, l, hl, habsent⟩ := step_resolvedAbroad
  obtain ⟨m, hm, hc⟩ := h twoLoaders resolvedAbroad 0 "a" 4 none c t fresh_twoLoaders
    worksOn_resolvedAbroad (by decide) hstep
  obtain rfl := Option.some.inj (hl.symm.trans hm)
  rw [Has, habsent] at hc
  cases hc

end Session

end JavaClass
