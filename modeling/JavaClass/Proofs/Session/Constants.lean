import JavaClass.Proofs.Session.Isolation

/-!
# Resolved constants are stable

What a constant led to is recorded on the object that has the constant, and the record does not keep
the class alive. Nothing in an operation protects it: calls that fail evict classes, and the object
with the constant can be among these. Still a record is never lost and never changes its meaning.

Two things go together here. A class that is recorded is linked in the loader where it was found,
and what is linked is never evicted, so the record leads to a live object. And a constant with a
record that leads to a live object is not looked up again, so no other class can take its place.
`Session.Finds` is the one thing that makes a record. Everything else leaves the records of all
objects as they are.

## Main statements

* `Session.Sound.finds_or_constants_eq`: what an operation does to records.
* `Session.exists_foundIn`: each record goes back to an operation of the run that made it.
* `Session.recorded_stays`: it outlasts all operations that follow.
* `Session.stableConstants_run`: how constants of classes behave in the course of a run.
-/

namespace JavaClass

open Loader

/-! ## Records in a heap -/

namespace Heap

variable {heap : Heap} {c d target : Class} {index index' : UInt16}

theorem lt_size_of_recorded (h : (heap.linksOf d).constants[index]? = some target) :
    d.id < heap.links.size := by
  refine Nat.lt_of_not_le fun hle ↦ ?_
  rw [linksOf, Array.getElem?_eq_none hle, Option.getD_none, Std.ExtTreeMap.getElem?_empty] at h
  cases h

theorem getElem?_constants_setConstant (hmade : c.id < heap.links.size) :
    ((heap.setConstant c index target).linksOf d).constants[index']? =
      if c.id = d.id ∧ index = index' then some target
      else (heap.linksOf d).constants[index']? := by
  by_cases hid : c.id = d.id
  · rw [setConstant, linksOf_modify_of_eq hid hmade, Std.ExtTreeMap.getElem?_insert]
    simp [hid]
  · rw [setConstant, linksOf_modify_of_ne hid, if_neg fun h ↦ hid h.1]

end Heap

/-! ## Failures of loading -/

namespace Loader

variable {files : FileSystem} {l : Loader} {c : Class} {name name' : String} {index : UInt16}
  {s t : LoaderState} {e : LoadError}

theorem IsUndefinable.ne_danglingReference (h : IsUndefinable name e) :
    e ≠ .danglingReference name' index := by
  rintro rfl
  cases h

theorem Fault.ne_danglingReference {depth : Nat} (h : l.Fault files depth c e)
    (hwf : l.WellFormed) : e ≠ .danglingReference name' index := by
  cases h with
  | dangling => nofun
  | missing => nofun
  | undefinable _ hlookup => exact (isUndefinable_of_lookup hwf hlookup).ne_danglingReference
  | tooDeep => nofun

theorem ne_danglingReference_of_load (h : s.AtRest) (hrun : load files name s = .error e t) :
    e ≠ .danglingReference name' index := by
  rcases LoaderState.of_load_eq_error h hrun with hundefinable | ⟨l, depth, d, hwf, hfault⟩
  · exact hundefinable.ne_danglingReference
  · exact hfault.ne_danglingReference hwf

end Loader

namespace Session

variable {start s t : Session} {l : Loader} {c d target : Class} {number : Nat}
  {index index' : UInt16} {op : SessionOp} {ops later : List SessionOp}

/-! ## Records that lead to live objects -/

/-- Whatever is recorded is linked in some loader. -/
def Settled (s : Session) : Prop :=
  ∀ (d : Class) (index : UInt16) target, (s.heap.linksOf d).constants[index]? = some target →
    ∃ number, s.HasIn number target .linked

theorem HasIn.isAlive {stage : Stage} (h : s.HasIn number c stage) : s.isAlive c = true := by
  obtain ⟨l, hl, hc⟩ := h
  exact isAlive_of_has (List.mem_of_getElem? hl) hc

theorem Settled.constant?_eq (h : s.Settled) (d : Class) (index : UInt16) :
    s.constant? d index = (s.heap.linksOf d).constants[index]? := by
  rw [constant?]
  cases hrecorded : (s.heap.linksOf d).constants[index]? with
  | none => rfl
  | some target =>
    obtain ⟨_, htarget⟩ := h _ _ _ hrecorded
    exact Option.filter_some_pos htarget.isAlive

theorem Settled.of_continues (h : s.Settled) (hcontinues : s.Continues t)
    (hconstants : ∀ d, (t.heap.linksOf d).constants = (s.heap.linksOf d).constants) :
    t.Settled := by
  intro d index target hrecorded
  obtain ⟨number, htarget⟩ := h d index target (hconstants d ▸ hrecorded)
  exact ⟨number, hcontinues.hasIn_linked htarget⟩

theorem settled_run (hstart : start.Fresh) (hops : ∀ op ∈ ops, op.WorksOn start.loaders.length) :
    (run ops start).Settled := by
  intro d index target hrecorded
  obtain ⟨number, _, htarget⟩ := recorded_run hstart hops hrecorded
  exact ⟨number, htarget⟩

/-- A constant that has a live record is not looked up again, in whichever loader. -/
theorem resolve_of_constant? (h : s.constant? c index = some target) (number : Nat) :
    resolve number c index s = .ok (some target) s := by
  rw [resolve, EStateM.bind_apply, EStateM.get_apply]
  simp [h]

/-! ## What makes a record -/

/-- The operation asks a loader what a constant of the object leads to, which was not known yet, and
it finds this class. -/
structure Finds (s : Session) (op : SessionOp) (number : Nat) (c : Class) (index : UInt16)
    (target : Class) : Prop where
  op : ∃ handle as, op = .resolve number handle index as ∧ s.held[handle]? = some c
  unknown : s.constant? c index = none
  resolve : ∃ t, Session.resolve number c index s = .ok (some target) t

theorem Finds.refers (h : s.Finds op number c index target) : s.Refers c := by
  obtain ⟨_, _, _, hheld⟩ := h.op
  exact refers_of_held hheld

theorem Finds.getElem?_loaders (h : s.Finds op number c index target)
    (hop : op.WorksOn s.loaders.length) : ∃ l, s.loaders[number]? = some l := by
  obtain ⟨_, _, rfl, _⟩ := h.op
  exact ⟨_, List.getElem?_eq_getElem hop⟩

theorem heap_keep (s : Session) (handle : Option String) (found : Option Class) :
    (s.keep handle found).heap = s.heap := by
  rcases handle with _ | handle <;> rcases found with _ | c <;> rfl

theorem heap_answerFound (act : SessionM (Option Class)) (handle : Option String) (s : Session) :
    (answerFound act handle s).2.heap = (act s).state.heap := by
  rw [answerFound]
  cases act s with
  | ok found t => exact heap_keep t handle found
  | error e t => rfl

theorem loaders_answerFound (act : SessionM (Option Class)) (handle : Option String)
    (s : Session) : (answerFound act handle s).2.loaders = (act s).state.loaders := by
  rw [answerFound]
  cases act s with
  | ok found t => exact loaders_keep t handle found
  | error e t => rfl

theorem Finds.exists_load (h : s.Finds op number c index target) : ∃ name t,
    c.file.pool.className? index = some name ∧
      Session.load number name s = .ok (some target) t ∧
      (step op s).2.loaders = t.loaders ∧
      (step op s).2.heap = t.heap.setConstant c index target := by
  obtain ⟨handle, as, rfl, hheld⟩ := h.op
  obtain ⟨t, hfound⟩ := h.resolve
  rcases resolve_cases number c index s with ⟨_, hconstant, _⟩ | ⟨_, hresolve⟩ |
      ⟨name, hname, ⟨_, _, _, hresolve⟩ | ⟨_, _, hresolve⟩ | ⟨target', u, hload, hresolve⟩⟩
  · cases h.unknown.symm.trans hconstant
  · cases hresolve.symm.trans hfound
  · cases hresolve.symm.trans hfound
  · cases hresolve.symm.trans hfound
  · obtain ⟨⟨⟩, rfl⟩ := EStateM.Result.ok.inj (hresolve.symm.trans hfound)
    refine ⟨name, u, hname, hload, ?_, ?_⟩
    · rw [step, withHandle, hheld]
      exact (loaders_answerFound _ _ _).trans (by rw [hresolve]; rfl)
    · rw [step, withHandle, hheld]
      exact (heap_answerFound _ _ _).trans (by rw [hresolve]; rfl)

theorem Sound.constants_load (h : s.Sound) (hl : s.loaders[number]? = some l) (name : String)
    (d : Class) :
    ((Session.load number name s).state.heap.linksOf d).constants =
      (s.heap.linksOf d).constants := by
  have hrest := h.atRest (List.mem_of_getElem? hl)
  have hstate : (Session.load number name s).state = _ :=
    state_runLoader hl (Loader.load s.files name)
  rw [hstate]
  exact (LoaderState.evolves_load s.files name hrest).constants_eq d

theorem Sound.continues_load (h : s.Sound) (hl : s.loaders[number]? = some l) (name : String) :
    s.Continues (Session.load number name s).state := by
  have hstate : (Session.load number name s).state = _ :=
    state_runLoader hl (Loader.load s.files name)
  rw [hstate]
  exact continues_resume h hl
    (LoaderState.evolves_load s.files name (h.atRest (List.mem_of_getElem? hl)))

section Finds

variable (h : s.Finds op number c index target) (hs : s.Sound)
  (hop : op.WorksOn s.loaders.length)
include h hs hop

theorem Finds.name : ∃ name, c.file.pool.className? index = some name ∧
    target.name = internalName name := by
  obtain ⟨l, hl⟩ := h.getElem?_loaders hop
  obtain ⟨name, t, hname, hload, _⟩ := h.exists_load
  obtain ⟨u, hload, _⟩ := (runLoader_eq_ok_iff hl).mp hload
  exact ⟨name, hname, LoaderState.name_of_load (hs.atRest (List.mem_of_getElem? hl)) hload⟩

theorem Finds.hasIn : (step op s).2.HasIn number target .linked := by
  obtain ⟨l, hl⟩ := h.getElem?_loaders hop
  obtain ⟨_, _, _, hload, hloaders, _⟩ := h.exists_load
  exact (hs.hasIn_of_load hl hload).congr hloaders

theorem Finds.getElem?_constants :
    ((step op s).2.heap.linksOf d).constants[index']? =
      if c.id = d.id ∧ index = index' then some target
      else (s.heap.linksOf d).constants[index']? := by
  obtain ⟨l, hl⟩ := h.getElem?_loaders hop
  obtain ⟨name, t, _, hload, _, hheap⟩ := h.exists_load
  obtain ⟨u, hload', rfl⟩ := (runLoader_eq_ok_iff hl).mp hload
  have hconstants := hs.constants_load hl name d
  have hmade : c.id < (s.resume number u).heap.links.size :=
    Nat.lt_of_lt_of_le (hs.made h.refers) (hs.evolves_of_load hl hload').size_le
  rw [hload] at hconstants
  rw [hheap, Heap.getElem?_constants_setConstant hmade]
  exact congrArg (fun constants : Std.ExtTreeMap UInt16 Class ↦
    if c.id = d.id ∧ index = index' then some target else constants[index']?) hconstants

end Finds

/-- A constant that is asked for and not found out leaves no trace in the records. -/
theorem Sound.resolve_unfound (h : s.Sound) (hl : s.loaders[number]? = some l)
    (hunfound : ∀ target t, s.constant? c index = none →
      resolve number c index s ≠ .ok (some target) t) :
    s.Continues (resolve number c index s).state ∧
      ∀ d, ((resolve number c index s).state.heap.linksOf d).constants =
        (s.heap.linksOf d).constants := by
  have hafter {name : String} {r : EStateM.Result LoadError Session (Option Class)}
      (hload : Session.load number name s = r) : s.Continues r.state ∧
        ∀ d, (r.state.heap.linksOf d).constants = (s.heap.linksOf d).constants :=
    hload ▸ ⟨h.continues_load hl name, h.constants_load hl name⟩
  cases hconstant : s.constant? c index with
  | some target =>
    rw [resolve_of_constant? hconstant]
    exact ⟨.refl s, fun _ ↦ rfl⟩
  | none =>
    rcases resolve_cases number c index s with ⟨_, hknown, _⟩ | ⟨_, hresolve⟩ |
        ⟨_, _, ⟨_, _, hload, hresolve⟩ | ⟨_, hload, hresolve⟩ | ⟨target, _, _, hresolve⟩⟩
    · cases hconstant.symm.trans hknown
    · rw [hresolve]
      exact ⟨.refl s, fun _ ↦ rfl⟩
    · rw [hresolve]
      exact hafter hload
    · rw [hresolve]
      exact hafter hload
    · exact absurd hresolve (hunfound target _ hconstant)

/-- **What an operation does to records.** It finds out what a constant leads to, or all of them
remain as they are. -/
theorem Sound.finds_or_constants_eq (h : s.Sound) (hop : op.WorksOn s.loaders.length) :
    (∃ number c index target, s.Finds op number c index target) ∨
      ∀ d, ((Session.step op s).2.heap.linksOf d).constants = (s.heap.linksOf d).constants := by
  by_cases hresolve : ∃ number handle index as, op = .resolve number handle index as
  · obtain ⟨number, handle, index, as, rfl⟩ := hresolve
    cases hheld : s.held[handle]? with
    | none =>
      rw [Session.step, withHandle, hheld]
      exact .inr fun _ ↦ rfl
    | some c =>
      by_cases hfound : ∃ target t, s.constant? c index = none ∧
          resolve number c index s = .ok (some target) t
      · obtain ⟨target, t, hunknown, hrun⟩ := hfound
        exact .inl ⟨number, c, index, target, ⟨handle, as, rfl, hheld⟩, hunknown, t, hrun⟩
      · have hunfound := (h.resolve_unfound (List.getElem?_eq_getElem hop)
          fun target t hunknown hrun ↦ hfound ⟨target, t, hunknown, hrun⟩).2
        refine .inr fun d ↦ ?_
        rw [Session.step, withHandle, hheld]
        exact (congrArg (fun heap : Heap ↦ (heap.linksOf d).constants)
          (heap_answerFound _ _ _)).trans (hunfound d)
  · refine .inr fun d ↦ ?_
    have hbecomes := h.becomes_step hop
    generalize (Session.step op s).2 = t at hbecomes
    induction hbecomes with
    | same => rfl
    | write path contents => rfl
    | remove path => rfl
    | call hl hcall => exact (hcall.evolves h hl).constants_eq d
    | record index as => exact absurd ⟨_, _, index, as, rfl⟩ hresolve
    | hold _ _ ih => exact ih hop hresolve

/-! ## Records in the course of a run -/

/-- In the course of the run an operation on the loader has found what this constant of the object
leads to. -/
def FoundIn (start : Session) (ops : List SessionOp) (number : Nat) (c : Class) (index : UInt16)
    (target : Class) : Prop :=
  ∃ before op after, ops = before ++ op :: after ∧
    (run before start).Finds op number c index target

theorem FoundIn.append (h : FoundIn start ops number c index target) (later : List SessionOp) :
    FoundIn start (ops ++ later) number c index target := by
  obtain ⟨before, op, after, rfl, hfinds⟩ := h
  exact ⟨before, op, after ++ later, by simp, hfinds⟩

theorem run_append (ops later : List SessionOp) (s : Session) :
    run (ops ++ later) s = run later (run ops s) := List.foldl_append

/-- **What an operation comes across** it came across before, or it is new. -/
theorem Becomes.refers_or_new (h : s.Becomes op t) (hs : s.Sound) (hc : t.Refers c) :
    s.Refers c ∨ s.heap.links.size ≤ c.id := by
  induction h generalizing c with
  | same => exact .inl hc
  | write path contents => exact .inl hc
  | remove path => exact .inl hc
  | call hl hcall =>
    exact (Sound.refers_or_new hl (hcall.evolves hs hl) hc).imp_right And.left
  | @record number _ _ _ _ u _ target _ _ hl hload =>
    have hev := hs.evolves_of_load hl hload
    have htarget : HasIn (s.resume number u) number target .linked :=
      ⟨_, getElem?_loaders_resume_self hl _,
        LoaderState.has_linked_of_load (hs.atRest (List.mem_of_getElem? hl)) hload⟩
    exact (Sound.refers_or_new hl hev
      (Sound.refers_of_setConstant htarget.refers hc)).imp_right And.left
  | hold _ hheld ih => exact ih (Sound.refers_of_withHeld hheld hc)

/-- **Each record goes back to an operation of the run** that found the class. -/
theorem exists_foundIn (hstart : start.Fresh) (hops : ∀ op ∈ ops, op.WorksOn start.loaders.length)
    (hc : (run ops start).Refers c)
    (hrecorded : ((run ops start).heap.linksOf c).constants[index]? = some target) :
    ∃ number, FoundIn start ops number c index target := by
  induction ops using List.reverseRecOn with
  | nil =>
    have hmade : c.id < start.heap.links.size := Heap.lt_size_of_recorded hrecorded
    simp [hstart.heap] at hmade
  | append_singleton ops op ih =>
    obtain ⟨hops, hop⟩ := List.forall_mem_append.mp hops
    obtain ⟨hs, hlength⟩ := hstart.sound.keeps_run hops
    have hop := hlength ▸ hop op List.mem_cons_self
    rw [run_append_singleton] at hc hrecorded
    -- an object that is new now has no record before
    have hbefore {d : Class} (hid : d.id = c.id) (hmade : d.id < (run ops start).heap.links.size) :
        (run ops start).Refers c :=
      ((hs.becomes_step hop).refers_or_new hs hc).resolve_right (by omega)
    have hstays (hrecorded : ((run ops start).heap.linksOf c).constants[index]? = some target) :
        ∃ number, FoundIn start (ops ++ [op]) number c index target := by
      obtain ⟨number, hfound⟩ :=
        ih hops (hbefore rfl (Heap.lt_size_of_recorded hrecorded)) hrecorded
      exact ⟨number, hfound.append [op]⟩
    rcases hs.finds_or_constants_eq hop with ⟨number, d, index', target', hfinds⟩ | hconstants
    · rw [hfinds.getElem?_constants hs hop] at hrecorded
      split at hrecorded
      · next hsame =>
        obtain ⟨hid, rfl⟩ := hsame
        obtain rfl := Option.some.inj hrecorded
        obtain rfl := hs.identity hfinds.refers (hbefore hid (hs.made hfinds.refers)) hid
        exact ⟨number, ops, op, [], rfl, hfinds⟩
      · exact hstays hrecorded
    · exact hstays (hconstants c ▸ hrecorded)

theorem Sound.recorded_step (h : s.Sound) (hop : op.WorksOn s.loaders.length)
    (htarget : s.HasIn number target .linked)
    (hrecorded : (s.heap.linksOf c).constants[index]? = some target) :
    ((Session.step op s).2.heap.linksOf c).constants[index]? = some target := by
  rcases h.finds_or_constants_eq hop with ⟨_, d, index', _, hfinds⟩ | hconstants
  · rw [hfinds.getElem?_constants h hop, if_neg ?_]
    · exact hrecorded
    · -- the constant would have been known
      rintro ⟨hid, rfl⟩
      have hunknown := hfinds.unknown
      rw [constant?, Heap.linksOf_congr hid, hrecorded,
        Option.filter_some_pos htarget.isAlive] at hunknown
      cases hunknown
  · rw [hconstants, hrecorded]

/-- **A record outlasts all operations that follow**, since the class stays linked. -/
theorem recorded_stays (h : s.Sound) (hlater : ∀ op ∈ later, op.WorksOn s.loaders.length)
    (htarget : s.HasIn number target .linked)
    (hrecorded : (s.heap.linksOf c).constants[index]? = some target) :
    ((run later s).heap.linksOf c).constants[index]? = some target := by
  induction later using List.reverseRecOn with
  | nil => exact hrecorded
  | append_singleton ops op ih =>
    obtain ⟨hops, hop⟩ := List.forall_mem_append.mp hlater
    obtain ⟨hs, hlength⟩ := h.keeps_run hops
    rw [run_append_singleton]
    exact hs.recorded_step (hlength ▸ hop op List.mem_cons_self)
      ((continues_run h hops).hasIn_linked htarget) (ih hops)

theorem FoundIn.hasIn (h : FoundIn start ops number c index target) (hstart : start.Fresh)
    (hops : ∀ op ∈ ops, op.WorksOn start.loaders.length) :
    (run ops start).HasIn number target .linked := by
  obtain ⟨before, op, after, rfl, hfinds⟩ := h
  obtain ⟨hbefore, hop⟩ := List.forall_mem_append.mp hops
  obtain ⟨hop, hafter⟩ := List.forall_mem_cons.mp hop
  obtain ⟨hs, hlength⟩ := hstart.sound.keeps_run hbefore
  have hop := hlength ▸ hop
  obtain ⟨hs', hlength'⟩ := hs.step hop
  rw [run_append]
  exact (continues_run hs' ((hlength'.trans hlength).symm ▸ hafter)).hasIn_linked
    (hfinds.hasIn hs hop)

theorem FoundIn.name (h : FoundIn start ops number c index target) (hstart : start.Fresh)
    (hops : ∀ op ∈ ops, op.WorksOn start.loaders.length) :
    ∃ name, c.file.pool.className? index = some name ∧ target.name = internalName name := by
  obtain ⟨before, op, after, rfl, hfinds⟩ := h
  obtain ⟨hbefore, hop⟩ := List.forall_mem_append.mp hops
  obtain ⟨hs, hlength⟩ := hstart.sound.keeps_run hbefore
  exact hfinds.name hs (hlength ▸ hop op List.mem_cons_self)

/-! ## Constants of classes -/

/-- The report of a constant that is no reference to a class is about this constant, and it comes
before anything is done. -/
theorem Sound.resolve_eq_dangling_iff (h : s.Sound) (hl : s.loaders[number]? = some l)
    {name : String} :
    resolve number c index s = .error (.danglingReference name index') t ↔
      s.constant? c index = none ∧ c.file.pool.className? index = none ∧
        name = c.name ∧ index' = index ∧ t = s := by
  rcases resolve_cases number c index s with ⟨target, hconstant, hresolve⟩ | ⟨hnone, hresolve⟩ |
      ⟨name, hname, hrest⟩
  · simp [hresolve, hconstant]
  · cases hconstant : s.constant? c index with
    | some target =>
      rw [resolve_of_constant? hconstant] at hresolve
      cases hresolve
    | none => simp [hresolve, hnone, and_assoc, eq_comm]
  · simp only [hname, reduceCtorEq, false_and, and_false, iff_false]
    intro hdangling
    rcases hrest with ⟨e, u, hload, hresolve⟩ | ⟨_, _, hresolve⟩ | ⟨_, _, _, hresolve⟩ <;>
      cases hresolve.symm.trans hdangling
    obtain ⟨v, hload, _⟩ := (runLoader_eq_error_iff hl).mp hload
    exact ne_danglingReference_of_load (h.atRest (List.mem_of_getElem? hl)) hload rfl

/-- Constants of classes lead where they led before, at the end of this run and ever after. -/
structure StableConstants (start : Session) (ops : List SessionOp) : Prop where
  /-- What has been found for a constant has its name. -/
  name : ∀ {c index target}, (run ops start).Refers c →
    (run ops start).constant? c index = some target →
      ∃ name, c.file.pool.className? index = some name ∧ target.name = internalName name
  /-- It is linked in the loader that was asked when it was found. -/
  linked : ∀ {c index target}, (run ops start).Refers c →
    (run ops start).constant? c index = some target →
      (∃ number, FoundIn start ops number c index target) ∧
        ∀ number, FoundIn start ops number c index target →
          (run ops start).HasIn number target .linked
  /-- Whatever is done from now on, it is the answer, and asking any of the loaders does nothing. -/
  kept : ∀ {c index target}, (run ops start).constant? c index = some target →
    ∀ later, (∀ op ∈ later, op.WorksOn start.loaders.length) →
      (run later (run ops start)).constant? c index = some target ∧
        ∀ number, resolve number c index (run later (run ops start)) =
          .ok (some target) (run later (run ops start))
  /-- Where no class is found, nothing becomes known about any constant, and nothing is
  forgotten. -/
  failed : ∀ {number c index t}, number < start.loaders.length →
    (resolve number c index (run ops start) = .ok none t ∨
      ∃ e, resolve number c index (run ops start) = .error e t) →
      ∀ d index', t.constant? d index' = (run ops start).constant? d index'
  dangling_iff : ∀ {number c index name index' t}, number < start.loaders.length →
    (resolve number c index (run ops start) = .error (.danglingReference name index') t ↔
      (run ops start).constant? c index = none ∧ c.file.pool.className? index = none ∧
        name = c.name ∧ index' = index ∧ t = run ops start)

/-- **Resolved constants are stable**, in the course of every run. -/
theorem stableConstants_run (hstart : start.Fresh)
    (hops : ∀ op ∈ ops, op.WorksOn start.loaders.length) : StableConstants start ops := by
  obtain ⟨hs, hlength⟩ := hstart.sound.keeps_run hops
  have hsettled : (run ops start).Settled := settled_run hstart hops
  have hfound {c target : Class} {index : UInt16} (hc : (run ops start).Refers c)
      (hconstant : (run ops start).constant? c index = some target) :
      ∃ number, FoundIn start ops number c index target :=
    exists_foundIn hstart hops hc (hsettled.constant?_eq c index ▸ hconstant)
  have hloader {number : Nat} (hlt : number < start.loaders.length) :
      ∃ l, (run ops start).loaders[number]? = some l :=
    ⟨_, List.getElem?_eq_getElem (hlength.symm ▸ hlt)⟩
  constructor
  case name =>
    intro c index target hc hconstant
    obtain ⟨number, hfound⟩ := hfound hc hconstant
    exact hfound.name hstart hops
  case linked =>
    intro c index target hc hconstant
    exact ⟨hfound hc hconstant, fun number hfound ↦ hfound.hasIn hstart hops⟩
  case kept =>
    intro c index target hconstant later hlater
    have hlater := hlength.symm ▸ hlater
    have hrecorded := hsettled.constant?_eq c index ▸ hconstant
    obtain ⟨number, htarget⟩ := hsettled _ _ _ hrecorded
    have hstays : (run later (run ops start)).constant? c index = some target := by
      rw [constant?, recorded_stays hs hlater htarget hrecorded]
      exact Option.filter_some_pos ((continues_run hs hlater).hasIn_linked htarget).isAlive
    exact ⟨hstays, resolve_of_constant? hstays⟩
  case failed =>
    intro number c index t hlt hfailed d index'
    obtain ⟨l, hl⟩ := hloader hlt
    obtain ⟨hcontinues, hconstants⟩ := hs.resolve_unfound hl fun target u _ hrun ↦ by
      rcases hfailed with hnone | ⟨e, herror⟩
      · cases hnone.symm.trans hrun
      · cases herror.symm.trans hrun
    have hstate : (resolve number c index (run ops start)).state = t := by
      rcases hfailed with hnone | ⟨e, herror⟩
      · rw [hnone]; rfl
      · rw [herror]; rfl
    rw [hstate] at hcontinues hconstants
    rw [(hsettled.of_continues hcontinues hconstants).constant?_eq, hconstants,
      hsettled.constant?_eq]
  case dangling_iff =>
    intro number c index name index' t hlt
    obtain ⟨l, hl⟩ := hloader hlt
    exact hs.resolve_eq_dangling_iff hl

/-- After the constant was resolved abroad, the file of its class is removed, and so the class that
has the constant cannot be linked where it was defined. -/
def evictedAtHome : List SessionOp := [.removeFile ⟨false, ["B.class"]⟩, .link 0 "a"]

theorem worksOn_evictedAtHome : ∀ op ∈ evictedAtHome, op.WorksOn twoLoaders.loaders.length := by
  simp [evictedAtHome, twoLoaders, SessionOp.WorksOn]

/-- The class that has the constant is evicted, and the constant leads where it led before. -/
theorem stableConstants_run_twoLoaders : ∃ c target l,
    (run resolvedAbroad twoLoaders).held["a"]? = some c ∧ c.name = "A" ∧
      (run resolvedAbroad twoLoaders).constant? c 4 = some target ∧ target.name = "B" ∧
      (run evictedAtHome (run resolvedAbroad twoLoaders)).loaders[0]? = some l ∧
      l.cache["A"]? = none ∧
      (run evictedAtHome (run resolvedAbroad twoLoaders)).constant? c 4 = some target ∧
      StableConstants twoLoaders resolvedAbroad := by
  have hrun : ∃ c ∈ (run resolvedAbroad twoLoaders).held["a"]?, c.name = "A" ∧
      ∃ target ∈ (run resolvedAbroad twoLoaders).constant? c 4, target.name = "B" ∧
      ∃ l ∈ (run evictedAtHome (run resolvedAbroad twoLoaders)).loaders[0]?,
        l.cache["A"]?.isNone = true := by
    decide +kernel
  obtain ⟨c, hc, hname, target, htarget, hname', l, hl, habsent⟩ := hrun
  have hstable := stableConstants_run fresh_twoLoaders worksOn_resolvedAbroad
  exact ⟨c, target, l, hc, hname, htarget, hname', hl, Option.isNone_iff_eq_none.mp habsent,
    (hstable.kept htarget evictedAtHome worksOn_evictedAtHome).1, hstable⟩

end Session

end JavaClass
