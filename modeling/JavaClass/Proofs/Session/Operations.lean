import JavaClass.Proofs.Session.Soundness

/-!
# What an operation makes of a session

There are many operations, but they do few things to a session. At most one loader is called, and
resolving records what a constant led to. Files can change, and so can handles, though only to
objects that the session can come across anyway. `Session.Becomes` has one case for each of these
things, and `Session.Calls` one for each way of calling a loader. What is shown for the cases holds
of every operation.

## Main statements

* `Session.Sound.becomes_step`: what becomes of a sound session.
* `Session.Calls.evolves`: what becomes of the loader that is called.
-/

namespace JavaClass

/-- The operation addresses one of so many loaders, if it addresses any, and it puts no new loader
in the place of an old one. -/
def SessionOp.WorksOn (count : Nat) : SessionOp → Prop
  | .find loader _ _ | .load loader _ _ | .define loader _ _ _ | .link loader _
  | .resolve loader _ _ _ | .addDirectory loader _ => loader < count
  | .constant .. | .superclass .. | .interface .. | .writeFile .. | .removeFile .. | .drop _ => True
  | .reset _ => False

namespace Session

open Loader

variable {s : Session} {c : Class} {l : Loader} {op : SessionOp}

/-- The loader with this number has the class, at this stage. -/
def HasIn (s : Session) (number : Nat) (c : Class) (stage : Stage) : Prop :=
  ∃ l, s.loaders[number]? = some l ∧ l.Has c stage

theorem HasIn.refers {number : Nat} {stage : Stage} (h : s.HasIn number c stage) : s.Refers c := by
  obtain ⟨l, hl, hc⟩ := h
  exact refers_of_has (List.mem_of_getElem? hl) hc

theorem HasIn.congr {t : Session} {number : Nat} {stage : Stage} (h : s.HasIn number c stage)
    (hloaders : t.loaders = s.loaders) : t.HasIn number c stage := by
  rwa [HasIn, hloaders]

/-- What an operation calls on a loader. -/
inductive Calls (s : Session) : SessionOp → Nat → (LoaderState → LoaderState) → Prop
  | find (number : Nat) (name : String) (as : Option String) :
    Calls s (.find number name as) number fun u ↦ (Loader.find s.files name u).state
  | load (number : Nat) (name : String) (as : Option String) :
    Calls s (.load number name as) number fun u ↦ (Loader.load s.files name u).state
  | define (number : Nat) (name : String) (contents : Bytes) (as : Option String) :
    Calls s (.define number name contents as) number fun u ↦ (Loader.define name contents u).state
  | link (number : Nat) {handle : String} {c : Class} (hheld : s.held[handle]? = some c) :
    Calls s (.link number handle) number fun u ↦ (Loader.link s.files c u).state
  | resolve (number : Nat) (handle : String) (index : UInt16) (as : Option String)
    (name : String) :
    Calls s (.resolve number handle index as) number fun u ↦ (Loader.load s.files name u).state
  | addDirectory (number : Nat) (directory : String) :
    Calls s (.addDirectory number directory) number fun u ↦
      { u with loader := { u.loader with searchPath := u.loader.searchPath ++ [directory] } }

/-- What an operation can make of a session. -/
inductive Becomes (s : Session) : SessionOp → Session → Prop
  | same (op : SessionOp) : Becomes s op s
  | write (path : Path) (contents : Bytes) :
    Becomes s (.writeFile path contents) { s with files := s.files.write path contents }
  | remove (path : Path) : Becomes s (.removeFile path) { s with files := s.files.remove path }
  | call {op : SessionOp} {number : Nat} {f : LoaderState → LoaderState} {l : Loader}
    (hl : s.loaders[number]? = some l) (hcall : s.Calls op number f) :
    Becomes s op (s.resume number (f ⟨l, s.heap⟩))
  /-- The call has found what a constant leads to. -/
  | record {number : Nat} {handle : String} (index : UInt16) (as : Option String) {l : Loader}
    {u : LoaderState} {c target : Class} {name : String} (hheld : s.held[handle]? = some c)
    (hl : s.loaders[number]? = some l)
    (hload : Loader.load s.files name ⟨l, s.heap⟩ = .ok (some target) u) :
    Becomes s (.resolve number handle index as)
      { s.resume number u with heap := u.heap.setConstant c index target }
  /-- After something else, the handles change. -/
  | hold {op : SessionOp} {t : Session} (h : Becomes s op t)
    {held : Std.ExtTreeMap String Class}
    (hheld : ∀ (handle : String) c, held[handle]? = some c → t.Refers c) :
    Becomes s op { t with held }

/-! ## Calls -/

section Calls

variable {number : Nat} {α : Type} {act : LoaderM α} {index : UInt16}

theorem becomes_runLoader (hl : s.loaders[number]? = some l)
    (hcall : s.Calls op number fun u ↦ (act u).state) :
    s.Becomes op (runLoader number act s).state := by
  rw [state_runLoader hl]
  exact .call hl hcall

theorem exists_hasIn_of_runLoader (hl : s.loaders[number]? = some l) {a : α} {t : Session}
    (hc : ∀ u, act ⟨l, s.heap⟩ = .ok a u → ∃ stage, u.loader.Has c stage)
    (hrun : runLoader number act s = .ok a t) : ∃ stage, t.HasIn number c stage := by
  obtain ⟨u, hact, rfl⟩ := (runLoader_eq_ok_iff hl).mp hrun
  obtain ⟨stage, hc⟩ := hc u hact
  exact ⟨stage, u.loader, getElem?_loaders_resume_self hl u, hc⟩

theorem Sound.evolves_link (h : s.Sound) (hl : s.loaders[number]? = some l) (hc : s.Refers c) :
    LoaderState.Evolves ⟨l, s.heap⟩ (Loader.link s.files c ⟨l, s.heap⟩).state :=
  LoaderState.evolves_link s.files (h.atRest (List.mem_of_getElem? hl))
    fun _ _ hd hid ↦ h.identity (refers_of_has (List.mem_of_getElem? hl) hd) hc hid

/-- **Every call evolves its loader.** -/
theorem Calls.evolves {f : LoaderState → LoaderState} (hcall : s.Calls op number f) (h : s.Sound)
    (hl : s.loaders[number]? = some l) : LoaderState.Evolves ⟨l, s.heap⟩ (f ⟨l, s.heap⟩) := by
  have hrest := h.atRest (List.mem_of_getElem? hl)
  cases hcall with
  | find _ name _ => exact LoaderState.evolves_find s.files name hrest
  | load _ name _ => exact LoaderState.evolves_load s.files name hrest
  | define _ name contents _ => exact LoaderState.evolves_define name contents hrest
  -- the class may be of another loader; all that matters is that it is one of the objects
  | link _ hheld => exact h.evolves_link hl (refers_of_held hheld)
  | resolve _ _ _ _ name => exact LoaderState.evolves_load s.files name hrest
  | addDirectory _ _ => exact LoaderState.evolves_searchPath _ hrest

theorem Sound.evolves_of_load (h : s.Sound) (hl : s.loaders[number]? = some l) {name : String}
    {found : Option Class} {u : LoaderState}
    (hload : Loader.load s.files name ⟨l, s.heap⟩ = .ok found u) :
    LoaderState.Evolves ⟨l, s.heap⟩ u := by
  simpa [hload] using
    LoaderState.evolves_load s.files name (h.atRest (List.mem_of_getElem? hl))

theorem Sound.exists_hasIn_of_find (h : s.Sound) (hl : s.loaders[number]? = some l) {name : String}
    {t : Session} (hrun : Session.find number name s = .ok (some c) t) :
    ∃ stage, t.HasIn number c stage :=
  exists_hasIn_of_runLoader hl
    (fun _ ↦ exists_has_of_find (h.atRest (List.mem_of_getElem? hl)).wellFormed) hrun

theorem Sound.exists_hasIn_of_define (h : s.Sound) (hl : s.loaders[number]? = some l)
    {name : String} {contents : Bytes} {t : Session}
    (hrun : Session.define number name contents s = .ok c t) : ∃ stage, t.HasIn number c stage :=
  exists_hasIn_of_runLoader hl
    (fun _ ↦ LoaderState.exists_has_of_define (h.atRest (List.mem_of_getElem? hl))) hrun

theorem Sound.hasIn_of_load (h : s.Sound) (hl : s.loaders[number]? = some l) {name : String}
    {t : Session} (hrun : Session.load number name s = .ok (some c) t) :
    t.HasIn number c .linked := by
  obtain ⟨u, hload, rfl⟩ := (runLoader_eq_ok_iff hl).mp hrun
  exact ⟨u.loader, getElem?_loaders_resume_self hl u,
    LoaderState.has_linked_of_load (h.atRest (List.mem_of_getElem? hl)) hload⟩

/-- **What resolving a constant does.** -/
theorem resolve_cases (number : Nat) (c : Class) (index : UInt16) (s : Session) :
    (∃ target, s.constant? c index = some target ∧
      resolve number c index s = .ok (some target) s) ∨
    (c.file.pool.className? index = none ∧
      resolve number c index s = .error (.danglingReference c.name index) s) ∨
    ∃ name, c.file.pool.className? index = some name ∧
      ((∃ e t, Session.load number name s = .error e t ∧ resolve number c index s = .error e t) ∨
        (∃ t, Session.load number name s = .ok none t ∧ resolve number c index s = .ok none t) ∨
          ∃ target t, Session.load number name s = .ok (some target) t ∧
            resolve number c index s =
              .ok (some target) { t with heap := t.heap.setConstant c index target }) := by
  rw [resolve, EStateM.bind_apply, EStateM.get_apply]
  cases hconstant : s.constant? c index with
  | some target => exact .inl ⟨target, rfl, by simp [hconstant]⟩
  | none =>
    cases hname : c.file.pool.className? index with
    | none => exact .inr (.inl ⟨rfl, by simp [hconstant]⟩)
    | some name =>
      refine .inr (.inr ⟨name, rfl, ?_⟩)
      cases hload : Session.load number name s with
      | error e t =>
        exact .inl ⟨e, t, rfl, by simp [hconstant, EStateM.bind_apply, hload]⟩
      | ok found t =>
        cases found with
        | none => exact .inr (.inl ⟨t, rfl, by simp [hconstant, EStateM.bind_apply, hload]⟩)
        | some target =>
          exact .inr (.inr ⟨target, t, rfl, by
            simp [hconstant, EStateM.bind_apply, EStateM.map_apply, hload]⟩)

theorem refers_of_constant? {d : Class} {index : UInt16} (h : s.constant? d index = some c) :
    s.Refers c :=
  refers_of_targets (.inr (.inr ⟨index, (Option.filter_eq_some_iff.mp h).1⟩))

theorem refers_of_superclass? {d : Class} (h : s.superclass? d = some c) : s.Refers c :=
  refers_of_targets (.inl (Option.filter_eq_some_iff.mp h).1)

theorem refers_of_mem_interfaces {d : Class} (h : c ∈ s.interfaces d) : s.Refers c :=
  refers_of_targets (.inr (.inl (List.mem_filter.mp h).1))

end Calls

/-! ## Operations -/

theorem Becomes.answerFound {act : SessionM (Option Class)} (h : s.Becomes op (act s).state)
    (hfound : ∀ c t, act s = .ok (some c) t → t.Refers c) (handle : Option String) :
    s.Becomes op (answerFound act handle s).2 := by
  rw [Session.answerFound]
  cases hact : act s with
  | error e t =>
    rw [hact] at h
    exact h
  | ok found t =>
    rw [hact] at h
    rcases handle with _ | handle
    · exact h
    · rcases found with _ | c
      · exact h
      · refine h.hold fun handle' c' hc' ↦ ?_
        rw [Std.ExtTreeMap.getElem?_insert] at hc'
        split at hc'
        · exact hfound c' t (hc' ▸ hact)
        · exact refers_of_held hc'

theorem snd_answerDone (act : SessionM Unit) (s : Session) :
    (answerDone act s).2 = (act s).state := by
  rw [answerDone]
  cases act s <;> rfl

theorem Becomes.answerDone {act : SessionM Unit} (h : s.Becomes op (act s).state) :
    s.Becomes op (answerDone act s).2 := by
  rwa [snd_answerDone]

/-- Looking at a session changes nothing but the handles. -/
theorem becomes_look {look : Session → Option Class} (hlook : ∀ c, look s = some c → s.Refers c)
    (handle : Option String) :
    s.Becomes op (answerFound (return look (← get)) handle s).2 := by
  refine Becomes.answerFound (.same op) (fun c t hrun ↦ ?_) handle
  obtain ⟨hc, rfl⟩ := EStateM.Result.ok.inj hrun
  exact hlook c hc

theorem Becomes.withHandle {handle : String}
    {next : Class → Session → Except SessionError SessionAnswer × Session}
    (hnext : ∀ c, s.held[handle]? = some c → s.Becomes op (next c s).2) :
    s.Becomes op (withHandle handle next s).2 := by
  rw [Session.withHandle]
  split
  · next c hc => exact hnext c hc
  · exact .same op

theorem Sound.becomes_resolve {handle : String} {number : Nat} {index : UInt16} (h : s.Sound)
    (hl : s.loaders[number]? = some l) (hheld : s.held[handle]? = some c) (as : Option String) :
    s.Becomes (.resolve number handle index as) (resolve number c index s).state ∧
      ∀ d t, resolve number c index s = .ok (some d) t → t.Refers d := by
  have hload (name : String) :
      s.Becomes (.resolve number handle index as) (load number name s).state :=
    becomes_runLoader hl (.resolve number handle index as name)
  rcases resolve_cases number c index s with ⟨target, hconstant, hrun⟩ | ⟨_, hrun⟩ |
      ⟨name, _, ⟨e, t, hname, hrun⟩ | ⟨t, hname, hrun⟩ | ⟨target, t, hname, hrun⟩⟩ <;> rw [hrun]
  · refine ⟨.same _, ?_⟩
    rintro d t ⟨⟩
    exact refers_of_constant? hconstant
  · exact ⟨.same _, by rintro d t ⟨⟩⟩
  · have hafter := hload name
    rw [hname] at hafter
    exact ⟨hafter, by rintro d t ⟨⟩⟩
  · have hafter := hload name
    rw [hname] at hafter
    exact ⟨hafter, by rintro d t ⟨⟩⟩
  · have htarget := h.hasIn_of_load hl hname
    obtain ⟨u, hu, rfl⟩ := (runLoader_eq_ok_iff hl).mp hname
    refine ⟨.record index as hheld hl hu, ?_⟩
    rintro d _ ⟨⟩
    exact HasIn.refers (htarget.congr rfl)

/-- **What an operation makes of a session.** -/
theorem Sound.becomes_step (h : s.Sound) (hop : op.WorksOn s.loaders.length) :
    s.Becomes op (step op s).2 := by
  have hloader {number : Nat} (hlt : number < s.loaders.length) :
      s.loaders[number]? = some s.loaders[number] := List.getElem?_eq_getElem hlt
  cases op with
  | find number name as =>
    have hl := hloader hop
    have hfind : s.Becomes (.find number name as) (find number name s).state :=
      becomes_runLoader hl (.find number name as)
    refine hfind.answerFound (fun c t hrun ↦ ?_) as
    obtain ⟨_, hc⟩ := h.exists_hasIn_of_find hl hrun
    exact hc.refers
  | load number name as =>
    have hl := hloader hop
    have hload : s.Becomes (.load number name as) (load number name s).state :=
      becomes_runLoader hl (.load number name as)
    exact hload.answerFound (fun c t hrun ↦ (h.hasIn_of_load hl hrun).refers) as
  | define number name contents as =>
    have hl := hloader hop
    have hdefine : s.Becomes (.define number name contents as)
        (runLoader number (Loader.define name contents) s).state :=
      becomes_runLoader hl (.define number name contents as)
    rw [← EStateM.state_bind_pure _ some] at hdefine
    refine Becomes.answerFound hdefine (fun c t hrun ↦ ?_) as
    obtain ⟨d, hrun, ⟨⟩⟩ := EStateM.map_eq_ok_iff.mp hrun
    obtain ⟨_, hc⟩ := h.exists_hasIn_of_define hl hrun
    exact hc.refers
  | link number handle =>
    refine Becomes.withHandle fun c hc ↦ ?_
    have hlink : s.Becomes (.link number handle) (link number c s).state :=
      becomes_runLoader (hloader hop) (.link number hc)
    exact hlink.answerDone
  | resolve number handle index as =>
    refine Becomes.withHandle fun c hc ↦ ?_
    obtain ⟨hafter, hrefers⟩ := h.becomes_resolve (hloader hop) hc as
    exact hafter.answerFound hrefers as
  | constant handle index as =>
    exact Becomes.withHandle fun c _ ↦ becomes_look (fun _ ↦ refers_of_constant?) as
  | superclass handle as =>
    exact Becomes.withHandle fun c _ ↦ becomes_look (fun _ ↦ refers_of_superclass?) as
  | interface handle position as =>
    exact Becomes.withHandle fun c _ ↦ becomes_look
      (fun _ hd ↦ refers_of_mem_interfaces (List.mem_of_getElem? hd)) as
  | addDirectory number directory =>
    exact (becomes_runLoader (hloader hop) (.addDirectory number directory)).answerDone
  | writeFile path contents => exact .write path contents
  | removeFile path => exact .remove path
  | drop handle =>
    refine Becomes.withHandle fun c _ ↦ (Becomes.same _).hold fun handle' c' hc' ↦ ?_
    rw [Std.ExtTreeMap.getElem?_erase] at hc'
    split at hc'
    · cases hc'
    · exact refers_of_held hc'
  | reset number => exact hop.elim

end Session

end JavaClass
