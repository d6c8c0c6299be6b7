import JavaClass.Proofs.Session.History

/-!
# Caches are consistent

While an operation works on a loader, a name can be marked as being defined and a class as being
linked. Neither is left of it in the end, whichever way the operation came to its end. So a name in
a cache always has a class, which is defined or linked, and it is the name of that class as class
files spell it. What a loader says about names and about classes follows from this.

No one meets such a mark either, in the middle of an operation. A definition is over before the next
one begins, and the errors of finding and linking are about files and supertypes.

## Main statements

* `Session.cache_consistent`: every run leaves consistent caches.
-/

namespace JavaClass

namespace Loader

/-! ## Consistent caches -/

/-- The cache of a loader is consistent. -/
structure Consistent (loader : Loader) : Prop where
  /-- Under each name there is a class of that name, and nothing is under way with it. -/
  holds : ∀ (key : String) (entry : Entry), loader.cache[key]? = some entry →
    ∃ c stage, entry = .holds c stage ∧ (stage = .defined ∨ stage = .linked) ∧ key = c.name ∧
      '.' ∉ key.toList
  /-- Each name is listed once. -/
  nodup : (loader.classes.map (·.1)).Nodup
  isLoaded_iff_listed : ∀ name, loader.isLoaded name = true ↔
    internalName name ∈ loader.classes.map (·.1)
  isLoaded_iff_entry : ∀ name, loader.isLoaded name = true ↔ (loader.entry? name).isSome = true
  /-- Names that are the same apart from how they are spelled do not have two classes. -/
  unique : ∀ {key key' c c' stage stage'}, (key, c, stage) ∈ loader.classes →
    (key', c', stage') ∈ loader.classes → internalName key = internalName key' →
      key = key' ∧ c = c'

theorem nodup_classes (loader : Loader) : (loader.classes.map (·.1)).Nodup := by
  rw [List.Nodup, List.pairwise_map, classes, List.pairwise_filterMap]
  refine Std.ExtTreeMap.distinct_keys_toList.imp ?_
  rintro ⟨key, entry⟩ ⟨key', entry'⟩ hne listed hlisted listed' hlisted' heq
  cases entry with
  | defining => cases hlisted
  | holds c stage =>
    cases entry' with
    | defining => cases hlisted'
    | holds c' stage' =>
      cases hlisted
      cases hlisted'
      exact hne (by simpa using heq)

end Loader

open Loader

variable {files : FileSystem} {s t : LoaderState} {c : Class} {name key : String} {e : LoadError}

theorem LoaderState.AtRest.consistent (h : s.AtRest) : s.loader.Consistent := by
  have hloaded (name : String) : s.loader.isLoaded name = true ↔
      ∃ c stage, s.loader.entry? name = some (.holds c stage) := by
    rw [isLoaded]
    rcases s.loader.entry? name with _ | _ | ⟨c, stage⟩ <;> simp [Entry.class?]
  constructor
  case holds =>
    intro key entry hentry
    obtain ⟨c, stage, rfl, rfl, hname⟩ := h.wellFormed hentry
    refine ⟨c, stage, rfl, ?_, rfl, internalName_eq_self_iff.mp hname⟩
    cases stage with
    | defined => exact .inl rfl
    | linking => exact absurd hentry (h.not_linking c)
    | linked => exact .inr rfl
  case nodup => exact s.loader.nodup_classes
  case isLoaded_iff_listed =>
    intro name
    simp only [hloaded, List.mem_map, Prod.exists, mem_classes_iff, Loader.entry?]
    constructor
    · rintro ⟨c, stage, hentry⟩
      exact ⟨_, c, stage, hentry, rfl⟩
    · rintro ⟨_, c, stage, hentry, rfl⟩
      exact ⟨c, stage, hentry⟩
  case isLoaded_iff_entry =>
    intro name
    rw [hloaded, Option.isSome_iff_exists]
    constructor
    · rintro ⟨c, stage, hentry⟩
      exact ⟨_, hentry⟩
    · rintro ⟨entry, hentry⟩
      obtain ⟨c, stage, rfl, _⟩ := h.wellFormed hentry
      exact ⟨c, stage, hentry⟩
  case unique =>
    intro key key' c c' stage stage' hc hc' heq
    rw [mem_classes_iff] at hc hc'
    obtain ⟨hc, rfl⟩ := h.wellFormed.has_of_getElem? hc
    obtain ⟨hc', rfl⟩ := h.wellFormed.has_of_getElem? hc'
    rw [h.wellFormed.internalName_name hc, h.wellFormed.internalName_name hc'] at heq
    exact ⟨heq, Has.eq_of_name_eq hc hc' heq⟩

/-! ## No name is met while it is being defined -/

/-- The run does not fail because a name is being defined. -/
def AvoidsMarks {σ α : Type} (r : EStateM.Result LoadError σ α) : Prop :=
  ∀ key t, r ≠ .error (.reentrantDefinition key) t

theorem avoidsMarks_ok {σ α : Type} (a : α) (t : σ) :
    AvoidsMarks (.ok a t : EStateM.Result LoadError σ α) := nofun

namespace Loader

theorem IsUndefinable.ne_reentrantDefinition (h : IsUndefinable name e) (key : String) :
    e ≠ .reentrantDefinition key := by
  rintro rfl
  cases h

theorem Fault.ne_reentrantDefinition {l : Loader} {depth : Nat} (h : l.Fault files depth c e)
    (hwf : l.WellFormed) (key : String) : e ≠ .reentrantDefinition key := by
  cases h with
  | dangling => nofun
  | missing => nofun
  | undefinable _ hlookup => exact (isUndefinable_of_lookup hwf hlookup).ne_reentrantDefinition key
  | tooDeep => nofun

theorem avoidsMarks_find (h : s.AtRest) : AvoidsMarks (find files name s) := by
  intro key t hrun
  have hlookup := (of_find_eq_error h.wellFormed hrun).1
  exact (isUndefinable_of_lookup h.wellFormed hlookup).ne_reentrantDefinition key rfl

theorem avoidsMarks_define {contents : Bytes} (h : s.AtRest) :
    AvoidsMarks (define name contents s) := by
  intro key t hrun
  rcases define_cases h.wellFormed name contents with ⟨_, _, _, hdefine⟩ | ⟨_, _, _, _, hdefine⟩ |
      ⟨e, he, hdefine⟩ <;> rw [hdefine] at hrun <;> cases hrun
  exact he.ne_reentrantDefinition key rfl

theorem avoidsMarks_link (h : s.AtRest)
    (hc : ∀ d stage, s.loader.Has d stage → d.id = c.id → d = c) :
    AvoidsMarks (link files c s) := by
  intro key t hrun
  by_cases hcached : ∃ stage, s.loader.Has c stage
  · obtain ⟨stage, hcached⟩ := hcached
    obtain ⟨_, _, _, _, last, _, hfault⟩ :=
      link_error h (supertypeClosed_true _ _) hcached trivial hrun
    exact hfault.ne_reentrantDefinition h.wellFormed key rfl
  · rw [LoaderState.link_of_uncached h hc hcached] at hrun
    cases hrun

theorem avoidsMarks_load (h : s.AtRest) : AvoidsMarks (load files name s) := by
  intro key t hrun
  rcases LoaderState.of_load_eq_error h hrun with hundefinable | ⟨l, depth, d, hwf, hfault⟩
  · exact hundefinable.ne_reentrantDefinition key rfl
  · exact hfault.ne_reentrantDefinition hwf key rfl

end Loader

namespace Session

variable {start s : Session} {l : Loader} {c : Class} {number : Nat} {op : SessionOp}
  {ops : List SessionOp} {key : String}

theorem avoidsMarks_runLoader {α : Type} {act : LoaderM α} (hl : s.loaders[number]? = some l)
    (h : AvoidsMarks (act ⟨l, s.heap⟩)) : AvoidsMarks (runLoader number act s) := by
  intro key t hrun
  obtain ⟨u, hact, _⟩ := (runLoader_eq_error_iff hl).mp hrun
  exact h key u hact

/-- The answer is not that a name is being defined. -/
def NotReentrant (answer : Except SessionError SessionAnswer) : Prop :=
  ∀ key, answer ≠ .error (.failed (.reentrantDefinition key))

theorem notReentrant_answerFound {act : SessionM (Option Class)} (h : AvoidsMarks (act s))
    (handle : Option String) : NotReentrant (answerFound act handle s).1 := by
  intro key heq
  rw [answerFound] at heq
  split at heq
  · cases heq
  · next hact =>
    cases heq
    exact h key _ hact

theorem notReentrant_answerDone {act : SessionM Unit} (h : AvoidsMarks (act s)) :
    NotReentrant (answerDone act s).1 := by
  intro key heq
  rw [answerDone] at heq
  split at heq
  · cases heq
  · next hact =>
    cases heq
    exact h key _ hact

theorem notReentrant_withHandle {handle : String}
    {next : Class → Session → Except SessionError SessionAnswer × Session}
    (hnext : ∀ c, s.Refers c → NotReentrant (next c s).1) :
    NotReentrant (withHandle handle next s).1 := by
  rw [withHandle]
  split
  · next c hc => exact hnext c (refers_of_held hc)
  · intro key heq
    cases heq

theorem Sound.avoidsMarks_load (h : s.Sound) (hl : s.loaders[number]? = some l) (name : String) :
    AvoidsMarks (Session.load number name s) :=
  avoidsMarks_runLoader hl (Loader.avoidsMarks_load (h.atRest (List.mem_of_getElem? hl)))

theorem Sound.avoidsMarks_resolve (h : s.Sound) (hl : s.loaders[number]? = some l)
    (index : UInt16) : AvoidsMarks (Session.resolve number c index s) := by
  intro key t hrun
  rcases resolve_cases number c index s with ⟨target, _, hresolve⟩ | ⟨_, hresolve⟩ |
      ⟨name, _, ⟨e, t, hname, hresolve⟩ | ⟨t, _, hresolve⟩ | ⟨target, t, _, hresolve⟩⟩ <;>
    rw [hresolve] at hrun <;> cases hrun
  exact h.avoidsMarks_load hl name key _ hname

/-- **No operation comes upon a name while it is being defined.** -/
theorem notReentrant_step (h : s.Sound) (hop : op.WorksOn s.loaders.length) :
    NotReentrant (step op s).1 := by
  have hloader {number : Nat} (hlt : number < s.loaders.length) :
      ∃ l, s.loaders[number]? = some l ∧ LoaderState.AtRest ⟨l, s.heap⟩ :=
    ⟨_, List.getElem?_eq_getElem hlt, h.atRest (List.getElem_mem hlt)⟩
  have hlook (look : Session → Option Class) (handle : Option String) :
      NotReentrant (answerFound (return look (← get)) handle s).1 :=
    notReentrant_answerFound (avoidsMarks_ok (look s) s) handle
  cases op with
  | find number name handle =>
    obtain ⟨l, hl, hrest⟩ := hloader hop
    exact notReentrant_answerFound (avoidsMarks_runLoader hl (avoidsMarks_find hrest)) handle
  | load number name handle =>
    obtain ⟨l, hl, _⟩ := hloader hop
    exact notReentrant_answerFound (h.avoidsMarks_load hl name) handle
  | define number name contents handle =>
    obtain ⟨l, hl, hrest⟩ := hloader hop
    refine notReentrant_answerFound (fun key t hrun ↦ ?_) handle
    exact avoidsMarks_runLoader hl (avoidsMarks_define hrest) key t
      (EStateM.map_eq_error_iff.mp hrun)
  | link number handle =>
    obtain ⟨l, hl, hrest⟩ := hloader hop
    refine notReentrant_withHandle fun c hc ↦ notReentrant_answerDone ?_
    exact avoidsMarks_runLoader hl (avoidsMarks_link hrest
      fun _ _ hd ↦ h.identity (refers_of_has (List.mem_of_getElem? hl) hd) hc)
  | resolve number handle index as =>
    obtain ⟨l, hl, _⟩ := hloader hop
    exact notReentrant_withHandle fun c _ ↦
      notReentrant_answerFound (h.avoidsMarks_resolve hl index) as
  | constant handle index as => exact notReentrant_withHandle fun c _ ↦ hlook _ as
  | superclass handle as => exact notReentrant_withHandle fun c _ ↦ hlook _ as
  | interface handle position as => exact notReentrant_withHandle fun c _ ↦ hlook _ as
  | addDirectory number directory =>
    obtain ⟨l, hl, _⟩ := hloader hop
    exact notReentrant_answerDone (avoidsMarks_runLoader hl (avoidsMarks_ok _ _))
  | writeFile path contents => exact notReentrant_answerDone (avoidsMarks_ok _ _)
  | removeFile path => exact notReentrant_answerDone (avoidsMarks_ok _ _)
  | drop handle =>
    exact notReentrant_withHandle fun c _ ↦
      notReentrant_answerDone (avoidsMarks_ok _ _)
  | reset number => exact hop.elim

/-- **The caches of a session are consistent after every run**, whichever of the operations succeed
and whatever is in the files and in the bytes that classes are defined from. And no operation
answers that a name is being defined. -/
theorem cache_consistent (hstart : start.Fresh)
    (hops : ∀ op ∈ ops, op.WorksOn start.loaders.length) :
    (∀ l ∈ (run ops start).loaders, l.Consistent) ∧
      ∀ op, op.WorksOn start.loaders.length → ∀ key,
        (step op (run ops start)).1 ≠ .error (.failed (.reentrantDefinition key)) := by
  obtain ⟨hs, hlength⟩ := hstart.sound.keeps_run hops
  exact ⟨fun l hl ↦ (hs.atRest hl).consistent, fun op hop ↦ notReentrant_step hs (hlength ▸ hop)⟩

/-- Two definitions fail, from the file of another class and from no class file at all, and so does
loading a class whose superclass is missing. Then two classes are loaded that extend each other. -/
theorem cache_consistent_threeFiles :
    let s := run [.define 0 "A" (letterClass 66 65) none, .define 0 "x.A" [0] none,
      .load 0 "C" none, .load 0 "A" none] threeFiles
    (∀ l ∈ s.loaders, l.Consistent ∧ l.classes.map (·.1) = ["A", "B"]) ∧
      ∀ key, (step (.find 0 "C" none) s).1 ≠ .error (.failed (.reentrantDefinition key)) := by
  intro s
  have hops : ∀ op ∈ [SessionOp.define 0 "A" (letterClass 66 65) none, .define 0 "x.A" [0] none,
      .load 0 "C" none, .load 0 "A" none], op.WorksOn threeFiles.loaders.length := by
    simp [SessionOp.WorksOn, threeFiles]
  obtain ⟨hconsistent, hanswers⟩ := cache_consistent fresh_threeFiles hops
  have hlisted : ∀ l ∈ s.loaders, l.classes.map (·.1) = ["A", "B"] := by decide +kernel
  exact ⟨fun l hl ↦ ⟨hconsistent l hl, hlisted l hl⟩,
    hanswers (.find 0 "C" none) (by simp [SessionOp.WorksOn, threeFiles])⟩

end Session

end JavaClass
