import JavaClass.Proofs.Pool.Meaning
import Mathlib.Data.Set.Insert

/-!
# Resolving by rounds

A pool is resolved in rounds, which fill a table while they look things up in it. What the table has
at some time is described by the set of the constants that have been settled: the slots of these
have their meanings, and the others are blank (`RawPool.Settled`). A constant whose references need
only constants that have been settled gets its meaning, or the first of its references that leads
nowhere is the error; where in the table the targets stand makes no difference.

`RawPool.Yields` is this for any part of the work, and parts that follow each other add up. The
rounds are in an order in which nothing is needed before it has been settled, so all of them
together yield the meaning of the table.

## Main statements

* `Pool.decode_eq_meaning`: what is made of the bytes of a pool.
-/

namespace JavaClass

variable {α : Type}

/-! ## Entries of a pool -/

namespace Pool

theorem entry?_insert {pool : Pool} {index : UInt16} (h : index.toNat < pool.size) (j : UInt16)
    (c : Constant) :
    Pool.entry? (pool.insert index c) j = if index = j then some c else pool.entry? j := by
  rw [insert, entry?, entry?, Array.getElem?_setIfInBounds]
  by_cases hj : index = j
  · subst hj
    have hlt : index.toNat < pool.slots.size := h
    simp [hlt]
  · simp [hj, UInt16.toNat_inj]

@[simp] theorem size_insert (pool : Pool) (index : UInt16) (c : Constant) :
    (pool.insert index c).size = pool.size := by
  simp [insert, size]

theorem entry?_blank (size : Nat) (index : UInt16) : Pool.entry? (blank size) index = none := by
  rw [blank, entry?, Array.getElem?_replicate]
  split <;> rfl

theorem ext_entry? {pool pool' : Pool} (hsize : pool.size = pool'.size) (hlimit : pool.size ≤ 65536)
    (h : ∀ index, pool.entry? index = pool'.entry? index) : pool = pool' := by
  suffices hslots : pool.slots = pool'.slots by
    cases pool
    congr
  refine Array.ext hsize fun i hi hi' ↦ ?_
  have hindex : (UInt16.ofNat i).toNat = i :=
    UInt16.toNat_ofNat_of_lt' (Nat.lt_of_lt_of_le hi hlimit)
  simpa [ entry?, hindex, hi, hi'] using h (UInt16.ofNat i)

@[simp] theorem size_meaning (table : RawPool) : table.meaning.size = table.size := by
  simp [RawPool.meaning, size]

theorem entry?_meaning (table : RawPool) (index : UInt16) :
    table.meaning.entry? index = (table.raw? index).map (RawConstant.meaning table) := by
  rw [RawPool.meaning, entry?, RawPool.raw?, Array.getElem?_map]
  rcases table[index.toNat]? with _ | _ | c <;> rfl

theorem text?_meaning {table : RawPool} {index : UInt16} (h : table.tag? index = some .utf8) :
    table.meaning.text? index = some (table.text index) := by
  obtain ⟨c, hc, htag⟩ := RawPool.tag?_eq_some_iff.mp h
  cases c with
  | utf8 bytes =>
    simp [text?, entry?_meaning, hc, RawConstant.meaning, Constant.utf8?, RawPool.text]
  | _ => cases htag

theorem className?_meaning {table : RawPool} {index : UInt16}
    (h : table.tag? index = some .classRef) :
    table.meaning.className? index = some (table.className index) := by
  obtain ⟨c, hc, htag⟩ := RawPool.tag?_eq_some_iff.mp h
  cases c with
  | classRef name =>
    simp [className?, entry?_meaning, hc, RawConstant.meaning, Constant.className?,
      RawPool.className, RawPool.symbol]
  | _ => cases htag

end Pool

/-! ## Rounds -/

def ConstantKind.round : ConstantKind → Round
  | utf8 | integer | long | unsupported => .leaves
  | string => .strings
  | nameAndType => .namesAndTypes
  | classRef => .classes
  | member => .members

/-- The rounds that have to come before a round. -/
def Round.needs : Round → List Round
  | leaves => []
  | strings | namesAndTypes | classes => [leaves]
  | members => [namesAndTypes, classes]

theorem RawConstant.round_eq (c : RawConstant) : c.round = c.tag.kind.round := by
  cases c <;> rfl

/-- What a constant needs is settled by a round that has to come before its own. -/
theorem RawConstant.round_mem_needs {c : RawConstant} {index : UInt16} {r : Reference}
    (hr : r ∈ c.references index) : r.expected.round ∈ c.round.needs := by
  cases c with
  | string text =>
    obtain rfl : r = ⟨index, text, .utf8⟩ := by simpa [references] using hr
    exact List.mem_cons_self
  | nameAndType name descriptor =>
    obtain rfl | rfl : r = ⟨index, name, .utf8⟩ ∨ r = ⟨index, descriptor, .utf8⟩ := by
      simpa [references] using hr
    · exact List.mem_cons_self
    · exact List.mem_cons_self
  | classRef name =>
    obtain rfl : r = ⟨index, name, .utf8⟩ := by simpa [references] using hr
    exact List.mem_cons_self
  | member kind owner description =>
    obtain rfl | rfl : r = ⟨index, owner, .classRef⟩ ∨ r = ⟨index, description, .nameAndType⟩ := by
      simpa [references] using hr
    · exact List.mem_cons_of_mem _ List.mem_cons_self
    · exact List.mem_cons_self
  | _ => cases hr

/-! ## What has been settled -/

namespace RawPool

variable {table : RawPool} {done done' : Set (UInt16 × RawConstant)} {pool : Pool}
  {index target : UInt16} {c : RawConstant} {view : Constant → Option α} {a : α}

/-- The constants in `done` have their meanings in the pool, and the others are not there yet. -/
structure Settled (table : RawPool) (done : Set (UInt16 × RawConstant)) (pool : Pool) : Prop where
  size_eq : pool.size = table.size
  raw?_eq : ∀ {index c}, (index, c) ∈ done → table.raw? index = some c
  entry?_eq_some_iff : ∀ {index d},
    pool.entry? index = some d ↔ ∃ c, (index, c) ∈ done ∧ c.meaning table = d

theorem settled_blank (table : RawPool) : table.Settled ∅ (Pool.blank table.size) where
  size_eq := by simp [Pool.blank, Pool.size]
  raw?_eq := by simp
  entry?_eq_some_iff := by simp [Pool.entry?_blank]

theorem lt_size_of_raw? (h : table.raw? index = some c) : index.toNat < table.size := by
  rw [raw?, Option.join_eq_some_iff] at h
  exact (Array.getElem?_eq_some_iff.mp h).1

theorem Settled.insert (h : table.Settled done pool) (hc : table.raw? index = some c) :
    table.Settled (insert (index, c) done) (pool.insert index (c.meaning table)) where
  size_eq := by rw [Pool.size_insert, h.size_eq]
  raw?_eq := by
    intro j c' hmem
    rcases Set.mem_insert_iff.mp hmem with heq | hmem
    · cases heq
      exact hc
    · exact h.raw?_eq hmem
  entry?_eq_some_iff := by
    intro j d
    rw [Pool.entry?_insert (h.size_eq ▸ lt_size_of_raw? hc)]
    simp only [Set.mem_insert_iff, Prod.mk.injEq]
    by_cases hj : index = j
    · subst hj
      -- a constant that was settled at this index before is the same one
      have hunique {c'} (hc' : (index, c') ∈ done) : c' = c :=
        Option.some.inj ((h.raw?_eq hc').symm.trans hc)
      constructor
      · intro hd
        exact ⟨c, .inl ⟨rfl, rfl⟩, by simpa using hd⟩
      · rintro ⟨c', ⟨_, rfl⟩ | hc', rfl⟩
        · simp
        · simp [hunique hc']
    · simp [hj, Ne.symm hj, h.entry?_eq_some_iff]

/-! ### Looking up -/

/-- If the target of a reference is what it needs, then it has been settled. -/
def Supplied (table : RawPool) (done : Set (UInt16 × RawConstant)) (r : Reference) : Prop :=
  ∀ c, table.raw? r.target = some c → c.tag.kind = r.expected → (r.target, c) ∈ done

theorem meets_iff {r : Reference} :
    table.Meets r ↔ ∃ c, table.raw? r.target = some c ∧ c.tag.kind = r.expected := by
  simp [Meets, tag?, Option.map_eq_some_iff]

/-- A view of the constants of the kind that is needed sees what has been settled, and nothing else
at all. -/
theorem Settled.require (h : table.Settled done pool) {r : Reference} (hr : table.Supplied done r)
    (hview : ∀ c, table.raw? r.target = some c →
      view (c.meaning table) = if c.tag.kind = r.expected then some a else none) :
    pool.require (.kind r.expected) view (.constant r.referrer) r.target =
      if table.Meets r then .ok a else .error r.error := by
  rw [Pool.require]
  cases hseen : pool.entry? r.target >>= view with
  | some b =>
    obtain ⟨d, hd, hb⟩ := Option.bind_eq_some_iff.mp hseen
    obtain ⟨c, hc, rfl⟩ := h.entry?_eq_some_iff.mp hd
    rw [hview c (h.raw?_eq hc)] at hb
    split at hb
    · next hkind =>
      cases hb
      rw [if_pos (meets_iff.mpr ⟨c, h.raw?_eq hc, hkind⟩)]
    · cases hb
  | none =>
    rw [if_neg]
    · rfl
    · intro hmeets
      obtain ⟨c, hc, hkind⟩ := meets_iff.mp hmeets
      have hd := h.entry?_eq_some_iff.mpr ⟨c, hr c hc hkind, rfl⟩
      rw [hd] at hseen
      simp [hview c hc, hkind] at hseen

theorem Settled.requireText (h : table.Settled done pool)
    (hr : table.Supplied done ⟨index, target, .utf8⟩) :
    pool.requireText (.constant index) target =
      if table.Meets ⟨index, target, .utf8⟩ then .ok (table.symbol target)
      else .error (Reference.error ⟨index, target, .utf8⟩) := by
  have hview : ∀ c, table.raw? target = some c → (c.meaning table).utf8? =
      if c.tag.kind = .utf8 then some (table.text target) else none := by
    intro c hc
    cases c <;> simp [RawConstant.meaning, RawConstant.tag, Tag.kind, Constant.utf8?, text, hc]
  rw [Pool.requireText, h.require hr hview]
  split <;> rfl

theorem Settled.requireClass (h : table.Settled done pool)
    (hr : table.Supplied done ⟨index, target, .classRef⟩) :
    pool.requireClass (.constant index) target =
      if table.Meets ⟨index, target, .classRef⟩ then .ok (table.classSymbol target)
      else .error (Reference.error ⟨index, target, .classRef⟩) := by
  have hview : ∀ c, table.raw? target = some c → (c.meaning table).className? =
      if c.tag.kind = .classRef then some (table.className target) else none := by
    intro c hc
    cases c <;> simp [RawConstant.meaning, RawConstant.tag, Tag.kind, Constant.className?,
      className, symbol, hc]
  rw [Pool.requireClass, h.require hr hview]
  split <;> rfl

theorem Settled.requireNameAndType (h : table.Settled done pool)
    (hr : table.Supplied done ⟨index, target, .nameAndType⟩) :
    pool.requireNameAndType (.constant index) target =
      if table.Meets ⟨index, target, .nameAndType⟩ then .ok (table.nameAndType target)
      else .error (Reference.error ⟨index, target, .nameAndType⟩) := by
  have hview : ∀ c, table.raw? target = some c → (c.meaning table).nameAndType? =
      if c.tag.kind = .nameAndType then some (table.nameAndType target) else none := by
    intro c hc
    cases c <;> simp [RawConstant.meaning, RawConstant.tag, Tag.kind, Constant.nameAndType?,
      nameAndType, symbol, hc]
  exact h.require hr hview

/-! ### Parts of the work -/

/-- The result of a part of the work that makes these references: if all of them lead somewhere,
then the constants in `done` are settled, and otherwise the first that does not is the error. -/
def Yields (table : RawPool) (done : Set (UInt16 × RawConstant)) (references : List Reference)
    (result : Except DecodeError Pool) : Prop :=
  match references.find? fun r ↦ ¬ table.Meets r with
  | none => ∃ pool, result = .ok pool ∧ table.Settled done pool
  | some r => result = .error r.error

theorem yields_ok (h : table.Settled done pool) : table.Yields done [] (.ok pool) := ⟨pool, rfl, h⟩

theorem Yields.bind {references references' : List Reference} {result : Except DecodeError Pool}
    {next : Pool → Except DecodeError Pool} (h : table.Yields done references result)
    (hnext : ∀ pool, table.Settled done pool → table.Yields done' references' (next pool)) :
    table.Yields done' (references ++ references') (result >>= next) := by
  rw [Yields] at h
  rw [Yields, List.find?_append]
  cases hfault : references.find? fun r ↦ ¬ table.Meets r with
  | some r =>
    rw [hfault] at h
    subst h
    rfl
  | none =>
    rw [hfault] at h
    obtain ⟨pool, rfl, hpool⟩ := h
    exact hnext pool hpool

theorem Settled.resolve_eq (h : table.Settled done pool)
    (hneeds : ∀ r ∈ c.references index, table.Supplied done r) :
    c.resolve pool index =
      match (c.references index).find? fun r ↦ ¬ table.Meets r with
      | none => .ok (c.meaning table)
      | some r => .error r.error := by
  cases c with
  | string text =>
    have htext := h.requireText (hneeds ⟨index, text, .utf8⟩ List.mem_cons_self)
    rw [RawConstant.resolve, htext, RawConstant.references]
    by_cases hmeets : table.Meets ⟨index, text, .utf8⟩ <;>
      simp [RawConstant.meaning, hmeets, bind, Except.bind, pure, Except.pure]
  | nameAndType name descriptor =>
    have hname := h.requireText (hneeds ⟨index, name, .utf8⟩ List.mem_cons_self)
    have hdescriptor := h.requireText (hneeds ⟨index, descriptor, .utf8⟩ (by
      simp [RawConstant.references]))
    rw [RawConstant.resolve, hname, hdescriptor, RawConstant.references]
    by_cases hmeets : table.Meets ⟨index, name, .utf8⟩ <;>
      by_cases hmeets' : table.Meets ⟨index, descriptor, .utf8⟩ <;>
        simp [RawConstant.meaning, hmeets, hmeets', bind, Except.bind, pure, Except.pure]
  | classRef name =>
    have hname := h.requireText (hneeds ⟨index, name, .utf8⟩ List.mem_cons_self)
    rw [RawConstant.resolve, hname, RawConstant.references]
    by_cases hmeets : table.Meets ⟨index, name, .utf8⟩ <;>
      simp [RawConstant.meaning, hmeets, bind, Except.bind, pure, Except.pure]
  | member kind owner description =>
    have howner := h.requireClass (hneeds ⟨index, owner, .classRef⟩ List.mem_cons_self)
    have hdescription := h.requireNameAndType (hneeds ⟨index, description, .nameAndType⟩ (by
      simp [RawConstant.references]))
    rw [RawConstant.resolve, howner, hdescription, RawConstant.references]
    by_cases hmeets : table.Meets ⟨index, owner, .classRef⟩ <;>
      by_cases hmeets' : table.Meets ⟨index, description, .nameAndType⟩ <;>
        simp [RawConstant.meaning, hmeets, hmeets', bind, Except.bind, pure, Except.pure]
  | _ => rfl

theorem Settled.yields_insert (h : table.Settled done pool) (hc : table.raw? index = some c)
    (hneeds : ∀ r ∈ c.references index, table.Supplied done r) :
    table.Yields (Insert.insert (index, c) done) (c.references index)
      (return pool.insert index (← c.resolve pool index)) := by
  rw [h.resolve_eq hneeds, Yields]
  cases (c.references index).find? fun r ↦ ¬ table.Meets r with
  | none => exact ⟨_, rfl, h.insert hc⟩
  | some r => rfl

/-- Several constants, when everything that they need had been settled before the first of them. -/
theorem Settled.yields_foldlM (h : table.Settled done pool) {entries : List (UInt16 × RawConstant)}
    (hentries : ∀ e ∈ entries, table.raw? e.1 = some e.2)
    (hneeds : ∀ e ∈ entries, ∀ r ∈ e.2.references e.1, table.Supplied done r) :
    table.Yields (done ∪ {e | e ∈ entries}) (entries.flatMap fun (index, c) ↦ c.references index)
      (entries.foldlM (fun pool (index, c) ↦ return pool.insert index (← c.resolve pool index))
        pool) := by
  induction entries generalizing done pool with
  | nil =>
    have hset : done ∪ {e | e ∈ ([] : List (UInt16 × RawConstant))} = done := by
      ext e
      simp
    rw [hset]
    exact yields_ok h
  | cons e entries ih =>
    obtain ⟨hfirst, hrest⟩ := List.forall_mem_cons.mp hentries
    obtain ⟨hneedsFirst, hneedsRest⟩ := List.forall_mem_cons.mp hneeds
    have hset : done ∪ {e' | e' ∈ e :: entries} = Insert.insert e done ∪ {e | e ∈ entries} := by
      ext e'
      simp only [Set.mem_union, Set.mem_ofPred_eq, List.mem_cons, Set.mem_insert_iff]
      rw [or_left_comm, or_assoc]
    rw [hset, List.flatMap_cons, List.foldlM_cons]
    refine (h.yields_insert hfirst hneedsFirst).bind fun pool hpool ↦ ih hpool hrest ?_
    -- what was supplied before is supplied after one more constant
    exact fun e' he' r hr c hc hkind ↦ .inr (hneedsRest e' he' r hr c hc hkind)

/-! ### Rounds -/

/-- The constants that these rounds settle. -/
def ofRounds (table : RawPool) (rounds : List Round) : Set (UInt16 × RawConstant) :=
  {e | table.raw? e.1 = some e.2 ∧ e.2.round ∈ rounds}

theorem supplied_ofRounds {rounds : List Round} {r : Reference} (h : r.expected.round ∈ rounds) :
    table.Supplied (table.ofRounds rounds) r := by
  intro c hc hkind
  refine ⟨hc, ?_⟩
  rwa [RawConstant.round_eq, hkind]

def roundReferences (table : RawPool) (round : Round) : List Reference :=
  (table.entries.filter (·.2.round = round)).flatMap fun (index, c) ↦ c.references index

theorem Settled.yields_settle (hsize : table.size ≤ 65536) {rounds : List Round}
    (h : table.Settled (table.ofRounds rounds) pool) (round : Round)
    (hneeds : ∀ r ∈ round.needs, r ∈ rounds) :
    table.Yields (table.ofRounds (round :: rounds)) (table.roundReferences round)
      (table.settle pool round) := by
  have hset : table.ofRounds (round :: rounds) = table.ofRounds rounds ∪
      {e | e ∈ table.entries.filter (·.2.round = round)} := by
    ext ⟨index, c⟩
    simp only [ofRounds, Set.mem_ofPred_eq, Set.mem_union, List.mem_cons, List.mem_filter,
      mem_entries_iff hsize, decide_eq_true_eq]
    rw [and_or_left, or_comm]
  rw [hset]
  refine h.yields_foldlM ?_ ?_
  · rintro ⟨index, c⟩ hmem
    exact (mem_entries_iff hsize).mp (List.mem_filter.mp hmem).1
  · rintro ⟨index, c⟩ hmem r hr
    have hround : c.round = round := by simpa using (List.mem_filter.mp hmem).2
    exact supplied_ofRounds (hneeds _ (hround ▸ RawConstant.round_mem_needs hr))

theorem roundReferences_leaves : table.roundReferences .leaves = [] := by
  rw [roundReferences, List.flatMap_eq_nil_iff]
  rintro ⟨index, c⟩ hmem
  have hround : c.round = .leaves := by simpa using (List.mem_filter.mp hmem).2
  cases c <;> first | rfl | cases hround

theorem roundReferences_eq {round : Round} (kind : ConstantKind)
    (h : ∀ k : ConstantKind, k.round = round ↔ k = kind) :
    table.roundReferences round = table.referencesOf kind := by
  rw [roundReferences, referencesOf]
  congr 1
  refine List.filter_congr fun e _ ↦ ?_
  rw [RawConstant.round_eq]
  exact decide_eq_decide.mpr (h _)

/-- **All rounds together.** -/
theorem yields_resolve (hsize : table.size ≤ 65536) :
    table.Yields {e | table.raw? e.1 = some e.2} table.references table.resolve := by
  have hstart : table.Settled (table.ofRounds []) (Pool.blank table.size) := by
    simpa [ofRounds] using settled_blank table
  have hrounds :=
    (hstart.yields_settle hsize .leaves (by decide)).bind fun _ hleaves ↦
    (hleaves.yields_settle hsize .strings (by decide)).bind fun _ hstrings ↦
    (hstrings.yields_settle hsize .namesAndTypes (by decide)).bind fun _ hpairs ↦
    (hpairs.yields_settle hsize .classes (by decide)).bind fun _ hclasses ↦
    (hclasses.yields_settle hsize .members (by decide)).bind fun _ hmembers ↦
    yields_ok hmembers
  -- the last round leaves all constants settled, and the first makes no references
  have hall : table.ofRounds [.members, .classes, .namesAndTypes, .strings, .leaves] =
      {e | table.raw? e.1 = some e.2} := by
    ext ⟨index, c⟩
    have hround : c.round ∈ [Round.members, .classes, .namesAndTypes, .strings, .leaves] := by
      cases c.round <;> decide
    exact and_iff_left hround
  have hreferences : table.roundReferences .leaves ++ (table.roundReferences .strings ++
      (table.roundReferences .namesAndTypes ++ (table.roundReferences .classes ++
        (table.roundReferences .members ++ [])))) = table.references := by
    rw [roundReferences_leaves, roundReferences_eq .string (by rintro (_ | _) <;> decide),
      roundReferences_eq .nameAndType (by rintro (_ | _) <;> decide),
      roundReferences_eq .classRef (by rintro (_ | _) <;> decide),
      roundReferences_eq .member (by rintro (_ | _) <;> decide)]
    simp [references]
  rwa [hall, hreferences] at hrounds

/-- When everything is settled, the pool is the meaning of the table. -/
theorem Settled.eq_meaning (hsize : table.size ≤ 65536) (h : table.Settled done pool)
    (hall : ∀ index c, table.raw? index = some c → (index, c) ∈ done) : pool = table.meaning := by
  have hentry (index : UInt16) : pool.entry? index = table.meaning.entry? index := by
    rw [Pool.entry?_meaning]
    ext d
    rw [h.entry?_eq_some_iff, Option.map_eq_some_iff]
    exact exists_congr fun c ↦ and_congr_left fun _ ↦ ⟨h.raw?_eq, hall index c⟩
  exact Pool.ext_entry? (by rw [h.size_eq, Pool.size_meaning]) (h.size_eq ▸ hsize) hentry

/-! ### Whole tables -/

theorem resolve_of_resolvable (hsize : table.size ≤ 65536) (h : table.Resolvable) :
    table.resolve = .ok table.meaning := by
  have hyields := yields_resolve hsize
  have hnone : (table.references.find? fun r ↦ ¬ table.Meets r) = none := by
    simpa using (resolvable_iff hsize).mp h
  rw [Yields, hnone] at hyields
  obtain ⟨pool, hpool, hsettled⟩ := hyields
  rw [hpool, hsettled.eq_meaning hsize fun _ _ hc ↦ hc]

/-- A table that is not resolvable has a first reference that leads nowhere, and that is the
error. -/
theorem resolve_of_not_resolvable (hsize : table.size ≤ 65536) (h : ¬ table.Resolvable) :
    ∃ before r after, table.references = before ++ r :: after ∧ (∀ q ∈ before, table.Meets q) ∧
      ¬ table.Meets r ∧ table.resolve = .error r.error := by
  have hyields := yields_resolve hsize
  cases hfault : table.references.find? fun r ↦ ¬ table.Meets r with
  | none => exact absurd ((resolvable_iff hsize).mpr (by simpa using hfault)) h
  | some r =>
    rw [Yields, hfault] at hyields
    obtain ⟨hr, before, after, hsplit, hbefore⟩ := List.find?_eq_some_iff_append.mp hfault
    exact ⟨before, r, after, hsplit, by simpa using hbefore, by simpa using hr, hyields⟩

end RawPool

/-! ## From bytes -/

namespace Pool

open RawPool

variable {count : UInt16} {input rest : Bytes} {table : RawPool}

theorem decode_of_scan (h : scan count input = .ok table rest) :
    Pool.decode count input =
      match table.resolve with
      | .ok pool => .ok pool rest
      | .error e => .error e rest := by
  rw [Pool.decode, EStateM.bind_apply, h]
  dsimp only
  cases table.resolve <;> rfl

/-- **The pool is the meaning of its raw constants, in whatever order they refer to each other.** If
the bytes can be scanned, then a pool comes of them exactly if every reference leads to a constant
with the tag that it needs; otherwise the error is the first reference that does not, where those of
strings come first, then those of names and types, of classes and of members, each by index. If the
bytes cannot be scanned, that is the error, whatever references were among them. -/
theorem decode_eq_meaning (count : UInt16) (input : Bytes) :
    (∀ table rest, scan count input = .ok table rest →
      ((∃ pool, Pool.decode count input = .ok pool rest) ↔ table.Resolvable) ∧
      (table.Resolvable → Pool.decode count input = .ok table.meaning rest) ∧
      (¬ table.Resolvable → ∃ before r after, table.references = before ++ r :: after ∧
        (∀ q ∈ before, table.Meets q) ∧ ¬ table.Meets r ∧
          Pool.decode count input = .error r.error rest) ∧
      table.entries.Pairwise (·.1 < ·.1)) ∧
    ∀ e rest, scan count input = .error e rest → Pool.decode count input = .error e rest := by
  constructor
  · intro table rest hscan
    have hsize := size_le_of_scan hscan
    have hok (h : table.Resolvable) : Pool.decode count input = .ok table.meaning rest := by
      rw [decode_of_scan hscan, resolve_of_resolvable hsize h]
    have hfault (h : ¬ table.Resolvable) : ∃ before r after,
        table.references = before ++ r :: after ∧ (∀ q ∈ before, table.Meets q) ∧
          ¬ table.Meets r ∧ Pool.decode count input = .error r.error rest := by
      obtain ⟨before, r, after, hsplit, hbefore, hr, hresolve⟩ :=
        resolve_of_not_resolvable hsize h
      exact ⟨before, r, after, hsplit, hbefore, hr, by rw [decode_of_scan hscan, hresolve]⟩
    refine ⟨⟨?_, fun h ↦ ⟨_, hok h⟩⟩, hok, hfault, entries_pairwise_lt hsize⟩
    rintro ⟨pool, hpool⟩
    by_contra h
    obtain ⟨_, _, _, _, _, _, herror⟩ := hfault h
    rw [hpool] at herror
    cases herror
  · intro e rest hscan
    rw [Pool.decode, EStateM.bind_apply, hscan]

/-- A class whose name comes after it; two references that lead nowhere, of which the later one is
that of a string; and one of these before a tag that stands for nothing. -/
theorem decode_eq_meaning_forward :
    (∃ pool, Pool.decode 3 [7, 0, 2, 1, 0, 1, 65] = .ok pool []) ∧
      Pool.decode 3 [7, 0, 1, 8, 0, 9] =
        .error (.danglingReference (.constant 2) 9 (.kind .utf8)) [] ∧
      Pool.decode 3 [8, 0, 9, 2] = .error (.unsupportedTag 2 2) [] := by
  have hforward : scan 3 [7, 0, 2, 1, 0, 1, 65] =
      .ok #[none, some (.classRef 2), some (.utf8 [65])] [] := by rfl
  have hdangling : scan 3 [7, 0, 1, 8, 0, 9] =
      .ok #[none, some (.classRef 1), some (.string 9)] [] := by rfl
  have hunscanned : scan 3 [8, 0, 9, 2] = .error (.unsupportedTag 2 2) [] := by rfl
  refine ⟨?_, ?_, (decode_eq_meaning _ _).2 _ _ hunscanned⟩
  · have hresolvable : Resolvable #[none, some (.classRef 2), some (.utf8 [65])] :=
      (resolvable_iff (by decide)).mpr (by decide)
    exact ((decode_eq_meaning _ _).1 _ _ hforward).1.mpr hresolvable
  · have hreferences : references #[none, some (.classRef 1), some (.string 9)] =
        [⟨2, 9, .utf8⟩, ⟨1, 1, .utf8⟩] := by decide
    have hnot : ¬ Resolvable #[none, some (.classRef 1), some (.string 9)] :=
      (resolvable_iff (by decide)).not.mpr (by decide)
    obtain ⟨before, r, after, hsplit, hbefore, _, herror⟩ :=
      ((decode_eq_meaning _ _).1 _ _ hdangling).2.2.1 hnot
    rw [hreferences] at hsplit
    cases before with
    | nil =>
      cases hsplit
      exact herror
    | cons q before =>
      obtain ⟨rfl, _⟩ := List.cons.inj hsplit
      exact absurd (hbefore _ List.mem_cons_self) (by decide)

end Pool

end JavaClass
