import JavaClass.Proofs.Pool.Representation
import Mathlib.Data.List.Nodup

/-!
# Reading a pool with constants put off

A pool can be read with one table of fixed size and a counter that goes through it. What refers to
no other constant is put into the table at once. What does is put off, on one list for each round of
resolving, and its slot stays empty until the lists are gone through. This is the work of
`Pool.decode` done in place, and nothing in it checks that an index is in the table, that a number
is an index at all, or that a slot is free.

That it need not is a matter of the counter. It starts at one, goes up by one or two slots at a
time, and stops at the size of the table, or one past it if a wide constant comes last. So whatever
is put off has an index of its own, at which a constant begins; and every slot on the lists is
written once.

## Main definitions

* `PoolScan`: the table, the counter and the lists.
* `PoolScan.loop`, `PoolScan.resolve`: the two halves of reading a pool.
* `PoolScan.Reaches`: the states in which the loop takes a turn, or stops.

## Main statements

* `PoolScan.decode_eq`: the two halves together read what `Pool.decode` reads.
* `PoolScan.index_safe`: the counter, the lists and the writes.
-/

namespace JavaClass

/-- The constant that this is, if it refers to no other one. -/
def RawConstant.leaf? : RawConstant → Option Constant
  | utf8 bytes => some (.utf8 bytes (readText bytes))
  | integer value => some (.integer value)
  | long value => some (.long value)
  | unsupported kind payload => some (.unsupported kind payload)
  | string _ | classRef _ | nameAndType .. | member .. => none

/-- Resolves a constant and puts it at its index. -/
def Pool.write (pool : Pool) (e : UInt16 × RawConstant) : Except DecodeError Pool :=
  return pool.insert e.1 (← e.2.resolve pool e.1)

/-- A pool that is being read. -/
structure PoolScan where
  /-- Where the next constant will stand. -/
  next : Nat
  /-- The table, with the constants that refer to no other ones. -/
  pool : Pool
  /-- The constants that have been put off, by the rounds that settle them, with their indices. -/
  deferred : Round → List (UInt16 × RawConstant)

namespace PoolScan

def start (count : UInt16) : PoolScan where
  next := 1
  pool := .blank (max count.toNat 1)
  deferred := fun _ => []

/-- Takes up a constant that has been read. -/
def enter (scan : PoolScan) (c : RawConstant) : PoolScan where
  next := scan.next + c.tag.slots
  pool := ⟨scan.pool.slots.setIfInBounds scan.next c.leaf?⟩
  deferred := fun round =>
    if c.leaf?.isNone ∧ c.round = round then
      scan.deferred round ++ [(UInt16.ofNat scan.next, c)]
    else scan.deferred round

@[simp] theorem size_enter (scan : PoolScan) (c : RawConstant) :
    (scan.enter c).pool.slots.size = scan.pool.slots.size := by
  simp [enter]

theorem next_lt_next_enter (scan : PoolScan) (c : RawConstant) :
    scan.next < (scan.enter c).next := by
  rw [enter, Tag.slots]
  dsimp only
  split <;> omega

/-- Reads constants as long as the counter is in the table. -/
def loop (scan : PoolScan) : Decoder PoolScan :=
  if scan.next < scan.pool.slots.size then do
    let c ← RawConstant.decode (UInt16.ofNat scan.next)
    loop (scan.enter c)
  else pure scan
termination_by scan.pool.slots.size - scan.next
decreasing_by
  rw [size_enter]
  have := scan.next_lt_next_enter c
  omega

/-- What has been put off, in the order in which it is resolved. -/
def pending (scan : PoolScan) : List (UInt16 × RawConstant) :=
  [Round.strings, .namesAndTypes, .classes, .members].flatMap scan.deferred

/-- Resolves what has been put off. -/
def resolve (scan : PoolScan) : Except DecodeError Pool := scan.pending.foldlM Pool.write scan.pool

/-- The loop comes to the state, and has not read the rest of the input yet. -/
inductive Reaches (count : UInt16) (input : Bytes) : PoolScan → (rest : Bytes) → Prop
  | start : Reaches count input (start count) input
  | turn {scan : PoolScan} {c : RawConstant} {rest rest' : Bytes}
    (h : Reaches count input scan rest) (hnext : scan.next < scan.pool.slots.size)
    (hread : RawConstant.decode (UInt16.ofNat scan.next) rest = .ok c rest') :
    Reaches count input (scan.enter c) rest'

variable {count : UInt16} {input rest : Bytes} {scan : PoolScan} {c : RawConstant} {index : UInt16}
  {round : Round}

/-! ## The counter -/

/-- Where the counter can be. It leaves the table by one slot at most. -/
structure InRange (count : UInt16) (scan : PoolScan) : Prop where
  size_eq : scan.pool.slots.size = max count.toNat 1
  pos : 1 ≤ scan.next
  next_le : scan.next ≤ scan.pool.slots.size + 1

theorem inRange_start (count : UInt16) : (start count).InRange count where
  size_eq := by simp [start, Pool.blank]
  pos := Nat.le_refl 1
  next_le := Nat.le_add_left 1 _

theorem InRange.enter (h : scan.InRange count) (hnext : scan.next < scan.pool.slots.size)
    (c : RawConstant) : (scan.enter c).InRange count where
  size_eq := by rw [size_enter, h.size_eq]
  pos := Nat.le_trans h.pos (Nat.le_of_lt (scan.next_lt_next_enter c))
  next_le := by
    rw [size_enter, PoolScan.enter, Tag.slots]
    dsimp only
    split <;> omega

/-- **The counter stays in range**, whether the input can be scanned to the end or not. -/
theorem Reaches.inRange (h : Reaches count input scan rest) : scan.InRange count := by
  induction h with
  | start => exact inRange_start count
  | turn _ hnext _ ih => exact ih.enter hnext _

theorem InRange.next_le_limit (h : scan.InRange count) : scan.next ≤ 65536 := by
  have hnext := h.next_le
  have hcount := count.toNat_lt
  rw [h.size_eq] at hnext
  omega

theorem InRange.toNat_ofNat (h : scan.InRange count) (hnext : scan.next < scan.pool.slots.size) :
    (UInt16.ofNat scan.next).toNat = scan.next := by
  refine UInt16.toNat_ofNat_of_lt' ?_
  have hcount := count.toNat_lt
  rw [h.size_eq] at hnext
  change scan.next < 65536
  omega

theorem reaches_of_loop {last : PoolScan} {rest' : Bytes} (h : Reaches count input scan rest)
    (hloop : loop scan rest = .ok last rest') :
    Reaches count input last rest' ∧ ¬ last.next < last.pool.slots.size := by
  fun_induction loop scan generalizing rest with
  | case1 scan hnext ih =>
    obtain ⟨c, mid, hread, hloop⟩ := EStateM.bind_eq_ok_iff.mp hloop
    exact ih c (h.turn hnext hread) hloop
  | case2 scan hnext =>
    cases hloop
    exact ⟨h, hnext⟩

end PoolScan

/-! ## Tables of raw constants -/

namespace RawPool

variable {table : RawPool} {c : RawConstant} {index : UInt16} {round : Round}

/-- The pool of those constants of a table that refer to no other ones. -/
def leaves (table : RawPool) : Pool := ⟨table.map (·.bind RawConstant.leaf?)⟩

def deferred (table : RawPool) (round : Round) : List (UInt16 × RawConstant) :=
  table.entries.filter fun e => e.2.leaf?.isNone ∧ e.2.round = round

theorem entries_push (table : RawPool) (slot : Option RawConstant) :
    RawPool.entries (table.push slot) =
      table.entries ++ (slot.map (UInt16.ofNat table.size, ·)).toList := by
  rw [entries, entries, Array.toList_push, List.zipIdx_append, List.filterMap_append]
  cases slot <;> simp

theorem deferred_push_none (table : RawPool) : deferred (table.push none) = table.deferred := by
  funext round
  simp [deferred, entries_push]

theorem deferred_push_some (table : RawPool) (c : RawConstant) (round : Round) :
    deferred (table.push (some c)) round =
      if c.leaf?.isNone ∧ c.round = round then
        table.deferred round ++ [(UInt16.ofNat table.size, c)]
      else table.deferred round := by
  rw [deferred, entries_push, List.filter_append, ← deferred]
  by_cases hc : c.leaf?.isNone ∧ c.round = round
  · rw [if_pos hc]
    simpa using hc
  · rw [if_neg hc]
    simpa using fun hleaf hround ↦ hc ⟨by simpa using hleaf, hround⟩

end RawPool

namespace PoolScan

variable {count : UInt16} {input rest : Bytes} {scan : PoolScan} {c : RawConstant} {index : UInt16}
  {round : Round} {done : RawPool} {n : Nat}

/-- What the loop has made of the constants of a table, with `n` slots left. -/
structure Represents (scan : PoolScan) (done : RawPool) (n : Nat) : Prop where
  size_eq : scan.pool.slots.size = done.size + n
  slots_eq : ∀ i : Nat, scan.pool.slots[i]?.join = done[i]?.join.bind RawConstant.leaf?
  deferred_eq : scan.deferred = done.deferred

theorem represents_start (count : UInt16) :
    (start count).Represents #[none] (count.toNat - 1) where
  size_eq := by
    simp only [start, Pool.blank, Array.size_replicate, List.size_toArray, List.length_singleton]
    omega
  slots_eq := by
    intro i
    rw [start, Pool.blank, Array.getElem?_replicate]
    cases i <;> split <;> simp
  deferred_eq := rfl

theorem Represents.enter (h : scan.Represents done (n + 1)) (hnext : scan.next = done.size)
    (c : RawConstant) : (scan.enter c).Represents (done.push (some c)) n where
  size_eq := by
    rw [size_enter, h.size_eq, Array.size_push]
    omega
  slots_eq := by
    intro i
    have hlt : done.size < scan.pool.slots.size := by
      rw [h.size_eq]
      omega
    rw [PoolScan.enter, Array.getElem?_push, Array.getElem?_setIfInBounds, hnext]
    by_cases hi : i = done.size
    · simp [hi, hlt]
    · rw [if_neg (Ne.symm hi), if_neg hi, h.slots_eq]
  deferred_eq := by
    funext round
    rw [RawPool.deferred_push_some, ← h.deferred_eq, ← hnext]
    rfl

theorem Represents.pushNone (h : scan.Represents done (n + 1)) :
    scan.Represents (done.push none) n where
  size_eq := by
    rw [h.size_eq, Array.size_push]
    omega
  slots_eq := by
    intro i
    rw [Array.getElem?_push, h.slots_eq]
    split
    · next hi => simp [hi]
    · rfl
  deferred_eq := by rw [RawPool.deferred_push_none, h.deferred_eq]

/-- When no slots are left, the table is that of the constants that refer to no other ones. -/
theorem Represents.pool_eq (h : scan.Represents done 0) : scan.pool = done.leaves := by
  suffices hslots : scan.pool.slots = done.map (·.bind RawConstant.leaf?) by
    rw [RawPool.leaves, ← hslots]
  refine Array.ext (by rw [h.size_eq, Array.size_map, Nat.add_zero]) fun i hi hi' ↦ ?_
  have hdone : i < done.size := by simpa using hi'
  simpa [hi, hdone] using h.slots_eq i

theorem loop_of_lt (h : scan.next < scan.pool.slots.size) : loop scan =
    RawConstant.decode (UInt16.ofNat scan.next) >>= fun c ↦ loop (scan.enter c) := by
  rw [loop, if_pos h]

theorem loop_of_le (h : scan.pool.slots.size ≤ scan.next) : loop scan = pure scan := by
  rw [loop, if_neg (Nat.not_lt.mpr h)]

/-- The table and the lists, without the counter. -/
def outcome (scan : PoolScan) : Pool × (Round → List (UInt16 × RawConstant)) :=
  (scan.pool, scan.deferred)

/-- **The loop does the work of a scan.** Where a scan succeeds, it leaves the table, and the lists
of what has been put off; where it fails, so does the loop. -/
theorem Represents.outcome_loop (h : scan.Represents done n)
    (hnext : 0 < n → scan.next = done.size) (hle : done.size ≤ scan.next) :
    outcome <$> loop scan =
      (fun table : RawPool ↦ (table.leaves, table.deferred)) <$> RawPool.scanFrom done n := by
  fun_induction RawPool.scanFrom done n generalizing scan with
  | case1 done =>
    rw [loop_of_le (by rw [h.size_eq]; exact hle), map_pure, map_pure, outcome, h.pool_eq,
      h.deferred_eq]
  | case2 done =>
    have hnext := hnext Nat.one_pos
    rw [loop_of_lt (by rw [h.size_eq]; omega), hnext, map_bind, map_bind]
    congr
    funext c
    have hlast := h.enter hnext c
    rw [loop_of_le, map_pure, map_pure, outcome, hlast.pool_eq, hlast.deferred_eq]
    rw [hlast.size_eq, Array.size_push, ← hnext]
    exact scan.next_lt_next_enter c
  | case3 done n ihWide ih =>
    have hnext := hnext (Nat.succ_pos _)
    rw [loop_of_lt (by rw [h.size_eq]; omega), hnext, map_bind, map_bind]
    congr
    funext c
    have hfirst := h.enter hnext c
    have hslots : (scan.enter c).next = done.size + c.tag.slots := by rw [← hnext]; rfl
    by_cases hwide : c.tag.isWide = true
    · rw [if_pos hwide]
      rw [Tag.slots, if_pos hwide] at hslots
      exact ihWide c hfirst.pushNone (fun _ ↦ by simpa using hslots) (by simp [hslots])
    · rw [if_neg hwide]
      rw [Tag.slots, if_neg hwide] at hslots
      exact ih c hfirst (fun _ ↦ by simpa using hslots) (by simp [hslots])

theorem loop_start_cases (count : UInt16) (input : Bytes) :
    (∃ scan table rest, loop (start count) input = .ok scan rest ∧
      RawPool.scan count input = .ok table rest ∧ scan.pool = table.leaves ∧
        scan.deferred = table.deferred) ∨
    ∃ e rest, loop (start count) input = .error e rest ∧
      RawPool.scan count input = .error e rest := by
  have houtcome :=
    congrFun ((represents_start count).outcome_loop (fun _ ↦ rfl) (Nat.le_refl 1)) input
  rw [EStateM.map_apply, EStateM.map_apply, ← RawPool.scan] at houtcome
  cases hloop : loop (start count) input with
  | ok scan rest =>
    cases hscan : RawPool.scan count input with
    | ok table rest' =>
      rw [hloop, hscan] at houtcome
      injection houtcome with houtcome hrest
      obtain ⟨hpool, hdeferred⟩ := Prod.mk.inj houtcome
      exact .inl ⟨scan, table, rest, rfl, by rw [hrest], hpool, hdeferred⟩
    | error e rest' => simp [hloop, hscan] at houtcome
  | error e rest =>
    cases hscan : RawPool.scan count input with
    | ok table rest' => simp [hloop, hscan] at houtcome
    | error e' rest' =>
      rw [hloop, hscan] at houtcome
      injection houtcome with he hrest
      exact .inr ⟨e, rest, rfl, by rw [he, hrest]⟩

theorem exists_scan_of_loop (h : loop (start count) input = .ok scan rest) :
    ∃ table, RawPool.scan count input = .ok table rest ∧ scan.pool = table.leaves ∧
      scan.deferred = table.deferred := by
  rcases loop_start_cases count input with
    ⟨scan', table, rest', hloop, hscan, hpool, hdeferred⟩ | ⟨e, rest', hloop, -⟩
  · cases hloop.symm.trans h
    exact ⟨table, hscan, hpool, hdeferred⟩
  · cases hloop.symm.trans h

end PoolScan

/-! ## What has been put off -/

namespace RawPool

variable {table : RawPool} {c : RawConstant} {index : UInt16} {round : Round}

theorem leaf?_eq (table : RawPool) (c : RawConstant) :
    c.leaf? = if c.round = .leaves then some (c.meaning table) else none := by
  cases c <;> rfl

theorem leaf?_eq_none_iff : c.leaf? = none ↔ c.round ≠ .leaves := by
  simp [leaf?_eq #[]]

theorem entry?_leaves (table : RawPool) (index : UInt16) :
    table.leaves.entry? index = (table.raw? index).bind RawConstant.leaf? := by
  rw [leaves, Pool.entry?, raw?, Array.getElem?_map]
  rcases table[index.toNat]? with _ | _ | c <;> rfl

theorem mem_deferred_iff (hsize : table.size ≤ 65536) :
    (index, c) ∈ table.deferred round ↔
      table.raw? index = some c ∧ c.leaf? = none ∧ c.round = round := by
  simp [deferred, mem_entries_iff hsize]

/-- Nothing that has been put off is in the table, and none of it is where no constant begins. -/
theorem free_of_mem_deferred (hsize : table.size ≤ 65536) (hspaced : table.Spaced)
    (h : (index, c) ∈ table.deferred round) : index.toNat < table.leaves.size ∧ index ≠ 0 ∧
      table.leaves.entry? index = none ∧ ¬ table.leaves.FollowsWide index := by
  obtain ⟨hraw, hleaf, -⟩ := (mem_deferred_iff hsize).mp h
  have hlt := lt_size_of_raw? hraw
  have hskips : ¬ table.Skips index.toNat := by
    rw [← raw?_eq_none_iff hspaced hlt, hraw]
    exact Option.some_ne_none c
  rw [Pool.skips_iff] at hskips
  obtain ⟨hzero, hfollows⟩ := not_or.mp hskips
  refine ⟨by simpa [leaves, Pool.size] using hlt, hzero, by simp [entry?_leaves, hraw, hleaf], ?_⟩
  rintro ⟨before, d, hd, hwide, hindex⟩
  -- what is in the table is there in the whole pool, too
  rw [entry?_leaves, Option.bind_eq_some_iff] at hd
  obtain ⟨c', hraw', hleaf'⟩ := hd
  rw [leaf?_eq table] at hleaf'
  split at hleaf' <;> cases hleaf'
  exact hfollows ⟨before, _, by rw [Pool.entry?_meaning, hraw']; rfl, hwide, hindex⟩

theorem deferred_pairwise_lt (hsize : table.size ≤ 65536) (round : Round) :
    (table.deferred round).Pairwise (·.1 < ·.1) :=
  (entries_pairwise_lt hsize).filter _

/-- What has been put off has indices of its own, also across the lists. -/
theorem nodup_deferred (hsize : table.size ≤ 65536) {rounds : List Round} (hrounds : rounds.Nodup) :
    ((rounds.flatMap table.deferred).map Prod.fst).Nodup := by
  rw [List.map_flatMap, List.nodup_flatMap]
  constructor
  · intro round _
    rw [List.Nodup, List.pairwise_map]
    exact (deferred_pairwise_lt hsize round).imp UInt16.ne_of_lt
  · refine hrounds.imp fun {round round'} hne index hindex hindex' ↦ hne ?_
    obtain ⟨⟨_, c⟩, hc, rfl⟩ := List.mem_map.mp hindex
    obtain ⟨⟨_, c'⟩, hc', rfl⟩ := List.mem_map.mp hindex'
    obtain ⟨hraw, -, rfl⟩ := (mem_deferred_iff hsize).mp hc
    obtain ⟨hraw', -, rfl⟩ := (mem_deferred_iff hsize).mp hc'
    rw [Option.some.inj (hraw.symm.trans hraw')]

/-! ## Rounds in place -/

theorem settle_eq_foldlM_write (table : RawPool) (pool : Pool) (round : Round) :
    table.settle pool round =
      (table.entries.filter (·.2.round = round)).foldlM Pool.write pool := rfl

theorem settle_leaves (hsize : table.size ≤ 65536) :
    table.settle (Pool.blank table.size) .leaves = .ok table.leaves := by
  have hstart : table.Settled (table.ofRounds []) (Pool.blank table.size) := by
    simpa [ofRounds] using settled_blank table
  have hyields := hstart.yields_settle hsize .leaves (by decide)
  rw [roundReferences_leaves] at hyields
  obtain ⟨pool, hpool, hsettled⟩ := hyields
  rw [hpool]
  have hsizes : pool.size = table.leaves.size := by
    rw [hsettled.size_eq, leaves, Pool.size, Array.size_map]
  refine congrArg _ (Pool.ext_entry? hsizes (hsettled.size_eq ▸ hsize) fun index ↦ ?_)
  ext d
  rw [hsettled.entry?_eq_some_iff, entry?_leaves, Option.bind_eq_some_iff]
  refine exists_congr fun c ↦ ?_
  rw [leaf?_eq table]
  simp only [ofRounds, Set.mem_ofPred_eq, List.mem_singleton]
  by_cases hround : c.round = .leaves <;> simp [hround]

theorem settle_eq_of_ne_leaves (hround : round ≠ .leaves) (pool : Pool) :
    table.settle pool round = (table.deferred round).foldlM Pool.write pool := by
  rw [settle_eq_foldlM_write, deferred]
  congr 1
  refine List.filter_congr fun e _ ↦ ?_
  rw [decide_eq_decide, Option.isNone_iff_eq_none, leaf?_eq_none_iff]
  exact ⟨fun h ↦ ⟨h ▸ hround, h⟩, fun h ↦ h.2⟩

theorem foldlM_settle_eq {rounds : List Round} (hrounds : .leaves ∉ rounds) (pool : Pool) :
    rounds.foldlM table.settle pool =
      (rounds.flatMap table.deferred).foldlM Pool.write pool := by
  induction rounds generalizing pool with
  | nil => rfl
  | cons round rounds ih =>
    obtain ⟨hround, hrest⟩ := List.ne_and_not_mem_of_not_mem_cons hrounds
    rw [List.foldlM_cons, List.flatMap_cons, List.foldlM_append,
      settle_eq_of_ne_leaves hround.symm]
    exact congrArg _ (funext fun pool ↦ ih hrest pool)

/-- **Resolving goes through the lists**, one after the other. -/
theorem resolve_eq_foldlM_write (hsize : table.size ≤ 65536) :
    table.resolve =
      ([Round.strings, .namesAndTypes, .classes, .members].flatMap table.deferred).foldlM Pool.write
        table.leaves := by
  rw [resolve, Round.all, List.foldlM_cons, settle_leaves hsize]
  exact foldlM_settle_eq (by decide) table.leaves

end RawPool

/-! ## Writes -/

namespace Pool

variable {pool pool' : Pool} {e : UInt16 × RawConstant} {entries : List (UInt16 × RawConstant)}
  {index : UInt16}

theorem write_eq_ok_iff :
    pool.write e = .ok pool' ↔ ∃ d, e.2.resolve pool e.1 = .ok d ∧ pool.insert e.1 d = pool' := by
  rw [write, Except.bind_eq_ok_iff]
  simp [pure, Except.pure]

theorem entry?_of_write (h : pool.write e = .ok pool') (hindex : index ≠ e.1) :
    pool'.entry? index = pool.entry? index := by
  obtain ⟨d, -, rfl⟩ := write_eq_ok_iff.mp h
  rw [insert, entry?, entry?, Array.getElem?_setIfInBounds, if_neg]
  exact fun heq ↦ hindex (UInt16.toNat_inj.mp heq.symm)

theorem size_of_write (h : pool.write e = .ok pool') : pool'.size = pool.size := by
  obtain ⟨d, -, rfl⟩ := write_eq_ok_iff.mp h
  exact size_insert pool e.1 d

theorem exists_entry?_of_write (h : pool.write e = .ok pool') (hlt : e.1.toNat < pool.size) :
    ∃ d, pool'.entry? e.1 = some d := by
  obtain ⟨d, -, rfl⟩ := write_eq_ok_iff.mp h
  exact ⟨d, by rw [entry?_insert hlt, if_pos rfl]⟩

theorem entry?_of_foldlM_write (h : entries.foldlM write pool = .ok pool')
    (hindex : index ∉ entries.map Prod.fst) :
    pool'.entry? index = pool.entry? index ∧ pool'.size = pool.size := by
  refine Except.of_foldlM_eq_ok
    (fun p : Pool ↦ p.entry? index = pool.entry? index ∧ p.size = pool.size)
    (fun e he p p' hp hwrite ↦ ?_) ⟨rfl, rfl⟩ h
  have hne : index ≠ e.1 := fun heq ↦ hindex (heq ▸ List.mem_map_of_mem he)
  exact ⟨(entry?_of_write hwrite hne).trans hp.1, (size_of_write hwrite).trans hp.2⟩

/-- Where no slot is written twice, every slot that is written has a constant in the end. -/
theorem exists_entry?_of_foldlM_write (h : entries.foldlM write pool = .ok pool')
    (hnodup : (entries.map Prod.fst).Nodup) (hlt : ∀ e ∈ entries, e.1.toNat < pool.size)
    (hindex : index ∈ entries.map Prod.fst) : ∃ d, pool'.entry? index = some d := by
  induction entries generalizing pool with
  | nil => cases hindex
  | cons e entries ih =>
    rw [List.foldlM_cons, Except.bind_eq_ok_iff] at h
    obtain ⟨mid, hwrite, hrest⟩ := h
    obtain ⟨hfirst, hnodup⟩ := List.nodup_cons.mp hnodup
    obtain ⟨hlte, hlt⟩ := List.forall_mem_cons.mp hlt
    rcases List.mem_cons.mp hindex with rfl | hindex
    · rw [(entry?_of_foldlM_write hrest hfirst).1]
      exact exists_entry?_of_write hwrite hlte
    · exact ih hrest hnodup (size_of_write hwrite ▸ hlt) hindex

end Pool

namespace PoolScan

variable {count : UInt16} {input rest : Bytes} {scan : PoolScan}

theorem resolve_eq_of_scan {table : RawPool} (hscan : RawPool.scan count input = .ok table rest)
    (hpool : scan.pool = table.leaves) (hdeferred : scan.deferred = table.deferred) :
    scan.resolve = table.resolve := by
  rw [resolve, pending, hpool, hdeferred,
    RawPool.resolve_eq_foldlM_write (RawPool.size_le_of_scan hscan)]

/-- **The two halves together read a pool.** -/
theorem decode_eq (count : UInt16) :
    Pool.decode count = (do let scan ← loop (start count); scan.resolve : Decoder Pool) := by
  funext input
  rw [Pool.decode, EStateM.bind_apply, EStateM.bind_apply]
  rcases loop_start_cases count input with
    ⟨scan, table, rest, hloop, hscan, hpool, hdeferred⟩ | ⟨e, rest, hloop, hscan⟩
  · rw [hloop, hscan]
    dsimp only
    rw [resolve_eq_of_scan hscan hpool hdeferred]
  · rw [hloop, hscan]

/-- **Indices are safe.** Whenever the loop takes a turn, the counter is in the table, is an index,
and the slot there is the one that is written; and it never gets past the limit of indices by more
than one. After a loop that succeeds the lists are in ascending order and all indices on them are
different ones; their slots are in the table, still empty, and not those that follow a wide
constant. So whatever is resolved goes into a slot that is empty until then, no other slot changes,
and in the end just the slots on the lists have been filled. -/
theorem index_safe (count : UInt16) (input : Bytes) :
    Pool.decode count = (do let scan ← loop (start count); scan.resolve : Decoder Pool) ∧
    (∀ scan rest, Reaches count input scan rest → scan.next ≤ 65536 ∧
      (scan.next < scan.pool.slots.size → 1 ≤ scan.next ∧ scan.next < max count.toNat 1 ∧
        (UInt16.ofNat scan.next).toNat = scan.next ∧
          ∀ c, (scan.enter c).pool.slots[scan.next]? = some c.leaf?)) ∧
    ∀ scan rest, loop (start count) input = .ok scan rest → Reaches count input scan rest ∧
      (∀ round, (scan.deferred round).Pairwise (·.1 < ·.1)) ∧
      (scan.pending.map Prod.fst).Nodup ∧
      (∀ e ∈ scan.pending, e.1.toNat < scan.pool.size ∧ e.1 ≠ 0 ∧ scan.pool.entry? e.1 = none ∧
        ¬ scan.pool.FollowsWide e.1) ∧
      (∀ before e after pool, scan.pending = before ++ e :: after →
        before.foldlM Pool.write scan.pool = .ok pool → pool.entry? e.1 = none ∧
          ∀ pool', pool.write e = .ok pool' → (∃ d, pool'.entry? e.1 = some d) ∧
            ∀ index ≠ e.1, pool'.entry? index = pool.entry? index) ∧
      ∀ pool, scan.resolve = .ok pool → ∀ index,
        (index ∈ scan.pending.map Prod.fst → ∃ d, pool.entry? index = some d) ∧
        (index ∉ scan.pending.map Prod.fst → pool.entry? index = scan.pool.entry? index) := by
  refine ⟨decode_eq count, fun scan rest hreaches ↦ ?_, fun scan rest hloop ↦ ?_⟩
  · have hrange := hreaches.inRange
    refine ⟨hrange.next_le_limit, fun hnext ↦ ⟨hrange.pos, hrange.size_eq ▸ hnext,
      hrange.toNat_ofNat hnext, fun c ↦ ?_⟩⟩
    rw [enter, Array.getElem?_setIfInBounds, if_pos rfl, if_pos hnext]
  · obtain ⟨table, hscan, hpool, hdeferred⟩ := exists_scan_of_loop hloop
    have hsize := RawPool.size_le_of_scan hscan
    have hnodup : (scan.pending.map Prod.fst).Nodup := by
      rw [pending, hdeferred]
      exact RawPool.nodup_deferred hsize (by decide)
    have hfree (e) (he : e ∈ scan.pending) : e.1.toNat < scan.pool.size ∧ e.1 ≠ 0 ∧
        scan.pool.entry? e.1 = none ∧ ¬ scan.pool.FollowsWide e.1 := by
      rw [pending, hdeferred] at he
      obtain ⟨round, -, he⟩ := List.mem_flatMap.mp he
      rw [hpool]
      exact RawPool.free_of_mem_deferred hsize (RawPool.spaced_scan hscan) he
    refine ⟨(reaches_of_loop .start hloop).1, fun round ↦ ?_, hnodup, hfree, ?_, ?_⟩
    · rw [hdeferred]
      exact RawPool.deferred_pairwise_lt hsize round
    · intro before e after pool hsplit hbefore
      -- what has been written before is elsewhere
      have hnew : e.1 ∉ before.map Prod.fst := by
        rw [hsplit, List.map_append, List.map_cons, List.nodup_append] at hnodup
        exact fun hmem ↦ hnodup.2.2 e.1 hmem e.1 List.mem_cons_self rfl
      obtain ⟨hentry, hpoolsize⟩ := Pool.entry?_of_foldlM_write hbefore hnew
      obtain ⟨hlt, -, hempty, -⟩ := hfree e (by simp [hsplit])
      exact ⟨hentry.trans hempty, fun pool' hwrite ↦
        ⟨Pool.exists_entry?_of_write hwrite (hpoolsize ▸ hlt), fun _ ↦ Pool.entry?_of_write hwrite⟩⟩
    · intro pool hresolve index
      exact ⟨Pool.exists_entry?_of_foldlM_write hresolve hnodup fun e he ↦ (hfree e he).1,
        fun hindex ↦ (Pool.entry?_of_foldlM_write hresolve hindex).1⟩

/-- A member before its class and its type, these before their strings, and a wide constant with
which the counter leaves the table. -/
theorem index_safe_wideLast :
    let input : Bytes := [9, 0, 2, 0, 3, 7, 0, 4, 12, 0, 4, 0, 5, 1, 0, 1, 65, 1, 0, 1, 73,
      5, 0, 0, 0, 0, 0, 0, 0, 9]
    ∃ scan pool, loop (start 7) input = .ok scan [] ∧ Reaches 7 input scan [] ∧
      scan.pool.size = 7 ∧ scan.next = 8 ∧ (scan.pending.map Prod.fst).Nodup ∧
      scan.resolve = .ok pool ∧ scan.pool.entry? 1 = none ∧ (∃ d, pool.entry? 1 = some d) ∧
      pool.entry? 6 = scan.pool.entry? 6 := by
  intro input
  have hrun : ∃ r ∈ (loop (start 7) input).ok?, r.2 = [] ∧ r.1.pool.size = 7 ∧ r.1.next = 8 ∧
      r.1.pending.map Prod.fst = [3, 2, 1] ∧ r.1.resolve.toOption.isSome := by
    decide +kernel
  obtain ⟨⟨scan, _⟩, hloop, rfl, hsize, hnext, hpending, hresolve⟩ := hrun
  have hloop := EStateM.Result.ok?_eq_some_iff.mp hloop
  obtain ⟨pool, hpool⟩ : ∃ pool, scan.resolve = .ok pool := by
    cases hresult : scan.resolve with
    | ok pool => exact ⟨pool, rfl⟩
    | error e => simp [hresult, Except.toOption] at hresolve
  obtain ⟨-, -, hsafe⟩ := index_safe 7 input
  obtain ⟨hreaches, -, hnodup, hfree, -, hfilled⟩ := hsafe scan [] hloop
  have hone : 1 ∈ scan.pending.map Prod.fst := by simp [hpending]
  obtain ⟨e, he, hindex⟩ := List.mem_map.mp hone
  refine ⟨scan, pool, hloop, hreaches, hsize, hnext, hnodup, hpool, hindex ▸ (hfree e he).2.2.1,
    (hfilled pool hpool 1).1 hone, (hfilled pool hpool 6).2 (by simp [hpending])⟩

end PoolScan

end JavaClass
