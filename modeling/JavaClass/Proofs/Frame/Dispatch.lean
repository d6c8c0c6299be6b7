import JavaClass.Proofs.Frame.Operations
import Mathlib.Tactic.Tauto

/-!
# Which handler is found, and who is asked

The exception table is gone through from the front. Entries whose range does not have the address
are passed over without a question, an entry that catches everything ends the search without one,
and every other entry is put to the callback. The callback may change its mind from question to
question, so what it is asked, and in which order, is part of the result: `Frame.inquire` is the
search with a record of the questions.

An entry is found if it decides in the state in which the questions before it have left the
callback, and everything before it is passed over; this says what is found, what was asked and which
state is left, all at once.

## Main definitions

* `Frame.inquire`: the search for a handler, with the questions.
* `ExceptionEntry.questions`: the types that a table asks about.
* `ExceptionEntry.PassedOver`: what comes before the entry that is found.

## Main statements

* `Frame.findM?_passedOver`: entries that are passed over leave their questions and no more.
* `Frame.dispatch_lawful`: the entry that is found, and the questions.
-/

namespace JavaClass

variable {σ : Type}

namespace ExceptionEntry

/-! ## Tables -/

/-- The types that a table asks about at an address, if nothing is accepted. -/
def questions (pc : UInt16) (table : List ExceptionEntry) : List UInt16 :=
  (table.filter fun e ↦ e.startPc ≤ pc ∧ pc < e.endPc ∧ e.catchType ≠ 0).map catchType

/-- The callback refuses these types, one after the other, and its state goes from `s` to `t`. -/
inductive Refused (accepts : UInt16 → StateM σ Bool) : (s : σ) → List UInt16 → (t : σ) → Prop
  | nil (s : σ) : Refused accepts s [] s
  | cons {type : UInt16} {types : List UInt16} {s t u : σ} (h : accepts type s = (false, t))
    (hrest : Refused accepts t types u) : Refused accepts s (type :: types) u

/-- None of these entries handles what is thrown at an address: those that have it in their range
catch a type only, and the callback refuses all these types. -/
structure PassedOver (pc : UInt16) (accepts : UInt16 → StateM σ Bool) (table : List ExceptionEntry)
    (s t : σ) : Prop where
  typed : ∀ e ∈ table, e.startPc ≤ pc → pc < e.endPc → e.catchType ≠ 0
  refused : Refused accepts s (questions pc table) t

/-- The entry handles what is thrown at an address: it has it in its range, and either it catches
everything and asks nothing, or its type is accepted. -/
inductive Handles (pc : UInt16) (accepts : UInt16 → StateM σ Bool) (e : ExceptionEntry) :
    (s : σ) → (asked : List UInt16) → (t : σ) → Prop
  | catchAll (s : σ) (hstart : e.startPc ≤ pc) (hend : pc < e.endPc) (htype : e.catchType = 0) :
    Handles pc accepts e s [] s
  | typed {s t : σ} (hstart : e.startPc ≤ pc) (hend : pc < e.endPc) (htype : e.catchType ≠ 0)
    (h : accepts e.catchType s = (true, t)) : Handles pc accepts e s [e.catchType] t

variable {pc : UInt16} {accepts : UInt16 → StateM σ Bool} {e : ExceptionEntry}
  {table : List ExceptionEntry} {s u : σ}

theorem covers_iff : e.covers pc = true ↔ e.startPc ≤ pc ∧ pc < e.endPc := by
  simp [covers]

theorem catchesAll_iff : e.catchesAll = true ↔ e.catchType = 0 := by
  simp [catchesAll]

theorem questions_cons_of_typed (hcovers : e.covers pc = true) (htype : e.catchType ≠ 0) :
    questions pc (e :: table) = e.catchType :: questions pc table := by
  obtain ⟨hstart, hend⟩ := covers_iff.mp hcovers
  rw [questions, List.filter_cons_of_pos (by simpa using ⟨hstart, hend, htype⟩), List.map_cons,
    questions]

theorem questions_cons_of_not_covers (hcovers : ¬ e.covers pc = true) :
    questions pc (e :: table) = questions pc table := by
  rw [covers_iff] at hcovers
  have hnot : ¬ (e.startPc ≤ pc ∧ pc < e.endPc ∧ e.catchType ≠ 0) := by tauto
  rw [questions, List.filter_cons_of_neg (by simpa using hnot), questions]

theorem passedOver_nil : PassedOver pc accepts [] s s := ⟨nofun, .nil s⟩

theorem passedOver_cons_iff :
    PassedOver pc accepts (e :: table) s u ↔
      ¬ e.covers pc = true ∧ PassedOver pc accepts table s u ∨
        e.covers pc = true ∧ e.catchType ≠ 0 ∧
          ∃ t, accepts e.catchType s = (false, t) ∧ PassedOver pc accepts table t u := by
  constructor
  · rintro ⟨htyped, hrefused⟩
    have htable := fun e' he' ↦ htyped e' (List.mem_cons_of_mem e he')
    by_cases hcovers : e.covers pc = true
    · obtain ⟨hstart, hend⟩ := covers_iff.mp hcovers
      have htype := htyped e List.mem_cons_self hstart hend
      rw [questions_cons_of_typed hcovers htype] at hrefused
      cases hrefused with
      | cons h hrest => exact .inr ⟨hcovers, htype, _, h, htable, hrest⟩
    · rw [questions_cons_of_not_covers hcovers] at hrefused
      exact .inl ⟨hcovers, htable, hrefused⟩
  · rintro (⟨hcovers, htyped, hrefused⟩ | ⟨hcovers, htype, t, h, htyped, hrefused⟩)
    · refine ⟨List.forall_mem_cons.mpr ⟨fun hstart hend ↦ ?_, htyped⟩, ?_⟩
      · exact absurd (covers_iff.mpr ⟨hstart, hend⟩) hcovers
      · rwa [questions_cons_of_not_covers hcovers]
    · refine ⟨List.forall_mem_cons.mpr ⟨fun _ _ ↦ htype, htyped⟩, ?_⟩
      rw [questions_cons_of_typed hcovers htype]
      exact .cons h hrefused

/-- Either a table is passed over, or one of its entries handles what is thrown in the state to
which the entries before it lead. -/
theorem passedOver_or_handles (pc : UInt16) (accepts : UInt16 → StateM σ Bool)
    (table : List ExceptionEntry) (s : σ) :
    (∃ t, PassedOver pc accepts table s t) ∨
      ∃ before e after u own t, table = before ++ e :: after ∧ PassedOver pc accepts before s u ∧
        Handles pc accepts e u own t := by
  induction table generalizing s with
  | nil => exact .inl ⟨s, passedOver_nil⟩
  | cons first table ih =>
    by_cases hcovers : first.covers pc = true
    · obtain ⟨hstart, hend⟩ := covers_iff.mp hcovers
      by_cases htype : first.catchType = 0
      · exact .inr ⟨[], first, table, s, _, s, rfl, passedOver_nil, .catchAll s hstart hend htype⟩
      · rcases haccepts : accepts first.catchType s with ⟨_ | _, t⟩
        · rcases ih t with ⟨u, h⟩ | ⟨before, e, after, u, own, v, rfl, h, hhandles⟩
          · exact .inl ⟨u, passedOver_cons_iff.mpr (.inr ⟨hcovers, htype, t, haccepts, h⟩)⟩
          · exact .inr ⟨first :: before, e, after, u, own, v, rfl,
              passedOver_cons_iff.mpr (.inr ⟨hcovers, htype, t, haccepts, h⟩), hhandles⟩
        · exact .inr ⟨[], first, table, s, _, t, rfl, passedOver_nil,
            .typed hstart hend htype haccepts⟩
    · rcases ih s with ⟨u, h⟩ | ⟨before, e, after, u, own, v, rfl, h, hhandles⟩
      · exact .inl ⟨u, passedOver_cons_iff.mpr (.inl ⟨hcovers, h⟩)⟩
      · exact .inr ⟨first :: before, e, after, u, own, v, rfl,
          passedOver_cons_iff.mpr (.inl ⟨hcovers, h⟩), hhandles⟩

end ExceptionEntry

namespace Frame

open ExceptionEntry (questions PassedOver Handles)

/-! ## The search

What a search does in any monad; so nothing here depends on what the callback does. -/

section

variable {m : Type → Type} [Monad m] [LawfulMonad m] {pc : UInt16} {accepts : UInt16 → m Bool}
  {e : ExceptionEntry} {before table : List ExceptionEntry}

/-- Puts one entry to the test. -/
def considers (pc : UInt16) (accepts : UInt16 → m Bool) (e : ExceptionEntry) : m Bool :=
  if e.covers pc then
    if e.catchesAll then pure true else accepts e.catchType
  else pure false

omit [LawfulMonad m] in
theorem handler?_eq (f : Frame) (pc : UInt16) (accepts : UInt16 → m Bool) :
    f.handler? pc accepts = f.code.exceptions.findM? (considers pc accepts) := rfl

omit [LawfulMonad m] in
theorem considers_of_not_covers (h : ¬ e.covers pc = true) :
    considers pc accepts e = pure false := if_neg h

omit [LawfulMonad m] in
theorem considers_of_catchAll (h : e.covers pc = true) (htype : e.catchType = 0) :
    considers pc accepts e = pure true := by
  rw [considers, if_pos h, if_pos (ExceptionEntry.catchesAll_iff.mpr htype)]

omit [LawfulMonad m] in
theorem considers_of_typed (h : e.covers pc = true) (htype : e.catchType ≠ 0) :
    considers pc accepts e = accepts e.catchType := by
  rw [considers, if_pos h, if_neg (mt ExceptionEntry.catchesAll_iff.mp htype)]

theorem findM?_cons_of_not_covers (h : ¬ e.covers pc = true) :
    (e :: table).findM? (considers pc accepts) = table.findM? (considers pc accepts) := by
  rw [List.findM?, considers_of_not_covers h, pure_bind]

theorem findM?_cons_of_catchAll (h : e.covers pc = true) (htype : e.catchType = 0) :
    (e :: table).findM? (considers pc accepts) = pure (some e) := by
  rw [List.findM?, considers_of_catchAll h htype, pure_bind]

/-- **Entries that do not have the address in their range change nothing.** -/
theorem findM?_filter_covers (pc : UInt16) (accepts : UInt16 → m Bool)
    (table : List ExceptionEntry) :
    (table.filter (·.covers pc)).findM? (considers pc accepts) =
      table.findM? (considers pc accepts) := by
  induction table with
  | nil => rfl
  | cons e table ih =>
    by_cases h : e.covers pc = true
    · rw [List.filter_cons, if_pos h, List.findM?, List.findM?, ih]
    · rw [List.filter_cons, if_neg h, findM?_cons_of_not_covers h, ih]

/-- **Behind an entry that catches everything, nothing matters.** -/
theorem findM?_append_catchAll (h : e.covers pc = true) (htype : e.catchType = 0)
    (before after after' : List ExceptionEntry) :
    (before ++ e :: after).findM? (considers pc accepts) =
      (before ++ e :: after').findM? (considers pc accepts) := by
  induction before with
  | nil => exact (findM?_cons_of_catchAll h htype).trans (findM?_cons_of_catchAll h htype).symm
  | cons first before ih => rw [List.cons_append, List.findM?, ih, List.cons_append, List.findM?]

end

/-! ## The questions -/

variable {pc : UInt16} {accepts : UInt16 → StateM σ Bool} {e : ExceptionEntry}
  {before rest : List ExceptionEntry} {s t u : σ} {asked own : List UInt16}

/-- The same callback, with a record of what it has been asked. -/
def recording (accepts : UInt16 → StateM σ Bool) (type : UInt16) : StateM (List UInt16 × σ) Bool :=
  fun (asked, s) ↦
    let (answer, t) := accepts type s
    (answer, asked ++ [type], t)

/-- The search for a handler: the entry that is found, the types that the callback was asked about,
and the state in which it is left. -/
def inquire (f : Frame) (pc : UInt16) (accepts : UInt16 → StateM σ Bool) (s : σ) :
    Option ExceptionEntry × List UInt16 × σ :=
  f.handler? pc (recording accepts) ([], s)

theorem findM?_cons_of_accepted (hcovers : e.covers pc = true) (htype : e.catchType ≠ 0)
    (h : accepts e.catchType s = (true, t)) :
    (e :: rest).findM? (considers pc accepts) s = (some e, t) := by
  rw [List.findM?, considers_of_typed hcovers htype]
  simp only [bind, StateT.bind, h]
  rfl

theorem findM?_cons_of_refused (hcovers : e.covers pc = true) (htype : e.catchType ≠ 0)
    (h : accepts e.catchType s = (false, t)) :
    (e :: rest).findM? (considers pc accepts) s = rest.findM? (considers pc accepts) t := by
  rw [List.findM?, considers_of_typed hcovers htype]
  simp only [bind, StateT.bind, h]

theorem recording_apply {type : UInt16} {answer : Bool} (h : accepts type s = (answer, t)) :
    recording accepts type (asked, s) = (answer, asked ++ [type], t) := by
  simp only [recording, h]

/-- **Entries that are passed over** leave their questions, and the callback as these leave it. -/
theorem findM?_passedOver (h : PassedOver pc accepts before s u) :
    (before ++ rest).findM? (considers pc (recording accepts)) (asked, s) =
      rest.findM? (considers pc (recording accepts)) (asked ++ questions pc before, u) := by
  induction before generalizing asked s with
  | nil =>
    cases h.refused
    rw [questions, List.filter_nil, List.map_nil, List.append_nil, List.nil_append]
  | cons e before ih =>
    rw [List.cons_append]
    rcases ExceptionEntry.passedOver_cons_iff.mp h with ⟨hcovers, h⟩ |
        ⟨hcovers, htype, t, hrefused, h⟩
    · rw [findM?_cons_of_not_covers hcovers, ih h,
        ExceptionEntry.questions_cons_of_not_covers hcovers]
    · rw [findM?_cons_of_refused hcovers htype (recording_apply hrefused), ih h,
        ExceptionEntry.questions_cons_of_typed hcovers htype, List.append_assoc,
        List.singleton_append]

theorem findM?_handles (h : Handles pc accepts e s own t) :
    (e :: rest).findM? (considers pc (recording accepts)) (asked, s) =
      (some e, asked ++ own, t) := by
  cases h with
  | catchAll hstart hend htype =>
    rw [findM?_cons_of_catchAll (ExceptionEntry.covers_iff.mpr ⟨hstart, hend⟩) htype,
      List.append_nil]
    rfl
  | typed hstart hend htype h =>
    exact findM?_cons_of_accepted (ExceptionEntry.covers_iff.mpr ⟨hstart, hend⟩) htype
      (recording_apply h)

theorem inquire_of_handles {f : Frame} {after : List ExceptionEntry}
    (htable : f.code.exceptions = before ++ e :: after) (hbefore : PassedOver pc accepts before s u)
    (h : Handles pc accepts e u own t) :
    f.inquire pc accepts s = (some e, questions pc before ++ own, t) := by
  rw [inquire, handler?_eq, htable, findM?_passedOver hbefore, List.nil_append]
  exact findM?_handles h

theorem inquire_of_passedOver {f : Frame} (h : PassedOver pc accepts f.code.exceptions s t) :
    f.inquire pc accepts s = (none, questions pc f.code.exceptions, t) := by
  have hsearch : (f.code.exceptions ++ []).findM? (considers pc (recording accepts)) ([], s) = _ :=
    findM?_passedOver h
  rw [List.append_nil, List.nil_append] at hsearch
  exact hsearch

/-- **What a search comes to**: either the whole table is passed over, or everything before the
entry that is found. -/
theorem inquire_cases (f : Frame) (pc : UInt16) (accepts : UInt16 → StateM σ Bool) (s : σ) :
    (∃ t, PassedOver pc accepts f.code.exceptions s t ∧
        f.inquire pc accepts s = (none, questions pc f.code.exceptions, t)) ∨
      ∃ before e after u own t, f.code.exceptions = before ++ e :: after ∧
        PassedOver pc accepts before s u ∧ Handles pc accepts e u own t ∧
        f.inquire pc accepts s = (some e, questions pc before ++ own, t) := by
  rcases ExceptionEntry.passedOver_or_handles pc accepts f.code.exceptions s with
    ⟨t, hall⟩ | ⟨before, e, after, u, own, t, htable, hbefore, hhandles⟩
  · exact .inl ⟨t, hall, inquire_of_passedOver hall⟩
  · exact .inr ⟨before, e, after, u, own, t, htable, hbefore, hhandles,
      inquire_of_handles htable hbefore hhandles⟩

theorem findM?_recording (pc : UInt16) (accepts : UInt16 → StateM σ Bool)
    (table : List ExceptionEntry) (asked : List UInt16) (s : σ) :
    table.findM? (considers pc accepts) s =
      ((table.findM? (considers pc (recording accepts)) (asked, s)).1,
        (table.findM? (considers pc (recording accepts)) (asked, s)).2.2) := by
  -- A refusal changes the state and lengthens the record, so the induction is for all of both.
  induction table generalizing asked s with
  | nil => rfl
  | cons e table ih =>
    by_cases hcovers : e.covers pc = true
    · by_cases htype : e.catchType = 0
      · rw [findM?_cons_of_catchAll hcovers htype, findM?_cons_of_catchAll hcovers htype]
        rfl
      · rcases haccepts : accepts e.catchType s with ⟨_ | _, t⟩
        · rw [findM?_cons_of_refused hcovers htype haccepts,
            findM?_cons_of_refused hcovers htype (recording_apply haccepts), ← ih]
        · rw [findM?_cons_of_accepted hcovers htype haccepts,
            findM?_cons_of_accepted hcovers htype (recording_apply haccepts)]
    · rw [findM?_cons_of_not_covers hcovers, findM?_cons_of_not_covers hcovers, ← ih]

/-- **The entry that is found, and the questions.** An entry is found exactly if it handles what is
thrown, in the state to which the entries before it lead, and these are passed over; then the
callback has been asked what they ask and, if it catches a type, about its own. None is found
exactly if all entries are passed over. Entries that do not have the address in their range, and
those behind one that catches everything, change neither the result nor the questions. -/
theorem dispatch_lawful (f : Frame) (pc : UInt16) (accepts : UInt16 → StateM σ Bool) (s : σ) :
    f.handler? pc accepts s = ((f.inquire pc accepts s).1, (f.inquire pc accepts s).2.2) ∧
      (∀ e asked t, f.inquire pc accepts s = (some e, asked, t) ↔
        ∃ before after u own, f.code.exceptions = before ++ e :: after ∧
          PassedOver pc accepts before s u ∧ Handles pc accepts e u own t ∧
          asked = questions pc before ++ own) ∧
      (∀ asked t, f.inquire pc accepts s = (none, asked, t) ↔
        PassedOver pc accepts f.code.exceptions s t ∧ asked = questions pc f.code.exceptions) ∧
      ∀ g : Frame,
        (g.code.exceptions.filter (·.covers pc) = f.code.exceptions.filter (·.covers pc) →
          g.inquire pc accepts s = f.inquire pc accepts s) ∧
        ∀ before e after after', f.code.exceptions = before ++ e :: after →
          g.code.exceptions = before ++ e :: after' → e.covers pc = true → e.catchesAll = true →
          g.inquire pc accepts s = f.inquire pc accepts s := by
  refine ⟨findM?_recording pc accepts _ [] s, fun e asked t ↦ ⟨fun h ↦ ?_, ?_⟩,
    fun asked t ↦ ⟨fun h ↦ ?_, ?_⟩, fun g ↦ ⟨fun hfilter ↦ ?_, ?_⟩⟩
  · rcases f.inquire_cases pc accepts s with
      ⟨u, _, hnone⟩ | ⟨before, e', after, u, own, v, htable, hbefore, hhandles, hsome⟩
    · cases hnone.symm.trans h
    · cases hsome.symm.trans h
      exact ⟨before, after, u, own, htable, hbefore, hhandles, rfl⟩
  · rintro ⟨before, after, u, own, htable, hbefore, hhandles, rfl⟩
    exact inquire_of_handles htable hbefore hhandles
  · rcases f.inquire_cases pc accepts s with
      ⟨u, hall, hnone⟩ | ⟨before, e', after, u, own, v, _, _, _, hsome⟩
    · cases hnone.symm.trans h
      exact ⟨hall, rfl⟩
    · cases hsome.symm.trans h
  · rintro ⟨hall, rfl⟩
    exact inquire_of_passedOver hall
  · rw [inquire, inquire, handler?_eq, handler?_eq, ← findM?_filter_covers, hfilter,
      findM?_filter_covers]
  · intro before e after after' hf hg hcovers hcatches
    rw [inquire, inquire, handler?_eq, handler?_eq, hf, hg,
      findM?_append_catchAll hcovers (ExceptionEntry.catchesAll_iff.mp hcatches) before after'
        after]

/-- A frame of a method that has this exception table, and nothing besides. -/
def ofTable (table : List ExceptionEntry) : Frame where
  method := bareMethod 0 0 []
  code :=
    { maxStack := 0, maxLocals := 0, instructions := [], exceptions := table, attributes := [] }
  stack := []
  depth := 0
  locals := []
  pc := 0

/-- A type that is refused at first and accepted when the callback is asked about it again. Ranges
that are elsewhere, or that end before they start, make no difference, and neither does what stands
behind the entry that catches everything. -/
theorem dispatch_lawful_secondQuestion :
    let accepts : UInt16 → StateM Nat Bool := fun _ n ↦ (n == 1, n + 1)
    let f := ofTable [⟨0, 9, 20, 7⟩, ⟨5, 9, 21, 7⟩, ⟨9, 0, 22, 8⟩, ⟨4, 5, 23, 7⟩, ⟨0, 9, 24, 0⟩]
    f.inquire 4 accepts 0 = (some ⟨4, 5, 23, 7⟩, [7, 7], 2) ∧
      (ofTable [⟨0, 9, 20, 7⟩, ⟨4, 5, 23, 7⟩, ⟨0, 9, 24, 0⟩]).inquire 4 accepts 0 =
        f.inquire 4 accepts 0 ∧
      (ofTable (f.code.exceptions ++ [⟨0, 9, 25, 6⟩])).inquire 4 accepts 0 =
        f.inquire 4 accepts 0 := by
  intro accepts f
  obtain ⟨-, hsome, -, hother⟩ := dispatch_lawful f 4 accepts 0
  refine ⟨?_, (hother (ofTable [⟨0, 9, 20, 7⟩, ⟨4, 5, 23, 7⟩, ⟨0, 9, 24, 0⟩])).1 (by decide),
    (hother (ofTable (f.code.exceptions ++ [⟨0, 9, 25, 6⟩]))).2
      [⟨0, 9, 20, 7⟩, ⟨5, 9, 21, 7⟩, ⟨9, 0, 22, 8⟩, ⟨4, 5, 23, 7⟩] ⟨0, 9, 24, 0⟩ [] [⟨0, 9, 25, 6⟩]
      rfl rfl (by decide) (by decide)⟩
  refine (hsome _ _ _).mpr ⟨[⟨0, 9, 20, 7⟩, ⟨5, 9, 21, 7⟩, ⟨9, 0, 22, 8⟩], [⟨0, 9, 24, 0⟩], 1, [7],
    rfl, ⟨by decide, .cons rfl (.nil 1)⟩, .typed (by decide) (by decide) (by decide) rfl, rfl⟩

end Frame

end JavaClass
