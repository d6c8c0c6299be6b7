import JavaClass.Proofs.Frame.Operations

/-!
# Local variables remember what was stored

A frame has nothing but slots, and a store repairs only the slots next to the one that it writes.
That is enough: the values that a store destroys are exactly those with which the new value has a
slot in common, so a value can be loaded as long as no later store has touched any of its slots.

## Main definitions

* `Frame.Overlap`: two values have a slot in common.
* `Frame.writes`: the stores of a run that succeeded.

## Main statements

* `Frame.getElem?_writeLocal_iff`: what a store leaves in the slots.
* `Frame.load_after_iff_last_write`: what can be loaded after any operations.
-/

namespace JavaClass

namespace Frame

/-! ## Slots -/

/-- Values `u` from slot `i` on and `v` from slot `j` on have a slot in common. -/
def Overlap (i : Nat) (u : Value) (j : Nat) (v : Value) : Prop :=
  ∃ slot, (i ≤ slot ∧ slot < i + u.width) ∧ j ≤ slot ∧ slot < j + v.width

variable {i j slot : Nat} {u v : Value} {locals : List (Option Value)} {f : Frame}
  {index : UInt16}

theorem overlap_iff : Overlap i u j v ↔ i < j + v.width ∧ j < i + u.width := by
  constructor
  · rintro ⟨slot, hi, hj⟩
    omega
  · rintro ⟨hi, hj⟩
    have hu := u.width_pos
    have hv := v.width_pos
    exact ⟨max i j, by omega, by omega⟩

instance : Decidable (Overlap i u j v) := decidable_of_iff _ overlap_iff.symm

/-- Values that begin at different slots overlap if the lower one is wide and the other one is next
to it. -/
theorem overlap_iff_eq_or_next :
    Overlap i u j v ↔
      i = j ∨ (i + 1 = j ∧ u.isWide = true) ∨ (i = j + 1 ∧ v.isWide = true) := by
  rw [overlap_iff, Value.width, Value.width]
  cases u.isWide <;> cases v.isWide <;> simp <;> omega

/-! ## Stores -/

@[simp] theorem length_clearBelow (locals : List (Option Value)) (slot : Nat) :
    (clearBelow locals slot).length = locals.length := by
  cases slot with
  | zero => rfl
  | succ below =>
    rw [clearBelow]
    split
    · exact List.length_set
    · rfl

@[simp] theorem length_writeLocal (locals : List (Option Value)) (slot : Nat) (v : Value) :
    (writeLocal locals slot v).length = locals.length := by
  rw [writeLocal]
  split <;> simp

theorem any_isWide_iff :
    (locals[i]?.join).any Value.isWide = true ↔
      ∃ w, locals[i]? = some (some w) ∧ w.isWide = true := by
  simp [Option.any_eq_true, Option.join_eq_some_iff]

theorem getElem?_clearBelow_iff :
    (clearBelow locals slot)[i]? = some (some u) ↔
      locals[i]? = some (some u) ∧ ¬ (i + 1 = slot ∧ u.isWide = true) := by
  cases slot with
  | zero => simp [clearBelow]
  | succ below =>
    rw [clearBelow]
    by_cases hi : i = below
    · subst hi
      split
      · next hreaches =>
        obtain ⟨w, hw, hwide⟩ := any_isWide_iff.mp hreaches
        rw [List.getElem?_set_self (List.getElem?_eq_some_iff.mp hw).1, hw]
        constructor
        · rintro ⟨⟩
        · rintro ⟨⟨⟩, hnot⟩
          exact absurd ⟨rfl, hwide⟩ hnot
      · next hreaches =>
        exact (and_iff_left_of_imp fun h hu ↦ hreaches (any_isWide_iff.mpr ⟨u, h, hu.2⟩)).symm
    · have hother : ¬ (i + 1 = below + 1 ∧ u.isWide = true) := fun h ↦ hi (Nat.succ.inj h.1)
      rw [and_iff_left hother]
      split
      · rw [List.getElem?_set_ne (Ne.symm hi)]
      · rfl

theorem getElem?_writeLocal_iff_of_written :
    (writeLocal locals slot v)[i]? = some (some u) ↔
      ((clearBelow locals slot).set slot (some v))[i]? = some (some u) ∧
        ¬ (i = slot + 1 ∧ v.isWide = true) := by
  rw [writeLocal]
  split
  · next hwide =>
    by_cases hi : i = slot + 1
    · subst hi
      rw [List.getElem?_set]
      simp [hwide]
    · rw [List.getElem?_set_ne (Ne.symm hi)]
      exact (and_iff_left fun h ↦ hi h.1).symm
  · next hwide => exact (and_iff_left fun h ↦ hwide h.2).symm

/-- **What a store leaves in the slots**: the value that is stored, and every other value that has
no slot in common with it. -/
theorem getElem?_writeLocal_iff (hslot : slot < locals.length) :
    (writeLocal locals slot v)[i]? = some (some u) ↔
      i = slot ∧ u = v ∨ locals[i]? = some (some u) ∧ ¬ Overlap i u slot v := by
  rw [getElem?_writeLocal_iff_of_written, overlap_iff_eq_or_next]
  by_cases hi : i = slot
  · subst hi
    rw [List.getElem?_set_self (by simpa using hslot)]
    constructor
    · rintro ⟨⟨⟩, _⟩
      exact .inl ⟨rfl, rfl⟩
    · rintro (⟨_, rfl⟩ | ⟨_, hnot⟩)
      · exact ⟨rfl, by simp⟩
      · exact absurd (.inl rfl) hnot
  · rw [List.getElem?_set_ne (Ne.symm hi), getElem?_clearBelow_iff]
    tauto

/-! ## Loads -/

theorem load_eq_ok_iff : f.load index = .ok v ↔ f.locals[index.toNat]? = some (some v) := by
  rw [load]
  split <;> simp [*]

theorem load_eq_uninitializedLocal_iff (h : index.toNat < f.locals.length) :
    f.load index = .error (.uninitializedLocal index) ↔ ∀ v, f.load index ≠ .ok v := by
  rw [load, List.getElem?_eq_getElem h]
  cases f.locals[index.toNat] <;> simp

theorem load_of_length_le (h : f.locals.length ≤ index.toNat) :
    f.load index = .error (.localOutOfRange index f.code.maxLocals) := by
  rw [load, List.getElem?_eq_none h]

/-! ## The history of a frame -/

/-- A value that was stored in a slot. -/
structure Write where
  index : UInt16
  value : Value
  deriving DecidableEq, Repr

/-- What an operation stores, if it is a store and succeeds. -/
def write? (op : FrameOp) (f : Frame) : Option Write :=
  match op, op.perform f with
  | .store index value, .ok _ _ => some ⟨index, value⟩
  | _, _ => none

/-- What some operations store, in their order. -/
def writes (ops : List FrameOp) (f : Frame) : List Write := events write? ops f

theorem locals_perform (op : FrameOp) (f : Frame) :
    (∃ w : Write, write? op f = some w ∧ w.index.toNat + w.value.width ≤ f.locals.length ∧
      (op.perform f).state.locals = writeLocal f.locals w.index.toNat w.value) ∨
    write? op f = none ∧ (op.perform f).state.locals = f.locals := by
  rcases perform_cases op f with ⟨answer, g, hperform, hg⟩ | ⟨e, hperform⟩
  · rw [hperform]
    cases hg with
    | store index v h => exact .inl ⟨⟨index, v⟩, by simp [write?, hperform], h, rfl⟩
    | _ => exact .inr ⟨rfl, rfl⟩
  · rw [hperform]
    refine .inr ⟨?_, rfl⟩
    cases op <;> simp [write?, hperform]

theorem Becomes.length_locals {op : FrameOp} {answer : FrameAnswer} {g : Frame}
    (h : f.Becomes op answer g) : g.locals.length = f.locals.length := by
  cases h <;> simp

theorem length_locals_after (ops : List FrameOp) (f : Frame) :
    (after ops f).locals.length = f.locals.length :=
  of_after (·.locals.length = f.locals.length) (fun _ _ _ _ hg h ↦ hg.length_locals.trans h) rfl ops

/-! ## The last write -/

/-- The last of some writes that touches a slot of a value at `i`. -/
def lastTouching (i : Nat) (v : Value) (ws : List Write) : Option Write :=
  (ws.filter fun w ↦ Overlap i v w.index.toNat w.value).getLast?

theorem lastTouching_append_singleton (i : Nat) (v : Value) (ws : List Write) (w : Write) :
    lastTouching i v (ws ++ [w]) =
      if Overlap i v w.index.toNat w.value then some w else lastTouching i v ws := by
  rw [lastTouching, List.filter_append]
  by_cases h : Overlap i v w.index.toNat w.value
  · rw [if_pos h, List.filter_cons_of_pos (by simpa using h), List.filter_nil, List.getLast?_concat]
  · rw [if_neg h, List.filter_cons_of_neg (by simpa using h), List.filter_nil, List.append_nil,
      lastTouching]

theorem overlap_self (i : Nat) (v : Value) : Overlap i v i v :=
  overlap_iff.mpr ⟨by have := v.width_pos; omega, by have := v.width_pos; omega⟩

/-- If all slots were empty, a value is in a slot exactly if nothing since has touched it. -/
theorem getElem?_locals_after_iff (hf : ∀ i : Nat, f.locals[i]? ≠ some (some v))
    (ops : List FrameOp) :
    (after ops f).locals[index.toNat]? = some (some v) ↔
      lastTouching index.toNat v (writes ops f) = some ⟨index, v⟩ := by
  induction ops using List.reverseRecOn with
  | nil => exact iff_of_false (hf _) nofun
  | append_singleton ops op ih =>
    rw [after_append_singleton, writes, events_append_singleton, ← writes]
    rcases locals_perform op (after ops f) with ⟨w, hw, hfits, hlocals⟩ | ⟨hw, hlocals⟩
    · have hslot : w.index.toNat < (after ops f).locals.length := by
        have := w.value.width_pos
        omega
      rw [hlocals, hw, Option.toList_some, getElem?_writeLocal_iff hslot, ih,
        lastTouching_append_singleton]
      by_cases htouch : Overlap index.toNat v w.index.toNat w.value
      · rw [if_pos htouch, Option.some_inj]
        constructor
        · rintro (⟨hindex, rfl⟩ | ⟨_, hnot⟩)
          · rw [UInt16.toNat_inj.mp hindex]
          · exact absurd htouch hnot
        · rintro rfl
          exact .inl ⟨rfl, rfl⟩
      · rw [if_neg htouch]
        constructor
        · rintro (⟨hindex, rfl⟩ | ⟨hlast, _⟩)
          · exact absurd (hindex ▸ overlap_self _ _) htouch
          · exact hlast
        · exact fun hlast ↦ .inr ⟨hlast, htouch⟩
    · rw [hlocals, hw, Option.toList_none, List.append_nil]
      exact ih

theorem exists_store_eq_ok_iff :
    (∃ g, store index v f = .ok () g) ↔ index.toNat + v.width ≤ f.locals.length := by
  rw [store]
  split <;> simp [*]

/-- **What can be loaded after any operations** on a fresh frame: what was stored in the slot, as
long as no later store has touched a slot of it. All else is refused, as is what reaches beyond the
slots that the code declares. -/
theorem load_after_iff_last_write {method : Method} {code : Code}
    (hcode : method.code = some code) :
    ∃ f, ofMethod method = .ok f ∧ ∀ ops,
      (∀ index : UInt16, index.toNat < code.maxLocals.toNat →
        (∀ v, (after ops f).load index = .ok v ↔
          lastTouching index.toNat v (writes ops f) = some ⟨index, v⟩) ∧
        ((∀ v, lastTouching index.toNat v (writes ops f) ≠ some ⟨index, v⟩) →
          (after ops f).load index = .error (.uninitializedLocal index))) ∧
      (∀ index : UInt16, code.maxLocals.toNat ≤ index.toNat →
        (after ops f).load index = .error (.localOutOfRange index code.maxLocals)) ∧
      ∀ (index : UInt16) (v : Value), (∃ g, store index v (after ops f) = .ok () g) ↔
        index.toNat + v.width ≤ code.maxLocals.toNat := by
  obtain ⟨f, hf, rfl, -, -, hlocals, -⟩ := exists_ofMethod_eq_ok hcode
  refine ⟨f, hf, fun ops ↦ ?_⟩
  have hlength : (after ops f).locals.length = f.code.maxLocals.toNat := by
    rw [length_locals_after, hlocals, List.length_replicate]
  have hload (index : UInt16) (v : Value) : (after ops f).load index = .ok v ↔
      lastTouching index.toNat v (writes ops f) = some ⟨index, v⟩ := by
    rw [load_eq_ok_iff]
    refine getElem?_locals_after_iff (fun i ↦ ?_) ops
    simp [hlocals, List.getElem?_replicate]
  refine ⟨fun index hindex ↦ ⟨hload index, fun hnone ↦ ?_⟩, fun index hindex ↦ ?_,
    fun index v ↦ ?_⟩
  · rw [load_eq_uninitializedLocal_iff (hlength ▸ hindex)]
    exact fun v hv ↦ hnone v ((hload index v).mp hv)
  · rw [load_of_length_le (hlength ▸ hindex), code_after]
  · rw [exists_store_eq_ok_iff, hlength]

/-- A store into the upper slot of a wide value destroys it, and nothing else. -/
theorem load_after_upper_slot_written :
    ∃ f, ofMethod (bareMethod 0 3 []) = .ok f ∧
      let g := after [.store 2 (.int 1), .store 0 (.long 7), .store 1 (.int 5)] f
      g.load 0 = .error (.uninitializedLocal 0) ∧ g.load 1 = .ok (.int 5) ∧
        g.load 2 = .ok (.int 1) ∧ g.load 3 = .error (.localOutOfRange 3 3) ∧
        ∀ g', store 2 (.long 7) g ≠ .ok () g' := by
  obtain ⟨f, hf, h⟩ := @load_after_iff_last_write (bareMethod 0 3 []) _ rfl
  refine ⟨f, hf, ?_⟩
  cases hf
  obtain ⟨hinside, houtside, hstore⟩ := h [.store 2 (.int 1), .store 0 (.long 7), .store 1 (.int 5)]
  refine ⟨(hinside 0 (by decide)).2 fun v ↦ ?_, ((hinside 1 (by decide)).1 _).mpr (by decide),
    ((hinside 2 (by decide)).1 _).mpr (by decide), houtside 3 (by decide),
    fun g' hg' ↦ absurd ((hstore 2 (.long 7)).mp ⟨g', hg'⟩) (by decide)⟩
  cases v <;> nofun

end Frame

end JavaClass
