import JavaClass.Proofs.Frame.Locals
import Mathlib.Algebra.GroupWithZero.Nat

/-!
# What holds of every frame

The depth of a frame is kept beside the operands and not counted anew, an empty slot does not say
whether a wide value reaches into it, and the address may have gone past the last instruction. What
ties these together is `Frame.WellFormed`: it holds of a fresh frame, and every operation keeps it.
For the local variables this rests on `Frame.getElem?_writeLocal_iff` alone.

What only asks a frame something, such as `Frame.isAtEnd` and `Frame.line?`, cannot change it and is
no step of a run.

## Main statements

* `FrameRun.wellFormed_after`: what holds of a frame after any run.
-/

namespace JavaClass

namespace Frame

/-- What a frame keeps about itself is true, and within the limits of the code. -/
structure WellFormed (f : Frame) : Prop where
  depth_eq : f.depth = (f.stack.map Value.width).sum
  depth_le : f.depth ≤ f.code.maxStack.toNat
  length_locals : f.locals.length = f.code.maxLocals.toNat
  /-- The second slot of a wide value exists and is empty. -/
  upper_slot : ∀ (i : Nat) (v : Value), f.locals[i]? = some (some v) → v.isWide = true →
    i + 1 < f.code.maxLocals.toNat ∧ f.locals[i + 1]? = some none
  pc_le : f.pc ≤ f.code.instructions.length

variable {f g : Frame} {op : FrameOp} {answer : FrameAnswer}

/-! ## Wide values in local variables -/

theorem getElem?_eq_some_none_iff {locals : List (Option Value)} {i : Nat} :
    locals[i]? = some none ↔ i < locals.length ∧ ∀ v, locals[i]? ≠ some (some v) := by
  rcases h : locals[i]? with _ | _ | v
  · simpa using h
  · simpa using (List.getElem?_eq_some_iff.mp h).1
  · simp

/-- A store that fits leaves the second slot of every wide value empty. -/
theorem upper_slot_writeLocal {locals : List (Option Value)} {slot : Nat} {v : Value}
    (hfits : slot + v.width ≤ locals.length)
    (hlocals : ∀ (i : Nat) (u : Value), locals[i]? = some (some u) → u.isWide = true →
      locals[i + 1]? = some none)
    (i : Nat) (u : Value) (hu : (writeLocal locals slot v)[i]? = some (some u))
    (hwide : u.isWide = true) : (writeLocal locals slot v)[i + 1]? = some none := by
  have hslot : slot < locals.length := by
    have := v.width_pos
    omega
  rw [getElem?_eq_some_none_iff, length_writeLocal]
  rcases (getElem?_writeLocal_iff hslot).mp hu with ⟨rfl, rfl⟩ | ⟨hold, hapart⟩
  · -- The value just stored: an older value in the slot above would overlap it.
    rw [Value.width, if_pos hwide] at hfits
    refine ⟨hfits, fun w hw ↦ ?_⟩
    rcases (getElem?_writeLocal_iff hslot).mp hw with ⟨hnext, _⟩ | ⟨_, hapart⟩
    · exact Nat.succ_ne_self i hnext
    · exact hapart (overlap_iff_eq_or_next.mpr (.inr (.inr ⟨rfl, hwide⟩)))
  · -- An older value: it would overlap what was stored in the slot above.
    obtain ⟨hlt, hempty⟩ := getElem?_eq_some_none_iff.mp (hlocals i u hold hwide)
    refine ⟨hlt, fun w hw ↦ ?_⟩
    rcases (getElem?_writeLocal_iff hslot).mp hw with ⟨hnext, _⟩ | ⟨hthere, _⟩
    · exact hapart (overlap_iff_eq_or_next.mpr (.inr (.inl ⟨hnext, hwide⟩)))
    · exact hempty w hthere

/-! ## The invariant -/

theorem WellFormed.of_ofMethod {method : Method} (h : ofMethod method = .ok f) : f.WellFormed := by
  obtain ⟨code, hcode⟩ : ∃ code, method.code = some code := by
    cases hcode : method.code with
    | none => simp [ofMethod, hcode] at h
    | some code => exact ⟨code, rfl⟩
  obtain ⟨g, hg, rfl, hstack, hdepth, hlocals, hpc⟩ := exists_ofMethod_eq_ok hcode
  obtain rfl : f = g := Except.ok.inj (h.symm.trans hg)
  constructor <;> simp [hstack, hdepth, hlocals, hpc, List.getElem?_replicate]

/-- **Every operation keeps a frame well-formed.** -/
theorem Becomes.wellFormed (h : f.Becomes op answer g) (hf : f.WellFormed) : g.WellFormed := by
  cases h with
  | push v hfits =>
    exact { hf with
      depth_eq := by simp only [hf.depth_eq, List.map_cons, List.sum_cons, Nat.add_comm]
      depth_le := hfits }
  | pop hstack =>
    have hdepth := hf.depth_eq
    rw [hstack, List.map_cons, List.sum_cons] at hdepth
    exact { hf with
      depth_eq := by simp only [hdepth, Nat.add_sub_cancel_left]
      depth_le := Nat.le_trans (Nat.sub_le _ _) hf.depth_le }
  | store index v hfits =>
    have hupper := upper_slot_writeLocal hfits fun i u hu hwide ↦ (hf.upper_slot i u hu hwide).2
    exact { hf with
      length_locals := (length_writeLocal ..).trans hf.length_locals
      upper_slot := fun i u hu hwide ↦ by
        refine ⟨?_, hupper i u hu hwide⟩
        have hlt := (getElem?_eq_some_none_iff.mp (hupper i u hu hwide)).1
        rwa [length_writeLocal, hf.length_locals] at hlt }
  | fetch format hfits => exact { hf with pc_le := hfits }
  | jump pc hpc => exact { hf with pc_le := Nat.le_of_lt hpc }
  | _ => exact hf

theorem WellFormed.after (hf : f.WellFormed) (ops : List FrameOp) : (after ops f).WellFormed :=
  of_after WellFormed (fun _ _ _ _ hg ↦ hg.wellFormed) hf ops

/-! ## What follows from it -/

theorem WellFormed.isAtEnd_iff (hf : f.WellFormed) :
    f.isAtEnd = true ↔ f.pc = f.code.instructions.length := by
  rw [isAtEnd, decide_eq_true_iff]
  exact ⟨Nat.le_antisymm hf.pc_le, Nat.le_of_eq ∘ Eq.symm⟩

theorem WellFormed.width_le_depth (hf : f.WellFormed) {v : Value} {stack : List Value}
    (h : f.stack = v :: stack) : v.width ≤ f.depth := by
  rw [hf.depth_eq, h, List.map_cons, List.sum_cons]
  exact Nat.le_add_right _ _

theorem slots_of_store {index : UInt16} {v : Value} (h : store index v f = .ok () g) :
    index.toNat - 1 < f.locals.length ∧ index.toNat < f.locals.length ∧
      (v.isWide = true → index.toNat + 1 < f.locals.length) := by
  have hfits := exists_store_eq_ok_iff.mp ⟨g, h⟩
  have hpos := v.width_pos
  refine ⟨by omega, by omega, fun hwide ↦ ?_⟩
  rwa [Value.width, if_pos hwide] at hfits

end Frame

/-- **What holds of a frame after any run**, be its steps done or refused: its depth is that of its
operands and within the limit, it has the slots that the code declares, the second slot of a wide
value is there and empty, and the address is in the code or at its end. So what is taken from the
depth was in it, and what is written has a slot. A step that is refused changes nothing. -/
theorem FrameRun.wellFormed_after {method : Method} {code : Code}
    (hcode : method.code = some code) :
    ∃ f, Frame.ofMethod method = .ok f ∧ ∀ steps : List FrameStep,
      let run := FrameRun.after steps { current := f }
      run.current.code = code ∧ run.current.WellFormed ∧
        (run.current.isAtEnd = true ↔ run.current.pc = code.instructions.length) ∧
        (∀ v stack, run.current.stack = v :: stack → v.width ≤ run.current.depth) ∧
        (∀ index v g, Frame.store index v run.current = .ok () g →
          index.toNat - 1 < run.current.locals.length ∧ index.toNat < run.current.locals.length ∧
            (v.isWide = true → index.toNat + 1 < run.current.locals.length)) ∧
        ∀ s e run', run.step s = (.error e, run') → run' = run := by
  obtain ⟨f, hf, rfl, -⟩ := Frame.exists_ofMethod_eq_ok hcode
  refine ⟨f, hf, fun steps ↦ ?_⟩
  obtain ⟨⟨ops, hcurrent⟩, -⟩ := exists_after_eq f steps
  have hcode : (after steps { current := f }).current.code = f.code := by
    rw [hcurrent, Frame.code_after]
  have hwf : (after steps { current := f }).current.WellFormed :=
    hcurrent ▸ (Frame.WellFormed.of_ofMethod hf).after ops
  exact ⟨hcode, hwf, hcode ▸ hwf.isAtEnd_iff, fun _ _ ↦ hwf.width_le_depth,
    fun _ _ _ ↦ Frame.slots_of_store, fun _ _ _ ↦ step_of_error⟩

/-- A wide operand and a wide local variable, a step that is refused, and a frame gone back to. -/
theorem FrameRun.wellFormed_after_mixture :
    ∃ f, Frame.ofMethod (Frame.bareMethod 3 2 [0x11, 0x01]) = .ok f ∧
      let run := FrameRun.after
        [.op (.push (.long 1)), .save, .op .pop, .restore, .op (.store 0 (.double 0)),
          .op (.store 1 (.long 2)), .op (.fetch .u16)] { current := f }
      run.current.WellFormed ∧ run.current.depth = 2 ∧
        run.current.locals = [some (.double 0), none] ∧ run.current.isAtEnd = true ∧
        (run.step (.op (.push (.long 3)))).2 = run := by
  obtain ⟨f, hf, h⟩ := @FrameRun.wellFormed_after (Frame.bareMethod 3 2 [0x11, 0x01]) _ rfl
  refine ⟨f, hf, ?_⟩
  obtain ⟨-, hwf, hend, -, -, hrefused⟩ := h
    [.op (.push (.long 1)), .save, .op .pop, .restore, .op (.store 0 (.double 0)),
      .op (.store 1 (.long 2)), .op (.fetch .u16)]
  cases hf
  exact ⟨hwf, by decide, by decide, hend.mpr (by decide),
    hrefused (.op (.push (.long 3))) (.stackOverflow 3) _ rfl⟩

end JavaClass
