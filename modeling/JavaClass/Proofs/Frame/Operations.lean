import JavaClass.Frame.Op
import JavaClass.Proofs.Run
import Mathlib.Data.List.Induction

/-!
# What an operation makes of a frame

An operation either looks at a frame, or it changes one thing: the operands, a local variable, or
the address. `Frame.Becomes` says what it makes of the frame, what it answers, and what the frame
has checked before. An operation that is refused leaves the frame as it was, so what is shown for
the cases of `Frame.Becomes` holds of every operation.

A run also saves its frame and goes back to it. That adds no frames: the frame that is gone back to
is what some of the operations make of the first one.

## Main statements

* `Frame.perform_cases`: what an operation does to a frame.
* `FrameRun.exists_after_eq`: the frames of a run.
-/

namespace JavaClass

theorem FetchFormat.size_pos (format : FetchFormat) : 0 < format.size := by
  cases format <;> decide

namespace Frame

variable {f g : Frame} {op : FrameOp} {answer : FrameAnswer} {e : FrameError}

/-! ## One operation -/

/-- What an operation that succeeds makes of a frame. -/
inductive Becomes (f : Frame) : FrameOp → FrameAnswer → Frame → Prop
  | push (v : Value) (h : f.depth + v.width ≤ f.code.maxStack.toNat) :
    Becomes f (.push v) .nothing { f with stack := v :: f.stack, depth := f.depth + v.width }
  | pop {v : Value} {stack : List Value} (h : f.stack = v :: stack) :
    Becomes f .pop (.value v) { f with stack, depth := f.depth - v.width }
  | store (index : UInt16) (v : Value) (h : index.toNat + v.width ≤ f.locals.length) :
    Becomes f (.store index v) .nothing { f with locals := writeLocal f.locals index.toNat v }
  | fetch (format : FetchFormat) (h : f.pc + format.size ≤ f.code.instructions.length) :
    Becomes f (.fetch format)
      (.number (format.interpret
        (Bytes.bigEndian ((f.code.instructions.drop f.pc).take format.size))))
      { f with pc := f.pc + format.size }
  | jump (pc : Nat) (h : pc < f.code.instructions.length) :
    Becomes f (.jump pc) .nothing { f with pc }
  | peek {v : Value} (h : f.peek = .ok v) : Becomes f .peek (.value v) f
  | load {index : UInt16} {v : Value} (h : f.load index = .ok v) :
    Becomes f (.load index) (.value v) f
  | method : Becomes f .method (.method f.method.name f.method.descriptor) f
  | handler {pc : UInt16} {accepted asked : List UInt16} {entry : Option ExceptionEntry}
    (h : (f.handler? pc (acceptListed accepted)).run [] = (entry, asked)) :
    Becomes f (.handler pc accepted) (.handler entry asked) f

theorem fetch_apply {n : Nat} (hn : 0 < n) (f : Frame) :
    fetch n f =
      if f.pc + n ≤ f.code.instructions.length then
        .ok ((f.code.instructions.drop f.pc).take n) { f with pc := f.pc + n }
      else .error (.pcOutOfRange f.pc f.code.instructions.length) f := by
  have hlength : ((f.code.instructions.drop f.pc).take n).length = n ↔
      f.pc + n ≤ f.code.instructions.length := by
    rw [List.length_take, List.length_drop]
    omega
  simp only [fetch, hlength]

/-- An operation that asks the frame something is answered, or refused, and changes nothing. -/
theorem perform_ofExcept {α : Type} (ask : Frame → Except FrameError α) (say : α → FrameAnswer)
    (f : Frame) :
    (do let a ← MonadExcept.ofExcept (ask (← get)); return say a : FrameM FrameAnswer) f =
      match ask f with
      | .ok a => .ok (say a) f
      | .error e => .error e f := by
  rw [EStateM.bind_apply, EStateM.get_apply]
  cases h : ask f <;> simp [EStateM.bind_apply, MonadExcept.ofExcept, h]

/-- **What an operation does to a frame.** -/
theorem perform_cases (op : FrameOp) (f : Frame) :
    (∃ answer g, op.perform f = .ok answer g ∧ f.Becomes op answer g) ∨
      ∃ e, op.perform f = .error e f := by
  cases op with
  | push v =>
    by_cases h : f.depth + v.width ≤ f.code.maxStack.toNat
    · exact .inl ⟨_, _, by simp [FrameOp.perform, EStateM.map_apply, Frame.push, h], .push v h⟩
    · exact .inr ⟨_, by simp [FrameOp.perform, EStateM.map_apply, Frame.push, h]; rfl⟩
  | pop =>
    cases h : f.stack with
    | nil => exact .inr ⟨_, by simp [FrameOp.perform, EStateM.map_apply, Frame.pop, h]; rfl⟩
    | cons v stack =>
      exact .inl ⟨_, _, by simp [FrameOp.perform, EStateM.map_apply, Frame.pop, h], .pop h⟩
  | store index v =>
    by_cases h : index.toNat + v.width ≤ f.locals.length
    · exact .inl ⟨_, _, by simp [FrameOp.perform, EStateM.map_apply, Frame.store, h],
        .store index v h⟩
    · exact .inr ⟨_, by simp [FrameOp.perform, EStateM.map_apply, Frame.store, h]; rfl⟩
  | fetch format =>
    have hfetch := fetch_apply format.size_pos f
    by_cases h : f.pc + format.size ≤ f.code.instructions.length
    · rw [if_pos h] at hfetch
      exact .inl ⟨_, _, by simp [FrameOp.perform, fetchNumber, EStateM.map_apply, hfetch],
        .fetch format h⟩
    · rw [if_neg h] at hfetch
      exact .inr ⟨_, by simp [FrameOp.perform, fetchNumber, EStateM.map_apply, hfetch]; rfl⟩
  | jump pc =>
    by_cases h : pc < f.code.instructions.length
    · exact .inl ⟨_, _, by simp [FrameOp.perform, EStateM.map_apply, Frame.jump, h], .jump pc h⟩
    · exact .inr ⟨_, by simp [FrameOp.perform, EStateM.map_apply, Frame.jump, h]; rfl⟩
  | peek =>
    have hperform : FrameOp.peek.perform f = _ := perform_ofExcept Frame.peek .value f
    cases h : f.peek with
    | ok v => exact .inl ⟨_, f, by rw [hperform, h], .peek h⟩
    | error e => exact .inr ⟨e, by rw [hperform, h]⟩
  | load index =>
    have hperform : (FrameOp.load index).perform f = _ :=
      perform_ofExcept (Frame.load · index) .value f
    cases h : f.load index with
    | ok v => exact .inl ⟨_, f, by rw [hperform, h], .load h⟩
    | error e => exact .inr ⟨e, by rw [hperform, h]⟩
  | method => exact .inl ⟨_, f, rfl, .method⟩
  | handler pc accepted => exact .inl ⟨_, f, rfl, .handler rfl⟩

theorem Becomes.code_eq (h : f.Becomes op answer g) : g.code = f.code := by
  cases h <;> rfl

theorem of_perform (inv : Frame → Prop)
    (hinv : ∀ answer g, f.Becomes op answer g → inv f → inv g) (hf : inv f) :
    inv (op.perform f).state := by
  rcases perform_cases op f with ⟨answer, g, hperform, hg⟩ | ⟨e, hperform⟩ <;> rw [hperform]
  · exact hinv answer g hg hf
  · exact hf

/-! ## Many operations -/

def after (ops : List FrameOp) (f : Frame) : Frame :=
  ops.foldl (fun f op ↦ (op.perform f).state) f

theorem after_append_singleton (ops : List FrameOp) (op : FrameOp) (f : Frame) :
    after (ops ++ [op]) f = (op.perform (after ops f)).state := by
  rw [after, List.foldl_append]
  rfl

/-- **What every change preserves is preserved by all operations.** -/
theorem of_after (inv : Frame → Prop)
    (hinv : ∀ f op answer g, f.Becomes op answer g → inv f → inv g) (hf : inv f)
    (ops : List FrameOp) : inv (after ops f) := by
  induction ops using List.reverseRecOn with
  | nil => exact hf
  | append_singleton ops op ih =>
    rw [after_append_singleton]
    exact of_perform inv (fun _ _ ↦ hinv _ _ _ _) ih

theorem code_after (ops : List FrameOp) (f : Frame) : (after ops f).code = f.code :=
  of_after (·.code = f.code) (fun _ _ _ _ hg h ↦ hg.code_eq.trans h) rfl ops

/-- What `event?` tells of some operations, in their order. -/
def events {α : Type} (event? : FrameOp → Frame → Option α) : List FrameOp → Frame → List α
  | [], _ => []
  | op :: ops, f => (event? op f).toList ++ events event? ops (op.perform f).state

theorem events_append_singleton {α : Type} (event? : FrameOp → Frame → Option α)
    (ops : List FrameOp) (op : FrameOp) (f : Frame) :
    events event? (ops ++ [op]) f = events event? ops f ++ (event? op (after ops f)).toList := by
  induction ops generalizing f with
  | nil => exact List.append_nil _
  | cons first ops ih =>
    rw [List.cons_append, events, ih, events, List.append_assoc]
    rfl

/-- A method that has these limits and these instructions, and nothing besides. -/
def bareMethod (maxStack maxLocals : UInt16) (instructions : Bytes) : Method where
  flags := .ofBits 0
  name := "f"
  descriptor := "()V"
  code := some { maxStack, maxLocals, instructions, exceptions := [], attributes := [] }
  attributes := []

theorem exists_ofMethod_eq_ok {method : Method} {code : Code} (h : method.code = some code) :
    ∃ f, ofMethod method = .ok f ∧ f.code = code ∧ f.stack = [] ∧ f.depth = 0 ∧
      f.locals = List.replicate code.maxLocals.toNat none ∧ f.pc = 0 := by
  simp [ofMethod, h]

end Frame

/-! ## Runs that go back -/

namespace FrameRun

def after (steps : List FrameStep) (run : FrameRun) : FrameRun :=
  steps.foldl (fun run s ↦ (run.step s).2) run

theorem after_append_singleton (steps : List FrameStep) (s : FrameStep) (run : FrameRun) :
    after (steps ++ [s]) run = ((after steps run).step s).2 := by
  rw [after, List.foldl_append]
  rfl

theorem step_op (run : FrameRun) (op : FrameOp) :
    (run.step (.op op)).2 = { run with current := (op.perform run.current).state } := by
  rw [step]
  cases op.perform run.current <;> rfl

/-- **The frames of a run**, the saved one included, are what operations alone make of the first. -/
theorem exists_after_eq (f : Frame) (steps : List FrameStep) :
    (∃ ops, (after steps { current := f }).current = Frame.after ops f) ∧
      ∀ g, (after steps { current := f }).saved = some g → ∃ ops, g = Frame.after ops f := by
  induction steps using List.reverseRecOn with
  | nil => exact ⟨⟨[], rfl⟩, nofun⟩
  | append_singleton steps s ih =>
    obtain ⟨⟨ops, hcurrent⟩, hsaved⟩ := ih
    rw [after_append_singleton]
    cases s with
    | op op =>
      rw [step_op]
      exact ⟨⟨ops ++ [op], by rw [Frame.after_append_singleton, hcurrent]⟩, hsaved⟩
    | save => exact ⟨⟨ops, hcurrent⟩, by rintro _ ⟨⟩; exact ⟨ops, hcurrent⟩⟩
    | restore =>
      refine ⟨?_, hsaved⟩
      change ∃ ops, (after steps { current := f }).saved.getD _ = _
      cases hg : (after steps { current := f }).saved with
      | none => exact ⟨ops, hcurrent⟩
      | some g => exact hsaved g hg

theorem step_of_error {run run' : FrameRun} {s : FrameStep} {e : FrameError}
    (h : run.step s = (.error e, run')) : run' = run := by
  cases s with
  | op op =>
    rw [step] at h
    rcases Frame.perform_cases op run.current with ⟨answer, g, hperform, _⟩ | ⟨e', hperform⟩ <;>
      rw [hperform] at h <;> cases h
    rfl
  | save => cases h
  | restore => cases h

end FrameRun

end JavaClass
