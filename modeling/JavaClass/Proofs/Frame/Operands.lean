import JavaClass.Proofs.Frame.Invariant
import Mathlib.Algebra.BigOperators.Group.List.Basic
import Mathlib.Algebra.Ring.Int.Defs

/-!
# Operands come back in reverse order

A frame counts the units of its operands and is bounded in units, but it takes off values. So the
operands are followed through the history of a frame, which is the values that were pushed and
those that were popped, whatever else happened in between. Pushes and pops match like brackets, a
value being the kind of its bracket. The topmost operand is then the value whose push is last
among those that no pop has matched, and there is none if all pushes are matched.

A frame that was saved has the history that it had then (`FrameRun.exists_after_eq`). What only asks
a frame something, such as `Frame.line?`, is given no frame to return.

## Main definitions

* `Transfer.Balanced`: every value that was pushed has been popped.
* `Frame.transfers`: the history of a frame.

## Main statements

* `Frame.replay_transfers`: the operands are what the history leaves.
* `Frame.operands_after`: what `push`, `pop` and `peek` do after any operations.
-/

namespace JavaClass

/-- An operand that was put on the stack, or taken off it. -/
inductive Transfer where
  | pushed (v : Value)
  | popped (v : Value)
  deriving DecidableEq, Repr

namespace Transfer

/-! ## Histories as brackets -/

/-- Every value that was pushed has been popped, after all that was pushed later. -/
inductive Balanced : List Transfer → Prop
  | nil : Balanced []
  | enclose {v : Value} {inner outer : List Transfer} (hinner : Balanced inner)
    (houter : Balanced outer) : Balanced (pushed v :: (inner ++ popped v :: outer))

/-- The values of which the pushes are not matched, the last one first. -/
inductive Leaves : List Transfer → List Value → Prop
  | nil {ts : List Transfer} (h : Balanced ts) : Leaves ts []
  | cons {before between : List Transfer} {v : Value} {vs : List Value} (h : Leaves before vs)
    (hbetween : Balanced between) : Leaves (before ++ pushed v :: between) (v :: vs)

variable {ts before between : List Transfer} {t : Transfer} {v : Value} {vs ws : List Value}

theorem Balanced.append (h : Balanced before) (h' : Balanced between) :
    Balanced (before ++ between) := by
  induction h with
  | nil => exact h'
  | enclose hinner _ _ ih =>
    rw [List.cons_append, List.append_assoc, List.cons_append]
    exact .enclose hinner ih

theorem Leaves.append_balanced (h : Leaves ts vs) (hbetween : Balanced between) :
    Leaves (ts ++ between) vs := by
  cases h with
  | nil h => exact .nil (h.append hbetween)
  | cons h hinner =>
    rw [List.append_assoc, List.cons_append]
    exact .cons h (hinner.append hbetween)

/-- A pop matches the last push that was not matched. -/
theorem Leaves.append_popped (h : Leaves ts (v :: vs)) : Leaves (ts ++ [popped v]) vs := by
  cases h with
  | cons h hinner =>
    rw [List.append_assoc, List.cons_append]
    exact h.append_balanced (.enclose hinner .nil)

/-! ## Histories as changes of a list -/

/-- What a transfer makes of some operands; nothing but the topmost one can be taken off. -/
def apply (vs : List Value) : Transfer → Option (List Value)
  | pushed v => some (v :: vs)
  | popped v => if vs.head? = some v then some vs.tail else none

theorem apply_popped_eq_some_iff : apply vs (popped v) = some ws ↔ vs = v :: ws := by
  cases vs <;> simp [apply]

/-- What some transfers make of some operands. -/
def replay (ts : List Transfer) (vs : List Value) : Option (List Value) := ts.foldlM apply vs

theorem replay_append :
    replay (before ++ between) vs = (replay before vs).bind (replay between) := by
  rw [replay, List.foldlM_append]
  rfl

theorem replay_append_singleton_eq_some_iff :
    replay (ts ++ [t]) vs = some ws ↔ ∃ us, replay ts vs = some us ∧ apply us t = some ws := by
  rw [replay_append, Option.bind_eq_some_iff]
  simp [replay]

theorem Balanced.replay_eq (h : Balanced ts) (vs : List Value) : replay ts vs = some vs := by
  induction h generalizing vs with
  | nil => rfl
  | @enclose v inner outer _ _ ihinner ihouter =>
    calc replay (pushed v :: (inner ++ popped v :: outer)) vs
        = (replay inner (v :: vs)).bind (replay (popped v :: outer)) := replay_append
      _ = (apply (v :: vs) (popped v)).bind (replay outer) := by rw [ihinner]; rfl
      _ = some vs := by rw [apply_popped_eq_some_iff.mpr rfl]; exact ihouter vs

theorem leaves_of_replay (h : replay ts [] = some vs) : Leaves ts vs := by
  induction ts using List.reverseRecOn generalizing vs with
  | nil =>
    cases h
    exact .nil .nil
  | append_singleton ts t ih =>
    obtain ⟨us, hus, ht⟩ := replay_append_singleton_eq_some_iff.mp h
    cases t with
    | pushed v =>
      cases ht
      exact .cons (ih hus) .nil
    | popped v =>
      -- Only the topmost operand can be taken off, so the pop has an open push to match.
      rw [apply_popped_eq_some_iff] at ht
      exact Leaves.append_popped (ih (ht ▸ hus))

theorem replay_eq_nil_iff : replay ts [] = some [] ↔ Balanced ts := by
  constructor
  · intro h
    cases leaves_of_replay h with
    | nil h => exact h
  · exact fun h ↦ h.replay_eq []

/-- The topmost operand is the one whose push is the last that is not matched. -/
theorem head?_eq_some_iff (h : replay ts [] = some vs) :
    vs.head? = some v ↔
      ∃ before between, ts = before ++ pushed v :: between ∧ Balanced between := by
  constructor
  · intro hv
    cases leaves_of_replay h with
    | nil => cases hv
    | cons _ hbetween =>
      cases hv
      exact ⟨_, _, rfl, hbetween⟩
  · rintro ⟨before, between, rfl, hbetween⟩
    rw [replay_append, Option.bind_eq_some_iff] at h
    obtain ⟨us, -, hus⟩ := h
    have hvs : some (v :: us) = some vs := (hbetween.replay_eq (v :: us)).symm.trans hus
    cases hvs
    rfl

/-! ## Units -/

/-- How many more units operands take after a transfer. -/
def units : Transfer → ℤ
  | pushed v => v.width
  | popped v => -v.width

theorem sum_width_of_replay (h : replay ts [] = some vs) :
    ((vs.map Value.width).sum : ℤ) = (ts.map units).sum := by
  induction ts using List.reverseRecOn generalizing vs with
  | nil =>
    cases h
    rfl
  | append_singleton ts t ih =>
    obtain ⟨us, hus, ht⟩ := replay_append_singleton_eq_some_iff.mp h
    rw [List.map_append, List.sum_append, ← ih hus]
    cases t with
    | pushed v =>
      cases ht
      simp [units, add_comm]
    | popped v =>
      rw [apply_popped_eq_some_iff] at ht
      simp [units, ht]

end Transfer

namespace Frame

open Transfer (Balanced pushed popped)

variable {f g : Frame} {v : Value}

/-! ## The history of a frame -/

/-- What an operation does to an operand, if it is a push or a pop and succeeds. -/
def transfer? (op : FrameOp) (f : Frame) : Option Transfer :=
  match op, op.perform f with
  | .push v, .ok _ _ => some (pushed v)
  | .pop, .ok (.value v) _ => some (popped v)
  | _, _ => none

/-- The history of the operands. -/
def transfers (ops : List FrameOp) (f : Frame) : List Transfer := events transfer? ops f

theorem replay_transfer? (op : FrameOp) (f : Frame) :
    Transfer.replay (transfer? op f).toList f.stack = some (op.perform f).state.stack := by
  rcases perform_cases op f with ⟨answer, g, hperform, hg⟩ | ⟨e, hperform⟩
  · cases hg with
    | push v h => simp [transfer?, hperform, Transfer.replay, Transfer.apply]
    | pop h => simp [transfer?, hperform, Transfer.replay, Transfer.apply, h]
    | _ => simp [transfer?, hperform, Transfer.replay]
  -- What is refused is not part of the history, also if it was a push or a pop.
  · cases op <;> simp [transfer?, hperform, Transfer.replay]

/-- **The operands are what the history leaves.** -/
theorem replay_transfers (ops : List FrameOp) (f : Frame) :
    Transfer.replay (transfers ops f) f.stack = some (after ops f).stack := by
  induction ops using List.reverseRecOn with
  | nil => rfl
  | append_singleton ops op ih =>
    rw [transfers, events_append_singleton, ← transfers, after_append_singleton,
      Transfer.replay_append, ih]
    exact replay_transfer? op (after ops f)

/-! ## Pushes and pops -/

theorem exists_push_eq_ok_iff :
    (∃ g, push v f = .ok () g) ↔ f.depth + v.width ≤ f.code.maxStack.toNat := by
  rw [push]
  split <;> simp [*]

theorem eq_of_push_eq_ok (h : push v f = .ok () g) :
    g = { f with stack := v :: f.stack, depth := f.depth + v.width } := by
  rw [push] at h
  split at h <;> cases h
  rfl

theorem exists_pop_eq_ok_iff : (∃ g, pop f = .ok v g) ↔ f.stack.head? = some v := by
  rw [pop]
  split <;> simp [*]

theorem pop_eq_stackUnderflow_iff : pop f = .error .stackUnderflow f ↔ f.stack = [] := by
  rw [pop]
  split <;> simp [*]

theorem peek_eq_ok_iff : f.peek = .ok v ↔ f.stack.head? = some v := by
  rw [peek]
  split <;> simp [*]

theorem peek_eq_stackUnderflow_iff : f.peek = .error .stackUnderflow ↔ f.stack = [] := by
  rw [peek]
  split <;> simp [*]

theorem pop_of_push_eq_ok (h : push v f = .ok () g) : pop g = .ok v f := by
  obtain rfl := eq_of_push_eq_ok h
  simp [pop]

def pushes : List Value → FrameM Unit
  | [] => pure ()
  | v :: vs => do
    push v
    pushes vs

def pops : (n : Nat) → FrameM (List Value)
  | 0 => pure []
  | n + 1 => do
    let vs ← pops n
    return vs ++ [← pop]

/-- **What was pushed is popped in reverse**, and then the frame is as it was. -/
theorem pops_of_pushes {vs : List Value} (h : pushes vs f = .ok () g) :
    pops vs.length g = .ok vs.reverse f := by
  induction vs generalizing f with
  | nil =>
    cases h
    rfl
  | cons v vs ih =>
    rw [pushes, EStateM.bind_eq_ok_iff] at h
    obtain ⟨_, k, hfirst, hrest⟩ := h
    rw [List.length_cons, pops, EStateM.bind_apply, ih hrest, List.reverse_cons]
    exact EStateM.map_eq_ok_iff.mpr ⟨v, pop_of_push_eq_ok hfirst, rfl⟩

theorem operands_perform {op : FrameOp} (hpush : ∀ v, op ≠ .push v) (hpop : op ≠ .pop) :
    (op.perform f).state.stack = f.stack ∧ (op.perform f).state.depth = f.depth := by
  rcases perform_cases op f with ⟨answer, g, hperform, hg⟩ | ⟨e, hperform⟩
  · rw [hperform]
    cases hg with
    | push v => exact absurd rfl (hpush v)
    | pop => exact absurd rfl hpop
    | _ => exact ⟨rfl, rfl⟩
  · rw [hperform]
    exact ⟨rfl, rfl⟩

/-- **What happens to operands after any operations** on a fresh frame. A push succeeds if the units
left are enough for it, and changes nothing but the operands. A pop returns the value that was
pushed last among those not popped yet, which is also what is looked at, and both are refused if
every value that was pushed has been popped. No other operation changes the operands; and as many
pops as there were pushes return the values in reverse and bring the frame back. -/
theorem operands_after {method : Method} {code : Code} (hcode : method.code = some code) :
    ∃ f, ofMethod method = .ok f ∧ ∀ ops,
      let g := after ops f
      let unpopped (v : Value) := ∃ before between,
        transfers ops f = before ++ pushed v :: between ∧ Balanced between
      (g.depth : ℤ) = ((transfers ops f).map Transfer.units).sum ∧
        (∀ v, (∃ g', push v g = .ok () g') ↔ g.depth + v.width ≤ code.maxStack.toNat) ∧
        (∀ v g', push v g = .ok () g' →
          g' = { g with stack := v :: g.stack, depth := g.depth + v.width }) ∧
        (∀ v, ((∃ g', pop g = .ok v g') ↔ unpopped v) ∧ (g.peek = .ok v ↔ unpopped v)) ∧
        (pop g = .error .stackUnderflow g ↔ Balanced (transfers ops f)) ∧
        (g.peek = .error .stackUnderflow ↔ Balanced (transfers ops f)) ∧
        (∀ op : FrameOp, (∀ v, op ≠ .push v) → op ≠ .pop →
          (op.perform g).state.stack = g.stack ∧ (op.perform g).state.depth = g.depth) ∧
        ∀ vs g', pushes vs g = .ok () g' → pops vs.length g' = .ok vs.reverse g := by
  obtain ⟨f, hf, rfl, hstack, -⟩ := exists_ofMethod_eq_ok hcode
  refine ⟨f, hf, fun ops ↦ ?_⟩
  have hreplay : Transfer.replay (transfers ops f) [] = some (after ops f).stack :=
    hstack ▸ replay_transfers ops f
  have hempty : (after ops f).stack = [] ↔ Balanced (transfers ops f) := by
    rw [← Transfer.replay_eq_nil_iff, hreplay, Option.some_inj]
  refine ⟨?_, fun v ↦ ?_, fun _ _ ↦ eq_of_push_eq_ok, fun v ↦ ⟨?_, ?_⟩, ?_, ?_,
    fun _ ↦ operands_perform, fun _ _ ↦ pops_of_pushes⟩
  · rw [((WellFormed.of_ofMethod hf).after ops).depth_eq]
    exact Transfer.sum_width_of_replay hreplay
  · rw [exists_push_eq_ok_iff, code_after]
  · rw [exists_pop_eq_ok_iff, Transfer.head?_eq_some_iff hreplay]
  · rw [peek_eq_ok_iff, Transfer.head?_eq_some_iff hreplay]
  · rw [pop_eq_stackUnderflow_iff, hempty]
  · rw [peek_eq_stackUnderflow_iff, hempty]

/-- Steps that are refused, and steps that have nothing to do with operands, leave what is pushed
and popped as it is: the first operand is topmost again, and beside it there is room for a narrow
value only. -/
theorem operands_after_mixture :
    ∃ f, ofMethod (bareMethod 3 1 [0x10, 0x2A]) = .ok f ∧
      let g := after [.pop, .push (.long 1), .push (.int 2), .push .null, .fetch .u8, .pop,
        .push .null, .store 0 (.int 2), .pop, .jump 5] f
      (∃ g', pop g = .ok (.long 1) g') ∧ g.peek = .ok (.long 1) ∧
        pop g ≠ .error .stackUnderflow g ∧ (∃ g', push (.int 3) g = .ok () g') ∧
        (∀ g', push (.double 0) g ≠ .ok () g') ∧
        ((FrameOp.load 0).perform g).state.stack = g.stack ∧
        ∃ g', pushes [.int 3] g = .ok () g' ∧ pops 1 g' = .ok [.int 3] g := by
  obtain ⟨f, hf, h⟩ := @operands_after (bareMethod 3 1 [0x10, 0x2A]) _ rfl
  refine ⟨f, hf, ?_⟩
  cases hf
  obtain ⟨-, hpush, -, htop, -, -, hother, hreverse⟩ :=
    h [.pop, .push (.long 1), .push (.int 2), .push .null, .fetch .u8, .pop, .push .null,
      .store 0 (.int 2), .pop, .jump 5]
  have hsince : Balanced [pushed (.int 2), popped (.int 2), pushed .null, popped .null] :=
    .enclose .nil (.enclose .nil .nil)
  have hpop := (htop (.long 1)).1.mpr ⟨[], _, rfl, hsince⟩
  refine ⟨hpop, (htop (.long 1)).2.mpr ⟨[], _, rfl, hsince⟩, ?_, (hpush (.int 3)).mpr (by decide),
    fun g' hg' ↦ absurd ((hpush (.double 0)).mp ⟨g', hg'⟩) (by decide),
    (hother (.load 0) nofun nofun).1, _, rfl, hreverse [.int 3] _ rfl⟩
  obtain ⟨g', hg'⟩ := hpop
  rw [hg']
  exact nofun

end Frame

end JavaClass
