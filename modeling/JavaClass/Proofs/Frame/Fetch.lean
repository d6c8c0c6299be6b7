import JavaClass.Proofs.Bytes.Numbers
import JavaClass.Proofs.Frame.Invariant
import JavaClass.Proofs.Reading

/-!
# Code is read without a gap

A read takes the next bytes of the code and goes on behind them, and one that does not fit is
refused and stays where it is. So the bytes that are handed out between two jumps are a stretch of
the code, however they are grouped into numbers; the address behind the last byte can be reached in
this way, although no jump leads there.

What is handed out are numbers. Their bytes are found again as their digits, `FetchFormat.spell`,
so the statements are about the answers alone.

## Main definitions

* `FetchFormat.value`: the number that some bytes are read as.
* `Frame.fetched`: the bytes that some operations hand out.

## Main statements

* `Frame.drop_pc_eq`: what is handed out is the code from one address to the other.
* `Frame.fetch_after`: what reads and jumps do after any operations.
-/

namespace JavaClass

namespace FetchFormat

open Bytes

/-- The number that some bytes of the code are read as. -/
def value : FetchFormat → Bytes → ℤ
  | i16, bytes => twosComplement bytes
  | u8, bytes | u16, bytes | u32, bytes => bigEndian bytes

theorem interpret_bigEndian (format : FetchFormat) {bytes : Bytes}
    (h : bytes.length = format.size) : format.interpret (bigEndian bytes) = format.value bytes := by
  cases format with
  | i16 =>
    have hsigned := bmod_bigEndian bytes
    rw [h] at hsigned
    exact hsigned
  | _ => rfl

/-- The bytes that a number is read from: its digits, in two's complement if it is negative. -/
def spell (format : FetchFormat) (n : ℤ) : Bytes :=
  Bytes.ofNat format.size (n % limit format.size).toNat

theorem interpret_emod (format : FetchFormat) (n : ℕ) :
    format.interpret n % limit format.size = (n % limit format.size : ℕ) := by
  cases format with
  | i16 =>
    have hbmod : Int.bmod n (limit i16.size) % limit i16.size = n % limit i16.size :=
      Int.bmod_emod
    push_cast
    exact hbmod
  | _ => rfl

theorem spell_value (format : FetchFormat) {bytes : Bytes} (h : bytes.length = format.size) :
    format.spell (format.value bytes) = bytes := by
  have hlt := bigEndian_lt bytes
  rw [spell, ← format.interpret_bigEndian h, interpret_emod, Int.toNat_natCast, ← h,
    Nat.mod_eq_of_lt hlt, ofNat_bigEndian]

end FetchFormat

namespace Frame

variable {f g : Frame} {op : FrameOp} {ops ops' : List FrameOp}

/-! ## One operation -/

theorem length_take_drop_pc {n : Nat} (h : f.pc + n ≤ f.code.instructions.length) :
    ((f.code.instructions.drop f.pc).take n).length = n := by
  rw [List.length_take, List.length_drop]
  omega

theorem fetch_perform_of_le {format : FetchFormat}
    (h : f.pc + format.size ≤ f.code.instructions.length) :
    (FrameOp.fetch format).perform f =
      .ok (.number (format.value ((f.code.instructions.drop f.pc).take format.size)))
        { f with pc := f.pc + format.size } := by
  rw [← format.interpret_bigEndian (length_take_drop_pc h)]
  simp [FrameOp.perform, fetchNumber, EStateM.map_apply, fetch_apply format.size_pos, h]

theorem fetch_perform_of_lt {format : FetchFormat}
    (h : f.code.instructions.length < f.pc + format.size) :
    (FrameOp.fetch format).perform f =
      .error (.pcOutOfRange f.pc f.code.instructions.length) f := by
  simp [FrameOp.perform, fetchNumber, EStateM.map_apply, fetch_apply format.size_pos,
    Nat.not_le.mpr h]

/-- The bytes that an operation hands out, if it is a read and succeeds. -/
def fetched? (op : FrameOp) (f : Frame) : Option Bytes :=
  match op, op.perform f with
  | .fetch format, .ok (.number n) _ => some (format.spell n)
  | _, _ => none

theorem fetched?_of_le {format : FetchFormat}
    (h : f.pc + format.size ≤ f.code.instructions.length) :
    fetched? (.fetch format) f = some ((f.code.instructions.drop f.pc).take format.size) := by
  simp only [fetched?, fetch_perform_of_le h]
  rw [format.spell_value (length_take_drop_pc h)]

theorem fetched?_of_lt {format : FetchFormat}
    (h : f.code.instructions.length < f.pc + format.size) :
    fetched? (.fetch format) f = none := by
  simp only [fetched?, fetch_perform_of_lt h]

theorem pc_perform (hfetch : ∀ format, op ≠ .fetch format) (hjump : ∀ pc, op ≠ .jump pc) :
    (op.perform f).state.pc = f.pc := by
  rcases perform_cases op f with ⟨answer, g, hperform, hg⟩ | ⟨e, hperform⟩
  · rw [hperform]
    cases hg with
    | fetch format => exact absurd rfl (hfetch format)
    | jump pc => exact absurd rfl (hjump pc)
    | _ => rfl
  · rw [hperform]
    rfl

/-- What an operation hands out is the code from one address to the other, unless it is a jump. -/
theorem drop_pc_perform (hjump : ∀ pc, op ≠ .jump pc) :
    f.code.instructions.drop f.pc =
        (fetched? op f).toList.flatten ++ f.code.instructions.drop (op.perform f).state.pc ∧
      (op.perform f).state.pc = f.pc + (fetched? op f).toList.flatten.length := by
  by_cases hfetch : ∃ format, op = .fetch format
  · obtain ⟨format, rfl⟩ := hfetch
    rcases Nat.lt_or_ge f.code.instructions.length (f.pc + format.size) with hlt | hle
    · simp [fetched?_of_lt hlt, fetch_perform_of_lt hlt]
    · simp [fetched?_of_le hle, fetch_perform_of_le hle, length_take_drop_pc hle,
        ← List.drop_drop]
  · have hpc := pc_perform (f := f) (not_exists.mp hfetch) hjump
    have hnone : fetched? op f = none := by
      cases op with
      | fetch format => exact absurd ⟨format, rfl⟩ hfetch
      | _ => rfl
    rw [hpc, hnone]
    exact ⟨rfl, rfl⟩

theorem jump_perform_of_lt {pc : Nat} (h : pc < f.code.instructions.length) :
    (FrameOp.jump pc).perform f = .ok .nothing { f with pc } := by
  simp [FrameOp.perform, EStateM.map_apply, jump, h]

theorem jump_perform_of_le {pc : Nat} (h : f.code.instructions.length ≤ pc) :
    (FrameOp.jump pc).perform f = .error (.pcOutOfRange pc f.code.instructions.length) f := by
  simp [FrameOp.perform, EStateM.map_apply, jump, Nat.not_lt.mpr h]

/-! ## Between two jumps -/

/-- The bytes that some operations hand out. -/
def fetched (ops : List FrameOp) (f : Frame) : Bytes := (events fetched? ops f).flatten

/-- **What is handed out between two jumps is the code from one address to the other.** -/
theorem drop_pc_eq (hops : ∀ pc, .jump pc ∉ ops) (f : Frame) :
    f.code.instructions.drop f.pc =
        fetched ops f ++ f.code.instructions.drop (after ops f).pc ∧
      (after ops f).pc = f.pc + (fetched ops f).length := by
  induction ops using List.reverseRecOn with
  | nil => exact ⟨rfl, rfl⟩
  | append_singleton ops op ih =>
    obtain ⟨hdrop, hpc⟩ := ih fun pc hpc ↦ hops pc (List.mem_append_left _ hpc)
    obtain ⟨hnext, hpc'⟩ := drop_pc_perform (f := after ops f) fun pc hop ↦
      hops pc (hop ▸ List.mem_append_right _ List.mem_cons_self)
    rw [code_after] at hnext
    rw [fetched, events_append_singleton, List.flatten_append, ← fetched, after_append_singleton]
    constructor
    · rw [hdrop, hnext, List.append_assoc]
    · rw [hpc', hpc, List.length_append, Nat.add_assoc]

/-- **As many bytes from the same address are the same bytes**, and lead to the same address. -/
theorem fetched_eq_of_length_eq (hops : ∀ pc, .jump pc ∉ ops) (hops' : ∀ pc, .jump pc ∉ ops')
    (hcode : g.code = f.code) (hpc : g.pc = f.pc)
    (hlength : (fetched ops' g).length = (fetched ops f).length) :
    fetched ops' g = fetched ops f ∧ (after ops' g).pc = (after ops f).pc := by
  obtain ⟨hdrop, hend⟩ := drop_pc_eq hops f
  obtain ⟨hdrop', hend'⟩ := drop_pc_eq hops' g
  -- Both begin the same rest of the code.
  rw [hcode, hpc] at hdrop'
  exact ⟨(List.append_inj (hdrop'.symm.trans hdrop) hlength).1, by rw [hend', hend, hpc, hlength]⟩

/-- How many bytes an operation asks for. -/
def wanted : FrameOp → Nat
  | .fetch format => format.size
  | _ => 0

theorem length_fetched?_of_le (h : f.pc + wanted op ≤ f.code.instructions.length) :
    (fetched? op f).toList.flatten.length = wanted op := by
  cases op with
  | fetch format =>
    rw [fetched?_of_le h, Option.toList_some, List.flatten_singleton]
    exact length_take_drop_pc h
  | _ => rfl

theorem length_fetched_of_le (hops : ∀ pc, .jump pc ∉ ops)
    (h : f.pc + (ops.map wanted).sum ≤ f.code.instructions.length) :
    (fetched ops f).length = (ops.map wanted).sum := by
  induction ops using List.reverseRecOn with
  | nil => rfl
  | append_singleton ops op ih =>
    have hbefore : ∀ pc, .jump pc ∉ ops := fun pc hpc ↦ hops pc (List.mem_append_left _ hpc)
    rw [List.map_append, List.sum_append, List.map_singleton, List.sum_singleton] at h ⊢
    have hlength := ih hbefore (by omega)
    have hpc := (drop_pc_eq hbefore f).2
    have hop : (after ops f).pc + wanted op ≤ (after ops f).code.instructions.length := by
      rw [hpc, hlength, code_after]
      omega
    rw [fetched, events_append_singleton, List.flatten_append, List.length_append, ← fetched,
      hlength, length_fetched?_of_le hop]

/-- **What reads and jumps do after any operations** on a fresh frame. A read succeeds if the code
has enough bytes left, answers the number in them and goes on behind them. A jump succeeds if the
code has its target. What is refused is reported with the length of the code, and changes nothing.
So the bytes that are handed out between two jumps are the code from one address to the other, and
reads that all fit hand out as many as they ask for. Reads that hand out as many bytes from the same
address, at whatever time, hand out the same ones and end at the same address. -/
theorem fetch_after {method : Method} {code : Code} (hcode : method.code = some code) :
    ∃ f, ofMethod method = .ok f ∧ ∀ done,
      let g := after done f
      (∀ format, (FrameOp.fetch format).perform g =
        if g.pc + format.size ≤ code.instructions.length then
          .ok (.number (format.value ((code.instructions.drop g.pc).take format.size)))
            { g with pc := g.pc + format.size }
        else .error (.pcOutOfRange g.pc code.instructions.length) g) ∧
      (∀ pc, (FrameOp.jump pc).perform g =
        if pc < code.instructions.length then .ok .nothing { g with pc }
        else .error (.pcOutOfRange pc code.instructions.length) g) ∧
      ∀ ops, (∀ pc, .jump pc ∉ ops) →
        (code.instructions.drop g.pc = fetched ops g ++ code.instructions.drop (after ops g).pc ∧
          (after ops g).pc = g.pc + (fetched ops g).length) ∧
        (g.pc + (ops.map wanted).sum ≤ code.instructions.length →
          (fetched ops g).length = (ops.map wanted).sum) ∧
        ∀ done' ops', (∀ pc, .jump pc ∉ ops') →
          let g' := after done' f
          g'.pc = g.pc → (fetched ops' g').length = (fetched ops g).length →
            fetched ops' g' = fetched ops g ∧ (after ops' g').pc = (after ops g).pc := by
  obtain ⟨f, hf, rfl, -⟩ := exists_ofMethod_eq_ok hcode
  refine ⟨f, hf, fun done ↦ ?_⟩
  intro g
  have hg : g.code = f.code := code_after done f
  rw [← hg]
  refine ⟨fun format ↦ ?_, fun pc ↦ ?_, fun ops hops ↦ ⟨drop_pc_eq hops g,
    length_fetched_of_le hops, fun done' ops' hops' hpc hlength ↦ ?_⟩⟩
  · split
    · next hle => exact fetch_perform_of_le hle
    · next hlt => exact fetch_perform_of_lt (Nat.lt_of_not_le hlt)
  · split
    · next hlt => exact jump_perform_of_lt hlt
    · next hle => exact jump_perform_of_le (Nat.le_of_not_lt hle)
  · exact fetched_eq_of_length_eq hops hops' ((code_after done' f).trans hg.symm) hpc hlength

/-- The last three bytes, after a jump and after a read, in two groupings, with a read in between
that is refused; and a negative number. -/
theorem fetch_after_groupings :
    ∃ f, ofMethod (bareMethod 0 0 [0x10, 0x2A, 0x11, 0xFF, 0xFE]) = .ok f ∧
      let g := after [.jump 5, .fetch .u8, .jump 2] f
      let g' := after [.fetch .i16] f
      (FrameOp.jump 5).perform g = .error (.pcOutOfRange 5 5) g ∧
        (FrameOp.fetch .u32).perform g = .error (.pcOutOfRange 2 5) g ∧
        fetched [.fetch .u8, .fetch .i16] g' = fetched [.fetch .u16, .fetch .u32, .fetch .u8] g ∧
        (after [.fetch .u8, .fetch .i16] g').pc = 5 ∧
        (fetched [.fetch .u8, .fetch .i16] g').length = 3 ∧
        (FrameOp.fetch .i16).perform (after [.fetch .u8] g) =
          .ok (.number (-2)) (after [.fetch .u8, .fetch .i16] g) := by
  obtain ⟨f, hf, h⟩ := @fetch_after (bareMethod 0 0 [0x10, 0x2A, 0x11, 0xFF, 0xFE]) _ rfl
  refine ⟨f, hf, ?_⟩
  cases hf
  obtain ⟨hread, hjump, hbetween⟩ := h [.jump 5, .fetch .u8, .jump 2]
  obtain ⟨hsame, hend⟩ := (hbetween [.fetch .u16, .fetch .u32, .fetch .u8] (by simp)).2.2
    [.fetch .i16] [.fetch .u8, .fetch .i16] (by simp) rfl (by decide)
  refine ⟨hjump 5, hread .u32, hsame, hend, ?_, ?_⟩
  · exact ((h [.fetch .i16]).2.2 [.fetch .u8, .fetch .i16] (by simp)).2.1 (by decide)
  · exact (h [.jump 5, .fetch .u8, .jump 2, .fetch .u8]).1 .i16

end Frame

end JavaClass
