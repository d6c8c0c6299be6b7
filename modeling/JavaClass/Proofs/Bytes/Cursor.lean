import JavaClass.Bytes.Reader
import JavaClass.Proofs.Bytes.Numbers
import JavaClass.Proofs.Run

/-!
# What a cursor consumes

A cursor goes over an input from front to back, and some of its operations fail. One that fails
leaves the input alone, so what a later operation finds depends on the successes before it only:
the blocks that they have taken, one after the other, are the beginning of the input, and what is
left is the rest of it. All that an operation answers is read off its own block.

Asking whether a block is there takes nothing, although it needs as many bytes as the block has; so
what an operation needs, `CursorOp.size`, and what it takes, `CursorOp.span`, are two numbers.

## Main definitions

* `CursorOp.left`, `CursorOp.slices`: what a run leaves of an input, and what it takes.
* `CursorOp.reading`: what an operation answers about its block.

## Main statements

* `CursorOp.perform_eq_ok_iff`: what one operation takes and answers.
* `CursorOp.run_lawful`: what a run takes, leaves and answers.
-/

namespace JavaClass

namespace Reader

/-! ## Blocks -/

variable {n : Nat} {input : Bytes}

theorem skip_eq (n : Nat) : skip n = (fun _ ↦ ()) <$> take n := rfl

theorem ensure_of_le (h : n ≤ input.length) : ensure n input = .ok () input := by
  simp [ensure, Nat.min_eq_left h]

theorem ensure_of_lt (h : input.length < n) : ensure n input = .error ⟨n, input.length⟩ input := by
  have : min n input.length ≠ n := by omega
  simp [ensure, this]

end Reader

theorem Width.bytes_pos (width : Width) : 0 < width.bytes := by
  cases width <;> decide

namespace CursorOp

open Bytes

variable {op : CursorOp} {input block rest : Bytes}

/-! ## One operation -/

/-- How many bytes the operation takes if it succeeds. -/
def span : CursorOp → Nat
  | ensure _ => 0
  | op => op.size

/-- What the operation answers about the block that it has taken. -/
def reading (op : CursorOp) (block : Bytes) : Reading :=
  match op with
  | unsigned _ => .number (bigEndian block)
  | signed _ => .number (twosComplement block)
  | skip _ | ensure _ => .nothing
  | copy _ | split _ => .block block

theorem span_le_size (op : CursorOp) : op.span ≤ op.size := by
  cases op <;> simp [span, size]

theorem perform_of_le (h : op.size ≤ input.length) :
    op.perform input = .ok (op.reading (input.take op.span)) (input.drop op.span) := by
  cases op with
  | unsigned width =>
    have htake : Reader.take width.bytes input = _ := Reader.take_of_le h
    simp [perform, Reader.number, EStateM.map_apply, htake, reading, span, size]
  | signed width =>
    have htake : Reader.take width.bytes input = _ := Reader.take_of_le h
    have hlength : (input.take width.bytes).length = width.bytes := List.length_take_of_le h
    have hsigned := bmod_bigEndian (input.take width.bytes)
    rw [hlength] at hsigned
    simp [perform, Reader.number, EStateM.map_apply, htake, hsigned, reading, span, size]
  | skip n =>
    have htake : Reader.take n input = _ := Reader.take_of_le h
    simp [perform, Reader.skip_eq, EStateM.map_apply, htake, reading, span, size]
  | ensure n =>
    have hensure : Reader.ensure n input = _ := Reader.ensure_of_le h
    simp [perform, EStateM.map_apply, hensure, reading, span]
  | copy n | split n =>
    have htake : Reader.take n input = _ := Reader.take_of_le h
    simp [perform, EStateM.map_apply, htake, reading, span, size]

theorem perform_of_lt (h : input.length < op.size) :
    op.perform input = .error ⟨op.size, input.length⟩ input := by
  cases op with
  | unsigned width | signed width =>
    have htake : Reader.take width.bytes input = _ := Reader.take_of_lt h
    simp [perform, Reader.number, EStateM.map_apply, htake, size]
  | skip n =>
    have htake : Reader.take n input = _ := Reader.take_of_lt h
    simp [perform, Reader.skip_eq, EStateM.map_apply, htake, size]
  | ensure n =>
    have hensure : Reader.ensure n input = _ := Reader.ensure_of_lt h
    simp [perform, EStateM.map_apply, hensure, size]
  | copy n | split n =>
    have htake : Reader.take n input = _ := Reader.take_of_lt h
    simp [perform, EStateM.map_apply, htake, size]

theorem length_take_span (h : op.size ≤ input.length) : (input.take op.span).length = op.span :=
  List.length_take_of_le (op.span_le_size.trans h)

/-- What an operation answers; what it leaves is apart. -/
def answer (op : CursorOp) (input : Bytes) : Except OutOfBytes Reading :=
  match op.perform input with
  | .ok reading _ => .ok reading
  | .error short _ => .error short

/-- The bytes that an operation takes off the front: those that are not left. -/
def slice (op : CursorOp) (input : Bytes) : Bytes :=
  input.take (input.length - (op.perform input).state.length)

theorem slice_append_state (op : CursorOp) (input : Bytes) :
    op.slice input ++ (op.perform input).state = input := by
  rcases Nat.lt_or_ge input.length op.size with hlt | hle
  · simp [slice, perform_of_lt hlt]
  · have hspan := op.span_le_size
    have htaken : input.length - (input.length - op.span) = op.span := by omega
    simp [slice, perform_of_le hle, htaken]

theorem slice_of_le (h : op.size ≤ input.length) : op.slice input = input.take op.span := by
  -- What was taken and what was taken off the front are both in front of the same rest.
  have happend := slice_append_state op input
  rw [perform_of_le h, EStateM.Result.state] at happend
  exact List.append_cancel_right (happend.trans (List.take_append_drop _ _).symm)

theorem slice_of_lt (h : input.length < op.size) : op.slice input = [] := by
  simp [slice, perform_of_lt h]

theorem answer_of_le (h : op.size ≤ input.length) :
    op.answer input = .ok (op.reading (op.slice input)) := by
  rw [answer, perform_of_le h, slice_of_le h]

theorem answer_of_lt (h : input.length < op.size) :
    op.answer input = .error ⟨op.size, input.length⟩ := by
  rw [answer, perform_of_lt h]

/-- **What a success answers** is read off the block that it takes. -/
theorem perform_eq_ok_iff {r : Reading} :
    op.perform input = .ok r rest ↔
      op.size ≤ input.length ∧ ∃ block, input = block ++ rest ∧ block.length = op.span ∧
        r = op.reading block := by
  rcases Nat.lt_or_ge input.length op.size with hlt | hle
  · rw [perform_of_lt hlt]
    exact iff_of_false nofun fun h ↦ absurd h.1 (Nat.not_le.mpr hlt)
  · rw [perform_of_le hle]
    constructor
    · rintro ⟨⟩
      exact ⟨hle, _, (List.take_append_drop _ _).symm, length_take_span hle, rfl⟩
    · rintro ⟨-, block, rfl, hlength, rfl⟩
      rw [← hlength, List.take_left, List.drop_left]

theorem perform_number_eq_ok_iff {value : Bytes → ℤ} (hspan : op.span = op.size)
    (hvalue : ∀ block, op.reading block = .number (value block)) {n : ℤ} :
    op.perform input = .ok (.number n) rest ↔
      ∃ block, input = block ++ rest ∧ block.length = op.size ∧ n = value block := by
  simp only [perform_eq_ok_iff, hspan, hvalue, Reading.number.injEq]
  constructor
  · rintro ⟨-, hblock⟩
    exact hblock
  · rintro ⟨block, rfl, hlength, rfl⟩
    exact ⟨by simp [hlength], block, rfl, hlength, rfl⟩

theorem unsigned_eq_ok_iff {width : Width} {n : ℤ} :
    (unsigned width).perform input = .ok (.number n) rest ↔
      ∃ block, input = block ++ rest ∧ block.length = width.bytes ∧ n = bigEndian block :=
  perform_number_eq_ok_iff rfl fun _ ↦ rfl

theorem signed_eq_ok_iff {width : Width} {n : ℤ} :
    (signed width).perform input = .ok (.number n) rest ↔
      ∃ block, input = block ++ rest ∧ block.length = width.bytes ∧ n = twosComplement block :=
  perform_number_eq_ok_iff rfl fun _ ↦ rfl

/-! ### Halves -/

/-- A block of twice the bytes is two blocks, and means what these mean together. -/
theorem exists_block_iff_exists_halves {value : Bytes → ℤ} {half : Nat}
    (hvalue : ∀ high low : Bytes, high.length = half → low.length = half →
      value (high ++ low) = value high * 256 ^ half + bigEndian low) {n : ℤ} :
    (∃ block, input = block ++ rest ∧ block.length = 2 * half ∧ n = value block) ↔
      ∃ high low middle,
        (∃ block, input = block ++ middle ∧ block.length = half ∧ high = value block) ∧
        (∃ block, middle = block ++ rest ∧ block.length = half ∧ low = (bigEndian block : ℤ)) ∧
        n = high * 256 ^ half + low := by
  constructor
  · rintro ⟨block, rfl, hlength, rfl⟩
    have hhigh : (block.take half).length = half := by rw [List.length_take]; omega
    have hlow : (block.drop half).length = half := by rw [List.length_drop]; omega
    refine ⟨_, _, block.drop half ++ rest, ⟨block.take half, ?_, hhigh, rfl⟩,
      ⟨block.drop half, rfl, hlow, rfl⟩, ?_⟩
    · rw [← List.append_assoc, List.take_append_drop]
    · rw [← hvalue _ _ hhigh hlow, List.take_append_drop]
  · rintro ⟨_, _, _, ⟨high, rfl, hhigh, rfl⟩, ⟨low, rfl, hlow, rfl⟩, rfl⟩
    refine ⟨high ++ low, (List.append_assoc ..).symm, ?_, (hvalue _ _ hhigh hlow).symm⟩
    rw [List.length_append, hhigh, hlow, Nat.two_mul]

variable {half whole : Width} {n : ℤ}

/-- **A number of twice the bytes is read as two numbers.** -/
theorem unsigned_halves (h : whole.bytes = 2 * half.bytes) :
    (unsigned whole).perform input = .ok (.number n) rest ↔
      ∃ high low middle, (unsigned half).perform input = .ok (.number high) middle ∧
        (unsigned half).perform middle = .ok (.number low) rest ∧
        n = high * 256 ^ half.bytes + low := by
  simp only [unsigned_eq_ok_iff, h]
  refine exists_block_iff_exists_halves fun high low _ hlow ↦ ?_
  rw [bigEndian_append, hlow]
  push_cast
  rfl

theorem signed_halves (h : whole.bytes = 2 * half.bytes) :
    (signed whole).perform input = .ok (.number n) rest ↔
      ∃ high low middle, (signed half).perform input = .ok (.number high) middle ∧
        (unsigned half).perform middle = .ok (.number low) rest ∧
        n = high * 256 ^ half.bytes + low := by
  simp only [signed_eq_ok_iff, unsigned_eq_ok_iff, h]
  refine exists_block_iff_exists_halves fun high low hhigh hlow ↦ ?_
  rw [twosComplement_append (List.ne_nil_of_length_pos (hhigh ▸ half.bytes_pos)), hlow]

/-! ## Runs -/

/-- What some operations leave of an input. -/
def left (ops : List CursorOp) (input : Bytes) : Bytes :=
  ops.foldl (fun input op ↦ (op.perform input).state) input

/-- The bytes that some operations take, in their order. -/
def slices : List CursorOp → Bytes → List Bytes
  | [], _ => []
  | op :: ops, input => op.slice input :: slices ops (op.perform input).state

theorem left_append (ops ops' : List CursorOp) (input : Bytes) :
    left (ops ++ ops') input = left ops' (left ops input) := List.foldl_append

theorem slices_append (ops ops' : List CursorOp) (input : Bytes) :
    slices (ops ++ ops') input = slices ops input ++ slices ops' (left ops input) := by
  induction ops generalizing input with
  | nil => rfl
  | cons op ops ih => rw [List.cons_append, slices, ih, slices, List.cons_append]; rfl

/-- **Nothing is lost**: what a run takes, and then what it leaves, is the input. -/
theorem flatten_slices_append_left (ops : List CursorOp) (input : Bytes) :
    (slices ops input).flatten ++ left ops input = input := by
  induction ops generalizing input with
  | nil => rfl
  | cons op ops ih =>
    calc (slices (op :: ops) input).flatten ++ left (op :: ops) input
        = op.slice input ++ ((slices ops (op.perform input).state).flatten ++
            left ops (op.perform input).state) := by
          rw [slices, List.flatten_cons, List.append_assoc]
          rfl
      _ = input := by rw [ih, slice_append_state]

theorem runAll_cons (op : CursorOp) (ops : List CursorOp) (input : Bytes) :
    runAll (op :: ops) input =
      (op.answer input, (op.perform input).state) :: runAll ops (op.perform input).state := by
  rw [runAll, answer]
  split <;> simp [*]

theorem runAll_append (ops ops' : List CursorOp) (input : Bytes) :
    runAll (ops ++ ops') input = runAll ops input ++ runAll ops' (left ops input) := by
  induction ops generalizing input with
  | nil => rfl
  | cons op ops ih =>
    rw [List.cons_append, runAll_cons, ih, runAll_cons, List.cons_append]
    rfl

/-- **What a run of a cursor takes, leaves and answers.** The blocks that its operations take are,
one after the other and with what is left behind them, the input. Wherever an operation stands in a
run, it succeeds if the bytes left are enough for it; then it answers what its block says. If they
are not enough, it reports what it wanted and what there was, and the operations after it find the
input as it did. A number of twice the bytes is two numbers. -/
theorem run_lawful (input : Bytes) :
    (∀ ops, (slices ops input).flatten ++ left ops input = input) ∧
      (∀ before op after, ∃ answer slice rest,
        runAll (before ++ op :: after) input =
          runAll before input ++ (answer, rest) :: runAll after rest ∧
        slices (before ++ [op]) input = slices before input ++ [slice] ∧
        left (before ++ [op]) input = rest ∧ slice ++ rest = left before input ∧
        ((∃ r, answer = .ok r) ↔ op.size ≤ (left before input).length) ∧
        (∀ r, answer = .ok r → slice.length = op.span ∧ r = op.reading slice) ∧
        ∀ short, answer = .error short →
          short.wanted = op.size ∧ short.remaining = (left before input).length ∧
            short.remaining < short.wanted ∧ slice = [] ∧ rest = left before input) ∧
      ∀ half whole : Width, whole.bytes = 2 * half.bytes → ∀ n rest,
        ((unsigned whole).perform input = .ok (.number n) rest ↔
          ∃ high low middle, (unsigned half).perform input = .ok (.number high) middle ∧
            (unsigned half).perform middle = .ok (.number low) rest ∧
            n = high * 256 ^ half.bytes + low) ∧
        ((signed whole).perform input = .ok (.number n) rest ↔
          ∃ high low middle, (signed half).perform input = .ok (.number high) middle ∧
            (unsigned half).perform middle = .ok (.number low) rest ∧
            n = high * 256 ^ half.bytes + low) := by
  refine ⟨(flatten_slices_append_left · input), fun before op after ↦ ?_,
    fun half whole h n rest ↦ ⟨unsigned_halves h, signed_halves h⟩⟩
  refine ⟨op.answer (left before input), op.slice (left before input),
    (op.perform (left before input)).state, ?_, slices_append .., left_append ..,
    slice_append_state .., ?_⟩
  · rw [runAll_append, runAll_cons]
  · rcases Nat.lt_or_ge (left before input).length op.size with hlt | hle
    · rw [answer_of_lt hlt, slice_of_lt hlt, perform_of_lt hlt]
      refine ⟨iff_of_false nofun (Nat.not_le.mpr hlt), nofun, ?_⟩
      rintro _ ⟨⟩
      exact ⟨rfl, rfl, hlt, rfl, rfl⟩
    · rw [answer_of_le hle, slice_of_le hle]
      refine ⟨iff_of_true ⟨_, rfl⟩ hle, ?_, nofun⟩
      rintro _ ⟨⟩
      exact ⟨length_take_span hle, rfl⟩

/-- A copy that is too long is refused between a number and the last byte, and the number is
negative because its higher half is. -/
theorem run_lawful_shortCopy :
    (∃ short, runAll [.signed .w32, .copy 4, .split 1] [0xFF, 0xFE, 0x01, 0x02, 0x03] =
        runAll [.signed .w32] [0xFF, 0xFE, 0x01, 0x02, 0x03] ++
          (.error short, [0x03]) :: runAll [.split 1] [0x03] ∧
        short.wanted = 4 ∧ short.remaining = 1) ∧
      ∃ high low middle,
        (signed .w16).perform [0xFF, 0xFE, 0x01, 0x02, 0x03] = .ok (.number high) middle ∧
          (unsigned .w16).perform middle = .ok (.number low) [0x03] ∧
          -130814 = high * 256 ^ 2 + low := by
  obtain ⟨-, hrun, hhalves⟩ := run_lawful [0xFF, 0xFE, 0x01, 0x02, 0x03]
  obtain ⟨answer, slice, rest, hanswers, -, -, -, hok, -, herror⟩ :=
    hrun [.signed .w32] (.copy 4) [.split 1]
  have hnegative : (signed .w32).perform [0xFF, 0xFE, 0x01, 0x02, 0x03] =
      .ok (.number (-130814)) [0x03] :=
    signed_eq_ok_iff.mpr ⟨[0xFF, 0xFE, 0x01, 0x02], rfl, rfl, by decide⟩
  refine ⟨?_, ((hhalves .w16 .w32 rfl (-130814) [0x03]).2).mp hnegative⟩
  cases answer with
  | ok r => exact absurd (hok.mp ⟨r, rfl⟩) (by decide)
  | error short =>
    obtain ⟨hwanted, hremaining, -, -, rfl⟩ := herror short rfl
    exact ⟨short, hanswers, hwanted, hremaining⟩

end CursorOp

end JavaClass
