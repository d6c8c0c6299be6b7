import JavaClass.Proofs.Consumption

/-!
# Framed attributes

A decoder of attributes is framed if nothing but the attribute itself matters to it: where the name
of an attribute can be looked up and its body is all there, the decoder has one outcome, whatever
comes behind the body, and that is left as it is. So an attribute can ask for more input only while
its body is not all there.

`Attribute.Block` is an attribute as it stands in an input, with just what it takes for that: a name
that the pool knows, and a length that can be written.

## Main statements

* `Attribute.framed_block`: what the frame does with a block.
* `Attribute.of_framed_eq_error`: the three ways in which reading an attribute can fail.
* `Attribute.isFramed_framed`: whatever is made of the bodies.
-/

namespace JavaClass

open Bytes EStateM Decoder

variable {α : Type}

/-! ## Missing constants -/

namespace Pool

variable {pool : Pool} {referrer : Referrer} {index : UInt16} {e : DecodeError}

/-- The error is about this index, at which the pool does not have what is expected there. -/
def Lacks (pool : Pool) (index : UInt16) : DecodeError → Prop
  | .danglingReference _ found (.kind kind) => found = index ∧ pool.ofKind? kind index = none
  | .danglingReference _ found .value => found = index ∧ pool.entry? index = none
  | _ => False

theorem Lacks.isSettled (h : pool.Lacks index e) : e.IsSettled := by
  cases e with
  | danglingReference => trivial
  | _ => exact h.elim

theorem require_eq_error_iff {expected : Expectation} {view : Constant → Option α} :
    pool.require expected view referrer index = .error e ↔
      pool.entry? index >>= view = none ∧ e = .danglingReference referrer index expected := by
  rw [require]
  split
  · next hview => simp [hview]
  · next hview => simp [hview, eq_comm]

theorem lacks_of_requireText_eq_error (h : pool.requireText referrer index = .error e) :
    pool.Lacks index e := by
  rw [requireText, Except.map_eq_error_iff, require_eq_error_iff] at h
  obtain ⟨hview, rfl⟩ := h
  refine ⟨rfl, ?_⟩
  change (pool.entry? index).filter _ = none
  cases hentry : pool.entry? index with
  | none => rfl
  | some c =>
    rw [hentry] at hview
    cases c with
    | utf8 bytes text => cases hview
    | _ => rfl

theorem lacks_of_requireValue_eq_error (h : pool.requireValue referrer index = .error e) :
    pool.Lacks index e := by
  obtain ⟨hview, rfl⟩ := require_eq_error_iff.mp h
  refine ⟨rfl, ?_⟩
  rwa [Option.bind_eq_bind, Option.bind_fun_some] at hview

theorem symbol_eq_ok_iff {expected : Expectation} {view : Constant → Option String} {s : Symbol} :
    Symbol.mk index <$> pool.require expected view referrer index = .ok s ↔
      s.index = index ∧ pool.entry? index >>= view = some s.text := by
  rw [Except.map_eq_ok_iff]
  cases hview : pool.entry? index >>= view with
  | none => simp [require, hview]
  | some text =>
    simp only [require, hview, Except.ok.injEq, exists_eq_left', Option.some.injEq]
    exact ⟨by rintro rfl; exact ⟨rfl, rfl⟩, by rintro ⟨rfl, rfl⟩; rfl⟩

theorem requireText_eq_ok_iff {s : Symbol} :
    pool.requireText referrer index = .ok s ↔ s.index = index ∧ pool.text? index = some s.text :=
  symbol_eq_ok_iff

theorem requireClass_eq_ok_iff {s : Symbol} : pool.requireClass referrer index = .ok s ↔
    s.index = index ∧ pool.className? index = some s.text :=
  symbol_eq_ok_iff

end Pool

/-! ## Frames -/

namespace Attribute

/-- What stands before the body of an attribute. -/
def header (nameIndex : UInt16) (length : Nat) : Bytes := ofWord nameIndex ++ ofNat 4 length

/-- The header of an attribute, or the body that the header announces, does not fit into what is
left of the input. -/
def Incomplete (input : Bytes) : Prop :=
  input.length < 6 ∨ ∃ nameIndex length more, length < 0x100000000 ∧
    input = header nameIndex length ++ more ∧ more.length < length

/-- A header begins the input, but its index does not lead to a name. -/
def Nameless (pool : Pool) (input : Bytes) : Prop :=
  ∃ nameIndex length more, length < 0x100000000 ∧ input = header nameIndex length ++ more ∧
    pool.text? nameIndex = none

/-- An attribute in an input, under a name that the pool knows. -/
structure Block (pool : Pool) where
  nameIndex : UInt16
  name : String
  body : Bytes
  named : pool.text? nameIndex = some name
  length_lt : body.length < 0x100000000

def Block.bytes {pool : Pool} (block : Block pool) : Bytes :=
  header block.nameIndex block.body.length ++ block.body

/-- An attribute is read as if nothing came after it. -/
structure IsFramed (pool : Pool) (decoder : Decoder α) : Prop where
  /-- There is one outcome for each block, and it leaves what comes behind the block. -/
  outcome : ∀ block : Block pool, ∃ result : Except DecodeError α,
    ∀ rest, decoder (block.bytes ++ rest) = (liftM result : Decoder α) rest
  /-- More bytes are asked for only if there is no whole block. -/
  truncated : ∀ {input rest short}, decoder input = .error (.truncated short) rest →
    Incomplete input

variable {pool : Pool} {contents : String → Bytes → Except DecodeError α} {input rest : Bytes}
  {e : DecodeError}

theorem exists_header (h : 6 ≤ input.length) : ∃ nameIndex length more, length < 0x100000000 ∧
    input = header nameIndex length ++ more := by
  obtain ⟨index, mid, hindex, rfl⟩ := exists_ofNat_append (show 2 ≤ input.length by omega)
  rw [List.length_append, length_ofNat] at h
  obtain ⟨length, more, hlength, rfl⟩ := exists_ofNat_append (show 4 ≤ mid.length by omega)
  refine ⟨UInt16.ofNat index, length, more, hlength, ?_⟩
  rw [header, ofWord, UInt16.toNat_ofNat_of_lt' hindex, List.append_assoc]

theorem exists_block {nameIndex : UInt16} {name : String} {length : Nat} {more : Bytes}
    (hnamed : pool.text? nameIndex = some name) (hlength : length < 0x100000000)
    (hfits : length ≤ more.length) : ∃ (block : Block pool) (rest : Bytes),
      header nameIndex length ++ more = block.bytes ++ rest := by
  obtain ⟨body, rest, rfl, rfl⟩ : ∃ body rest, more = body ++ rest ∧ body.length = length :=
    ⟨_, _, (List.take_append_drop length more).symm, List.length_take_of_le hfits⟩
  exact ⟨⟨nameIndex, name, body, hnamed, hlength⟩, rest, (List.append_assoc ..).symm⟩

theorem incomplete_or_nameless_or_block (pool : Pool) (input : Bytes) :
    Incomplete input ∨ Nameless pool input ∨
      ∃ (block : Block pool) (rest : Bytes), input = block.bytes ++ rest := by
  rcases Nat.lt_or_ge input.length 6 with hlt | hle
  · exact .inl (.inl hlt)
  obtain ⟨nameIndex, length, more, hlength, rfl⟩ := exists_header hle
  cases hnamed : pool.text? nameIndex with
  | none => exact .inr (.inl ⟨nameIndex, length, more, hlength, rfl, hnamed⟩)
  | some name =>
    rcases Nat.lt_or_ge more.length length with hshort | hfits
    · exact .inl (.inr ⟨nameIndex, length, more, hlength, rfl, hshort⟩)
    · exact .inr (.inr (exists_block hnamed hlength hfits))

theorem framed_of_length_lt (h : input.length < 6) :
    ∃ short rest, framed pool contents input = .error (.truncated short) rest := by
  cases hindex : (liftM Reader.u16 : Decoder UInt16) input with
  | error e mid =>
    obtain ⟨short, _, rfl⟩ := read_eq_error_iff.mp hindex
    exact ⟨short, mid, bind_eq_error_iff.mpr (.inl hindex)⟩
  | ok nameIndex mid =>
    cases hlength : (liftM Reader.u32 : Decoder UInt32) mid with
    | error e mid' =>
      obtain ⟨short, _, rfl⟩ := read_eq_error_iff.mp hlength
      exact ⟨short, mid', bind_eq_error_iff.mpr
        (.inr ⟨nameIndex, mid, hindex, bind_eq_error_iff.mpr (.inl hlength)⟩)⟩
    | ok length mid' =>
      -- both numbers together are six bytes long
      obtain rfl := Reader.of_u32_eq_ok (read_eq_ok_iff.mp hlength)
      obtain rfl := Reader.of_u16_eq_ok (read_eq_ok_iff.mp hindex)
      simp only [List.length_append, length_ofNat] at h
      omega

theorem framed_header (nameIndex : UInt16) {length : Nat} (h : length < 0x100000000)
    (more : Bytes) : framed pool contents (header nameIndex length ++ more) =
      ((do
        let name ← pool.requireText .attributeName nameIndex
        let body ← Reader.take length
        contents name.text body) : Decoder α) more := by
  have hcount : (UInt32.ofNat length).toNat = length := UInt32.toNat_ofNat_of_lt' h
  rw [header, List.append_assoc, framed]
  rw [(reads_lift (Reader.reads_u16 nameIndex)).bind_append]
  rw [(reads_lift (Reader.u32_ofNat length)).bind_append, hcount]

/-- Of a block the body is looked into, and what comes behind it is left. -/
theorem framed_block (block : Block pool) (rest : Bytes) :
    framed pool contents (block.bytes ++ rest) =
      (liftM (contents block.name block.body) : Decoder α) rest := by
  have hname : pool.requireText .attributeName block.nameIndex =
      .ok ⟨block.nameIndex, block.name⟩ := Pool.requireText_eq_ok_iff.mpr ⟨rfl, block.named⟩
  rw [Block.bytes, List.append_assoc, framed_header _ block.length_lt, hname]
  exact (reads_lift (Reader.reads_take block.body)).bind_append _ rest

/-- Reading an attribute fails if it is not all there, if its name is not in the pool, or else for
what is in its body, and then all of it has been read. -/
theorem of_framed_eq_error (h : framed pool contents input = .error e rest) :
    (∃ short, e = .truncated short ∧ Incomplete input) ∨
      (∃ nameIndex length, pool.Lacks nameIndex e ∧ input = header nameIndex length ++ rest) ∨
      ∃ block : Block pool, input = block.bytes ++ rest ∧
        contents block.name block.body = .error e := by
  rcases Nat.lt_or_ge input.length 6 with hlt | hle
  · obtain ⟨short, rest', hshort⟩ := framed_of_length_lt hlt
    rw [hshort] at h
    cases h
    exact .inl ⟨short, rfl, .inl hlt⟩
  obtain ⟨nameIndex, length, more, hlength, rfl⟩ := exists_header hle
  cases hname : pool.requireText .attributeName nameIndex with
  | error e' =>
    rw [framed_header _ hlength, hname] at h
    cases h
    exact .inr (.inl ⟨nameIndex, length, Pool.lacks_of_requireText_eq_error hname, rfl⟩)
  | ok name =>
    obtain ⟨rfl, hnamed⟩ := Pool.requireText_eq_ok_iff.mp hname
    rcases Nat.lt_or_ge more.length length with hshort | hfits
    · have htake := (asksFor_take length).error_of_lt hshort
      have hrun : framed pool contents (header name.index length ++ more) =
          .error (.truncated ⟨length, more.length⟩) more := by
        rw [framed_header _ hlength, hname]
        exact bind_eq_error_iff.mpr (.inr ⟨name, more, rfl, bind_eq_error_iff.mpr (.inl htake)⟩)
      rw [hrun] at h
      cases h
      exact .inl ⟨_, rfl, .inr ⟨_, length, _, hlength, rfl, hshort⟩⟩
    · obtain ⟨block, rest', hblock⟩ := exists_block hnamed hlength hfits
      rw [hblock, framed_block, check_eq_error_iff] at h
      obtain ⟨hcontents, rfl⟩ := h
      exact .inr (.inr ⟨block, hblock, hcontents⟩)

theorem isFramed_framed (h : ∀ name body, Settles (contents name body)) :
    IsFramed pool (framed pool contents) where
  outcome block := ⟨contents block.name block.body, framed_block block⟩
  truncated := by
    intro input rest short hrun
    rcases of_framed_eq_error hrun with
      ⟨_, _, hincomplete⟩ | ⟨_, _, hlacks, _⟩ | ⟨block, _, hcontents⟩
    · exact hincomplete
    · exact hlacks.elim
    · exact (h _ _ hcontents).elim

theorem sequential_framed (h : ∀ name body, Settles (contents name body)) :
    Sequential DecodeError.IsSettled (framed pool contents) := by
  refine sequential_u16.bind fun nameIndex ↦ ?_
  refine sequential_u32.bind fun length ↦ ?_
  refine (sequential_check fun e he ↦ Pool.settles_requireText _ _ _ he).bind fun name ↦ ?_
  refine (sequential_take _).bind fun body ↦ ?_
  exact sequential_check fun e he ↦ h _ _ he

end Attribute

end JavaClass
