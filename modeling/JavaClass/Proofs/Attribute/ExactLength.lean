import JavaClass.Proofs.Attribute.Framing

/-!
# Attributes as long as they say

The body of an attribute that is interpreted has to be used up exactly. What happens otherwise
depends on where its contents stop. If they stop before the end of the body, the error has the
length that they have. If they run out of the body, it has the length up to the end of the block
that could not be read, so that it is more than the length of the body. A reference that leads
nowhere counts only if it comes before that.

Code contains attributes, one of which is interpreted in turn. That its contents do not take up its
own body is an error of that attribute, with the length of that body, while an attribute that runs
past the code around it is an error of the code.

## Main statements

* `Attribute.exactly_eq_ok_iff`, `Attribute.exactly_eq_error_iff`: what becomes of contents, by how
  they go together with the body.
* `Code.fault_iff`: the faults in the contents of code.
* `Attribute.decode_exact_length`: all attributes.
-/

namespace JavaClass

open Bytes EStateM Decoder

variable {α β : Type}

namespace Attribute

/-- The contents do not take up the body. -/
inductive Misfit (inner : Decoder α) (body : Bytes) (consumed : Nat) : Prop
  /-- They have been read and are shorter. -/
  | leftOver (used rest : Bytes) (a : α) (hbody : used ++ rest = body) (hreads : Reads inner used a)
    (hconsumed : consumed = used.length) (hlt : consumed < body.length)
  /-- A block is read behind some of the body that goes past its end. -/
  | ranOut (used rest : Bytes) (size : Nat) (hbody : used ++ rest = body)
    (hasks : AsksFor inner used size) (hconsumed : consumed = used.length + size)
    (hlt : body.length < consumed)

/-- There is an index in some of the body that leads nowhere. -/
def Dangles (pool : Pool) (inner : Decoder α) (body : Bytes) (e : DecodeError) : Prop :=
  ∃ used rest index, used ++ rest = body ∧ FailsAfter inner used e ∧ pool.Lacks index e ∧
    ofWord index <:+: used

/-- The contents of the attribute are read by `inner`, and these are the other faults there can be
in them. -/
structure Interprets {pool : Pool} (decoder inner : Decoder α) (block : Block pool)
    (Fault : DecodeError → Prop) : Prop where
  /-- The attribute is accepted if its contents take up its body. -/
  ok_iff : ∀ {rest left a}, decoder (block.bytes ++ rest) = .ok a left ↔
    Reads inner block.body a ∧ left = rest
  /-- It is refused with their length if they do not, unless there is another fault. -/
  error_iff : ∀ {rest left e}, decoder (block.bytes ++ rest) = .error e left ↔
    ((∃ consumed, Misfit inner block.body consumed ∧
      e = .malformedAttribute block.name block.body.length consumed) ∨ Fault e) ∧ left = rest

variable {Fault : DecodeError → Prop} {inner : Decoder α} {name : String} {body : Bytes} {a : α}
  {e : DecodeError} {consumed : Nat}

theorem Misfit.ne (h : Misfit inner body consumed) : consumed ≠ body.length := by
  cases h with
  | leftOver used rest a hbody hreads hconsumed hlt => omega
  | ranOut used rest size hbody hasks hconsumed hlt => omega

theorem not_dangles_malformedAttribute {pool : Pool} {declared : Nat} :
    ¬ Dangles pool inner body (.malformedAttribute name declared consumed) := by
  rintro ⟨used, rest, index, -, -, hlacks, -⟩
  exact hlacks

/-! ## Contents and bodies -/

/-- Contents take up a body, or do not, or there is a fault in them. -/
theorem reads_or_misfit_or_fault (h : Sequential Fault inner) (body : Bytes) :
    (∃ a, Reads inner body a) ∨ (∃ consumed, Misfit inner body consumed) ∨
      ∃ e, Fault e ∧ ∃ used rest, used ++ rest = body ∧ FailsAfter inner used e := by
  cases hrun : inner body with
  | ok a rest =>
    obtain ⟨used, rfl, hreads⟩ := h.ok hrun
    cases rest with
    | nil =>
      rw [List.append_nil]
      exact .inl ⟨a, hreads⟩
    | cons byte rest =>
      refine .inr (.inl ⟨used.length, .leftOver used (byte :: rest) a rfl hreads rfl ?_⟩)
      rw [List.length_append, List.length_cons]
      omega
  | error e rest =>
    obtain ⟨used, rfl, ⟨he, hfails⟩ | ⟨size, hlt, hasks⟩⟩ := h.error hrun
    · exact .inr (.inr ⟨e, he, used, rest, rfl, hfails⟩)
    · refine .inr (.inl ⟨used.length + size, .ranOut used rest size rfl hasks rfl ?_⟩)
      rw [List.length_append]
      omega

theorem exactly_of_misfit (h : Misfit inner body consumed) (name : String) :
    exactly name inner body = .error (.malformedAttribute name body.length consumed) := by
  cases h with
  | leftOver used rest a hbody hreads hconsumed hlt =>
    subst hbody hconsumed
    rw [List.length_append] at hlt
    have hrest : rest ≠ [] := by
      rintro rfl
      exact Nat.lt_irrefl _ hlt
    obtain ⟨byte, rest, rfl⟩ := List.exists_cons_of_ne_nil hrest
    rw [exactly, hreads]
    simp
  | ranOut used rest size hbody hasks hconsumed hlt =>
    subst hbody hconsumed
    rw [List.length_append, Nat.add_lt_add_iff_left] at hlt
    rw [exactly, hasks.error_of_lt hlt]
    simp

theorem exactly_of_failsAfter {used rest : Bytes} (h : FailsAfter inner used e)
    (he : e.IsSettled) (name : String) : exactly name inner (used ++ rest) = .error e := by
  rw [exactly, h]
  cases e with
  | truncated short => exact he.elim
  | _ => rfl

theorem exactly_eq_ok_iff (h : Sequential Fault inner) (hfault : ∀ e, Fault e → e.IsSettled) :
    exactly name inner body = .ok a ↔ Reads inner body a := by
  refine ⟨fun hrun ↦ ?_, fun hreads ↦ exactly_of_reads hreads name⟩
  rcases reads_or_misfit_or_fault h body with
    ⟨b, hreads⟩ | ⟨consumed, hmisfit⟩ | ⟨e, he, used, rest, rfl, hfails⟩
  · rw [exactly_of_reads hreads] at hrun
    cases hrun
    exact hreads
  · rw [exactly_of_misfit hmisfit] at hrun
    cases hrun
  · rw [exactly_of_failsAfter hfails (hfault e he)] at hrun
    cases hrun

theorem exactly_eq_error_iff (h : Sequential Fault inner) (hfault : ∀ e, Fault e → e.IsSettled) :
    exactly name inner body = .error e ↔
      (∃ consumed, Misfit inner body consumed ∧ e = .malformedAttribute name body.length consumed) ∨
      Fault e ∧ ∃ used rest, used ++ rest = body ∧ FailsAfter inner used e := by
  constructor
  · intro hrun
    rcases reads_or_misfit_or_fault h body with
      ⟨a, hreads⟩ | ⟨consumed, hmisfit⟩ | ⟨e', he, used, rest, rfl, hfails⟩
    · rw [exactly_of_reads hreads] at hrun
      cases hrun
    · rw [exactly_of_misfit hmisfit] at hrun
      cases hrun
      exact .inl ⟨consumed, hmisfit, rfl⟩
    · rw [exactly_of_failsAfter hfails (hfault e' he)] at hrun
      cases hrun
      exact .inr ⟨he, used, rest, rfl, hfails⟩
  · rintro (⟨consumed, hmisfit, rfl⟩ | ⟨he, used, rest, rfl, hfails⟩)
    · exact exactly_of_misfit hmisfit name
    · exact exactly_of_failsAfter hfails (hfault e he) name

theorem exactly_map (f : α → β) (name : String) (inner : Decoder α) (body : Bytes) :
    exactly name (f <$> inner) body = f <$> exactly name inner body := by
  rw [exactly, exactly, map_apply]
  cases inner body with
  | ok a rest => cases rest <;> rfl
  | error e rest => cases e <;> rfl

theorem interprets_of_exactly {pool : Pool} {decoder : Decoder α} {block : Block pool}
    (hdecoder : ∀ rest, decoder (block.bytes ++ rest) =
      (liftM (exactly block.name inner block.body) : Decoder α) rest)
    (h : Sequential Fault inner) (hfault : ∀ e, Fault e → e.IsSettled) :
    Interprets decoder inner block fun e ↦
      Fault e ∧ ∃ used rest, used ++ rest = block.body ∧ FailsAfter inner used e where
  ok_iff := by
    intro rest left a
    rw [hdecoder, check_eq_ok_iff, exactly_eq_ok_iff h hfault]
  error_iff := by
    intro rest left e
    rw [hdecoder, check_eq_error_iff, exactly_eq_error_iff h hfault]

end Attribute

open Attribute

/-! ## Code -/

theorem LineNumber.sequential_decode {Fault : DecodeError → Prop} :
    Sequential Fault (liftM LineNumber.decode : Decoder LineNumber) :=
  sequential_lift_bind sequential_u16 fun _ ↦ sequential_lift_bind sequential_u16 fun _ ↦
    sequential_pure _

theorem ExceptionEntry.sequential_decode {Fault : DecodeError → Prop} :
    Sequential Fault (liftM ExceptionEntry.decode : Decoder ExceptionEntry) :=
  sequential_lift_bind sequential_u16 fun _ ↦ sequential_lift_bind sequential_u16 fun _ ↦
    sequential_lift_bind sequential_u16 fun _ ↦ sequential_lift_bind sequential_u16 fun _ ↦
      sequential_pure _

namespace CodeAttribute

/-- Reads the contents of a line number table. -/
def decodeLines : Decoder CodeAttribute :=
  lineNumberTable <$> Decoder.counted fun _ ↦ LineNumber.decode

theorem sequential_decodeLines {Fault : DecodeError → Prop} : Sequential Fault decodeLines :=
  (sequential_counted fun _ ↦ LineNumber.sequential_decode).map _

variable {pool : Pool} {name : String} {body : Bytes} {e : DecodeError}

theorem contents_lineNumberTable (body : Bytes) :
    contents "LineNumberTable" body = exactly "LineNumberTable" decodeLines body := by
  rw [contents, if_pos rfl, decodeLines, exactly_map]

theorem interprets_lineNumberTable {block : Block pool} (h : block.name = "LineNumberTable") :
    Interprets (decode pool) decodeLines block fun _ ↦ False := by
  have hdecode : ∀ rest, decode pool (block.bytes ++ rest) =
      (liftM (exactly block.name decodeLines block.body) : Decoder CodeAttribute) rest := by
    intro rest
    rw [decode, framed_block, h, contents_lineNumberTable]
  have hfault : ∀ e : DecodeError, False → e.IsSettled := fun _ ↦ False.elim
  simpa using interprets_of_exactly hdecode sequential_decodeLines hfault

/-- An attribute of code that is there is refused only if it is interpreted. -/
theorem contents_eq_error_iff : contents name body = .error e ↔ name = "LineNumberTable" ∧
    ∃ consumed, Misfit decodeLines body consumed ∧
      e = .malformedAttribute name body.length consumed := by
  by_cases hname : name = "LineNumberTable"
  · subst hname
    have hlines : Sequential (fun _ ↦ False) decodeLines := sequential_decodeLines
    rw [contents_lineNumberTable, exactly_eq_error_iff hlines fun _ ↦ False.elim]
    simp
  · rw [contents, if_neg hname]
    split <;> simp [hname]

end CodeAttribute

namespace Code

variable (pool : Pool) {body : Bytes} {e : DecodeError}

/-- Some of the body of the code is an attribute of code that is interpreted, and whose contents do
not take up its own body. -/
def NestedMisfit (body : Bytes) (e : DecodeError) : Prop :=
  ∃ (before : Bytes) (nested : Block pool) (after : Bytes) (consumed : Nat),
    before ++ nested.bytes ++ after = body ∧
    GoesOnWith (decode pool) before (CodeAttribute.decode pool) ∧
    nested.name = "LineNumberTable" ∧
    Misfit CodeAttribute.decodeLines nested.body consumed ∧
    e = .malformedAttribute nested.name nested.body.length consumed

theorem sequential_decode : Sequential DecodeError.IsSettled (decode pool) := by
  refine sequential_u16.bind fun maxStack ↦ ?_
  refine sequential_u16.bind fun maxLocals ↦ ?_
  refine sequential_u32.bind fun length ↦ ?_
  refine (sequential_take _).bind fun instructions ↦ ?_
  refine (sequential_counted fun _ ↦ ExceptionEntry.sequential_decode).bind fun exceptions ↦ ?_
  refine (sequential_counted fun _ ↦
    sequential_framed CodeAttribute.settles_contents).bind fun attributes ↦ ?_
  exact sequential_pure _

theorem faultsIn_decode : FaultsIn (decode pool) (CodeAttribute.decode pool) := by
  refine (faultsIn_read _ _).bind sequential_u16 fun maxStack ↦ ?_
  refine (faultsIn_read _ _).bind sequential_u16 fun maxLocals ↦ ?_
  refine (faultsIn_read _ _).bind sequential_u32 fun length ↦ ?_
  refine (faultsIn_read _ _).bind (sequential_take _) fun instructions ↦ ?_
  refine (faultsIn_counted (fun _ ↦ faultsIn_read _ _) fun _ ↦
    ExceptionEntry.sequential_decode).bind (sequential_counted fun _ ↦
      ExceptionEntry.sequential_decode) fun exceptions ↦ ?_
  -- everything up to here only reads
  refine (faultsIn_counted (fun _ ↦ faultsIn_self _) fun _ ↦
    sequential_framed CodeAttribute.settles_contents).bind (sequential_counted fun _ ↦
      sequential_framed CodeAttribute.settles_contents) fun attributes ↦ ?_
  exact faultsIn_pure _ _

/-- A fault in the contents of code is either a constant that is missing, or it is one of an
attribute of the code. -/
theorem fault_iff : (e.IsSettled ∧ ∃ used rest, used ++ rest = body ∧
      FailsAfter (decode pool) used e) ↔
    Dangles pool (decode pool) body e ∨ NestedMisfit pool body e := by
  constructor
  · rintro ⟨he, used, rest, rfl, hfails⟩
    -- the attribute of the code at which the run has stopped
    obtain ⟨before, mid, hmid, hgoes, hpart⟩ := faultsIn_decode pool (hfails rest) he
    rcases of_framed_eq_error hpart with
      ⟨short, rfl, _⟩ | ⟨index, length, hlacks, rfl⟩ | ⟨nested, rfl, hcontents⟩
    · exact he.elim
    · have hused : before ++ header index length = used := by
        rwa [← List.append_assoc, List.append_cancel_right_eq] at hmid
      exact .inl ⟨used, rest, index, rfl, hfails, hlacks,
        before, ofNat 4 length, by rw [← hused, header, List.append_assoc]⟩
    · obtain ⟨hname, consumed, hmisfit, rfl⟩ := CodeAttribute.contents_eq_error_iff.mp hcontents
      rw [← List.append_assoc] at hmid
      exact .inr ⟨before, nested, rest, consumed, hmid, hgoes, hname, hmisfit, rfl⟩
  · rintro (⟨used, rest, index, rfl, hfails, hlacks, _⟩ |
      ⟨before, nested, after, consumed, rfl, hgoes, hname, hmisfit, rfl⟩)
    · exact ⟨hlacks.isSettled, used, rest, rfl, hfails⟩
    · have hcontents := CodeAttribute.contents_eq_error_iff.mpr ⟨hname, consumed, hmisfit, rfl⟩
      have hpart : FailsAfter (CodeAttribute.decode pool) nested.bytes _ := fun more ↦ by
        rw [CodeAttribute.decode, framed_block, check_eq_error_iff]
        exact ⟨hcontents, rfl⟩
      exact ⟨trivial, before ++ nested.bytes, after, rfl, hgoes.failsAfter hpart⟩

end Code

/-! ## Declarations -/

namespace KnownAttribute

variable {pool : Pool} {known : KnownAttribute} {input body rest : Bytes} {e : DecodeError}

theorem sequential_decode (pool : Pool) (known : KnownAttribute) :
    Sequential DecodeError.IsSettled (known.decode pool) := by
  have hcheck {γ : Type} {check : Except DecodeError γ} (h : Settles check) :
      Sequential DecodeError.IsSettled (liftM check : Decoder γ) :=
    sequential_check fun e he ↦ h he
  cases known with
  | sourceFile =>
    exact sequential_u16.bind fun index ↦
      (hcheck (Pool.settles_requireText ..)).bind fun name ↦ sequential_pure _
  | deprecated => exact sequential_pure _
  | signature =>
    exact sequential_u16.bind fun index ↦
      (hcheck (Pool.settles_requireText ..)).bind fun text ↦ sequential_pure _
  | constantValue =>
    exact sequential_u16.bind fun index ↦
      (hcheck (Pool.settles_require ..)).bind fun value ↦ sequential_pure _
  | code => exact (Code.sequential_decode pool).map _

theorem of_reference_eq_error {check : UInt16 → Except DecodeError α} {f : UInt16 → α → β}
    (h : ((do
      let index ← Reader.u16
      let a ← check index
      return f index a) : Decoder β) input = .error e rest) :
    (∃ short, e = .truncated short) ∨ ∃ index, check index = .error e ∧
      input = ofWord index ++ rest := by
  rcases bind_eq_error_iff.mp h with hindex | ⟨index, mid, hindex, hfollow⟩
  · obtain ⟨short, _, rfl⟩ := read_eq_error_iff.mp hindex
    exact .inl ⟨short, rfl⟩
  · obtain rfl := Reader.of_u16_eq_ok (read_eq_ok_iff.mp hindex)
    rcases bind_eq_error_iff.mp hfollow with hfollow | ⟨a, mid, _, ⟨⟩⟩
    obtain ⟨hcheck, rfl⟩ := check_eq_error_iff.mp hfollow
    exact .inr ⟨index, hcheck, rfl⟩

theorem of_decode_eq_error (h : known ≠ .code) (hrun : known.decode pool input = .error e rest) :
    (∃ short, e = .truncated short) ∨ ∃ index, pool.Lacks index e ∧
      input = ofWord index ++ rest := by
  cases known with
  | sourceFile =>
    exact (of_reference_eq_error hrun).imp_right fun ⟨index, hcheck, hinput⟩ ↦
      ⟨index, Pool.lacks_of_requireText_eq_error hcheck, hinput⟩
  | deprecated => cases hrun
  | signature =>
    exact (of_reference_eq_error hrun).imp_right fun ⟨index, hcheck, hinput⟩ ↦
      ⟨index, Pool.lacks_of_requireText_eq_error hcheck, hinput⟩
  | constantValue =>
    exact (of_reference_eq_error hrun).imp_right fun ⟨index, hcheck, hinput⟩ ↦
      ⟨index, Pool.lacks_of_requireValue_eq_error hcheck, hinput⟩
  | code => exact absurd rfl h

theorem fault_iff : (e.IsSettled ∧ ∃ used rest, used ++ rest = body ∧
      FailsAfter (known.decode pool) used e) ↔
    Dangles pool (known.decode pool) body e ∨ known = .code ∧ Code.NestedMisfit pool body e := by
  by_cases hcode : known = .code
  · subst hcode
    simpa only [decode, Dangles, failsAfter_map_iff, true_and] using Code.fault_iff pool
  simp only [hcode, false_and, or_false]
  constructor
  · rintro ⟨he, used, rest, rfl, hfails⟩
    rcases of_decode_eq_error hcode (hfails rest) with ⟨short, rfl⟩ | ⟨index, hlacks, hinput⟩
    · exact he.elim
    · obtain rfl := List.append_cancel_right hinput
      exact ⟨_, rest, index, rfl, hfails, hlacks, List.infix_rfl⟩
  · rintro ⟨used, rest, index, rfl, hfails, hlacks, _⟩
    exact ⟨hlacks.isSettled, used, rest, rfl, hfails⟩

end KnownAttribute

namespace Attribute

variable {pool : Pool} {owner : Declaration} {known : KnownAttribute} {input rest : Bytes}
  {name : String} {declared consumed : Nat}

theorem interprets_known {block : Block pool}
    (h : KnownAttribute.ofName? owner block.name = some known) :
    Interprets (decode pool owner) (known.decode pool) block fun e ↦
      Dangles pool (known.decode pool) block.body e ∨
        known = .code ∧ Code.NestedMisfit pool block.body e := by
  have hdecode : ∀ rest, decode pool owner (block.bytes ++ rest) =
      (liftM (exactly block.name (known.decode pool) block.body) : Decoder Attribute) rest := by
    intro rest
    rw [decode, framed_block, contents, h]
  simpa only [KnownAttribute.fault_iff] using
    interprets_of_exactly hdecode (KnownAttribute.sequential_decode pool known) fun _ ↦ id

/-- Contents are never reported to be as long as the body that they do not take up. -/
theorem consumed_ne_of_decode
    (h : decode pool owner input = .error (.malformedAttribute name declared consumed) rest) :
    consumed ≠ declared := by
  rcases of_framed_eq_error h with ⟨_, ⟨⟩, _⟩ | ⟨_, _, hlacks, _⟩ | ⟨block, rfl, hcontents⟩
  · exact hlacks.elim
  cases hknown : KnownAttribute.ofName? owner block.name with
  | none =>
    rw [contents, hknown] at hcontents
    cases hcontents
  | some known =>
    obtain ⟨hfault, _⟩ := (interprets_known hknown).error_iff.mp h
    obtain ⟨_, hmisfit, ⟨⟩⟩ | hdangles | ⟨_, _, _, _, _, _, _, _, hmisfit, ⟨⟩⟩ := hfault
    · exact hmisfit.ne
    · exact absurd hdangles not_dangles_malformedAttribute
    · exact hmisfit.ne

end Attribute

theorem CodeAttribute.consumed_ne_of_decode {pool : Pool} {input rest : Bytes} {name : String}
    {declared consumed : Nat}
    (h : decode pool input = .error (.malformedAttribute name declared consumed) rest) :
    consumed ≠ declared := by
  rcases of_framed_eq_error h with ⟨_, ⟨⟩, _⟩ | ⟨_, _, hlacks, _⟩ | ⟨block, rfl, hcontents⟩
  · exact hlacks.elim
  · obtain ⟨_, _, hmisfit, ⟨⟩⟩ := contents_eq_error_iff.mp hcontents
    exact hmisfit.ne

namespace Attribute

/-- **Attributes are as long as they say.** Where a header with a name that can be looked up and the
body that it announces are all there, they are read as if nothing came behind them, and what does is
left; more input is asked for only where they are not all there. If the attribute is interpreted, it
is accepted just if its contents take up the body. Otherwise, if no reference before has led
nowhere, the error has the length of the body that the contents do not take up, be it that of an
attribute of code, and the length of the contents, which is another. -/
theorem decode_exact_length (pool : Pool) :
    (∀ input, Incomplete input ∨ Nameless pool input ∨
      ∃ (block : Block pool) (rest : Bytes), input = block.bytes ++ rest) ∧
    (∀ owner, IsFramed pool (decode pool owner)) ∧
    IsFramed pool (CodeAttribute.decode pool) ∧
    (∀ owner (block : Block pool) known, KnownAttribute.ofName? owner block.name = some known →
      Interprets (decode pool owner) (known.decode pool) block fun e ↦
        Dangles pool (known.decode pool) block.body e ∨
          known = .code ∧ Code.NestedMisfit pool block.body e) ∧
    (∀ block : Block pool, block.name = "LineNumberTable" →
      Interprets (CodeAttribute.decode pool) CodeAttribute.decodeLines block fun _ ↦ False) ∧
    (∀ owner input rest name declared consumed,
      decode pool owner input = .error (.malformedAttribute name declared consumed) rest →
        consumed ≠ declared) ∧
    ∀ input rest name declared consumed,
      CodeAttribute.decode pool input = .error (.malformedAttribute name declared consumed) rest →
        consumed ≠ declared :=
  ⟨incomplete_or_nameless_or_block pool,
    fun owner ↦ isFramed_framed (settles_contents pool owner),
    isFramed_framed CodeAttribute.settles_contents,
    fun _ _ _ hknown ↦ interprets_known hknown,
    fun _ hname ↦ CodeAttribute.interprets_lineNumberTable hname,
    fun _ _ _ _ _ _ h ↦ consumed_ne_of_decode h,
    fun _ _ _ _ _ h ↦ CodeAttribute.consumed_ne_of_decode h⟩

/-- A pool with names of attributes, and one more name. -/
def namesPool : Pool :=
  ⟨#[none, some (utf8 "Code"), some (utf8 "LineNumberTable"), some (utf8 "SourceFile")]⟩
where
  utf8 (text : String) : Constant := .utf8 text.toUTF8.data.toList text

/-- A line number table that announces two entries and has but one. -/
def shortTable : Block namesPool := ⟨2, "LineNumberTable", [0, 2, 0, 0, 0, 1], by decide, by decide⟩

/-- Code without instructions and with one attribute. -/
def codeAround (nested : Bytes) : Bytes := [0, 0, 0, 0, 0, 0, 0, 0, 0, 0, 0, 1] ++ nested

/-- Code with this line number table. -/
def tableInCode : Block namesPool := ⟨1, "Code", codeAround shortTable.bytes, by decide, by decide⟩

/-- Code that ends one byte before its line number table does. -/
def cutCode : Block namesPool :=
  ⟨1, "Code", codeAround (shortTable.bytes.take 11), by decide, by decide⟩

/-- The name of a source file, and one byte more. -/
def longSource : Block namesPool := ⟨3, "SourceFile", [0, 3, 0], by decide, by decide⟩

/-- Contents that run out of their own body count for the table, also in code; a table that is cut
off with the code around it counts for the code; and bytes that are left over count as well. What is
behind the attribute is left each time. -/
theorem decode_exact_length_nested :
    (CodeAttribute.decode namesPool (shortTable.bytes ++ [7]) =
        .error (.malformedAttribute "LineNumberTable" 6 8) [7] ∧
      Misfit CodeAttribute.decodeLines shortTable.body 8) ∧
    (decode namesPool .method (tableInCode.bytes ++ [7]) =
        .error (.malformedAttribute "LineNumberTable" 6 8) [7] ∧
      Code.NestedMisfit namesPool tableInCode.body (.malformedAttribute "LineNumberTable" 6 8)) ∧
    (decode namesPool .method (cutCode.bytes ++ [7]) =
        .error (.malformedAttribute "Code" 23 24) [7] ∧
      Misfit (KnownAttribute.code.decode namesPool) cutCode.body 24 ∧ 24 ≠ 23) ∧
    (decode namesPool .classFile (longSource.bytes ++ [7]) =
        .error (.malformedAttribute "SourceFile" 3 2) [7] ∧
      Misfit (KnownAttribute.sourceFile.decode namesPool) longSource.body 2) := by
  obtain ⟨_, _, _, hknown, hlines, hne, _⟩ := decode_exact_length namesPool
  have htable : CodeAttribute.decode namesPool (shortTable.bytes ++ [7]) =
      .error (.malformedAttribute "LineNumberTable" 6 8) [7] := by rfl
  have hcode : decode namesPool .method (tableInCode.bytes ++ [7]) =
      .error (.malformedAttribute "LineNumberTable" 6 8) [7] := by rfl
  have hcut : decode namesPool .method (cutCode.bytes ++ [7]) =
      .error (.malformedAttribute "Code" 23 24) [7] := by rfl
  have hlong : decode namesPool .classFile (longSource.bytes ++ [7]) =
      .error (.malformedAttribute "SourceFile" 3 2) [7] := by rfl
  refine ⟨⟨htable, ?_⟩, ⟨hcode, ?_⟩, ⟨hcut, ?_, hne _ _ _ _ _ _ hcut⟩, hlong, ?_⟩
  · obtain ⟨_, hmisfit, hreport⟩ | ⟨⟨⟩⟩ := ((hlines shortTable rfl).error_iff.mp htable).1
    obtain ⟨_, _, rfl⟩ := DecodeError.malformedAttribute.inj hreport
    exact hmisfit
  · obtain ⟨_, _, hreport⟩ | hdangles | ⟨_, hnested⟩ :=
      ((hknown .method tableInCode .code rfl).error_iff.mp hcode).1
    · exact absurd (DecodeError.malformedAttribute.inj hreport).1 (by decide)
    · exact absurd hdangles not_dangles_malformedAttribute
    · exact hnested
  · obtain ⟨_, hmisfit, hreport⟩ | hdangles | ⟨_, _, nested, _, _, _, _, hname, _, hreport⟩ :=
      ((hknown .method cutCode .code rfl).error_iff.mp hcut).1
    · obtain ⟨_, _, rfl⟩ := DecodeError.malformedAttribute.inj hreport
      exact hmisfit
    · exact absurd hdangles not_dangles_malformedAttribute
    · rw [hname] at hreport
      exact absurd (DecodeError.malformedAttribute.inj hreport).1 (by decide)
  · obtain ⟨_, hmisfit, hreport⟩ | hdangles | ⟨⟨⟩, _⟩ :=
      ((hknown .classFile longSource .sourceFile rfl).error_iff.mp hlong).1
    · obtain ⟨_, _, rfl⟩ := DecodeError.malformedAttribute.inj hreport
      exact hmisfit
    · exact absurd hdangles not_dangles_malformedAttribute

end Attribute

end JavaClass
