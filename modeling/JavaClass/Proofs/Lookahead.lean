import JavaClass.ClassFile.Decode
import JavaClass.Proofs.Run

/-!
# Decoding without looking ahead

A decoder is *incremental* if it decides by the bytes that it has read. What it makes of an input
it then makes of every longer one, and the bytes that were added are left over. Only an input that
ends too early decides nothing: with more bytes anything can still come of it.

Incremental decoders are closed under everything that decoders are made of: sequencing, checks that
read nothing, counted repetition, and attributes, whose bodies are split off by their length. A
body that is too short for its contents is wrong whatever follows, which is why running out of it
must not be reported as running out of the input. All parts of a class file together are therefore
incremental, and what is left for reading a whole file is the test that nothing follows.

## Main statements

* `ClassFile.incremental_decodeParts`: the parts of a class file are read without looking ahead.
* `ClassFile.decode_without_lookahead`: what follows from it for files with something behind them,
  for files that are cut short, and for several files one after the other.
-/

namespace JavaClass

variable {α β : Type}

/-! ## Readers -/

namespace Reader

/-- What the reader takes off the front of an input, it takes off every longer one. -/
def Incremental (read : Reader α) : Prop :=
  ∀ ⦃input rest : Bytes⦄ ⦃a : α⦄, read input = .ok a rest →
    ∀ more, read (input ++ more) = .ok a (rest ++ more)

theorem incremental_pure (a : α) : Incremental (pure a) := by
  rintro input _ _ ⟨⟩ more
  rfl

theorem Incremental.bind {read : Reader α} {next : α → Reader β} (h : Incremental read)
    (hnext : ∀ a, Incremental (next a)) : Incremental (read >>= next) := by
  intro input rest b hrun more
  obtain ⟨a, mid, hread, hrest⟩ := EStateM.bind_eq_ok_iff.mp hrun
  exact EStateM.bind_eq_ok_iff.mpr ⟨a, mid ++ more, h hread more, hnext a hrest more⟩

theorem Incremental.map {read : Reader α} (h : Incremental read) (f : α → β) :
    Incremental (f <$> read) := by
  intro input rest b hrun more
  obtain ⟨a, hread, rfl⟩ := EStateM.map_eq_ok_iff.mp hrun
  exact EStateM.map_eq_ok_iff.mpr ⟨a, h hread more, rfl⟩

theorem incremental_take (n : Nat) : Incremental (take n) := by
  intro input rest block hrun more
  rcases Nat.lt_or_ge input.length n with hlt | hle
  · rw [take_of_lt hlt] at hrun
    cases hrun
  · rw [take_of_le hle] at hrun
    cases hrun
    rw [take_of_le (by rw [List.length_append]; omega), List.take_append_of_le_length hle,
      List.drop_append_of_le_length hle]

theorem incremental_number (width : Nat) : Incremental (number width) :=
  (incremental_take width).map _

theorem incremental_u8 : Incremental u8 := (incremental_number 1).map _

theorem incremental_u16 : Incremental u16 := (incremental_number 2).map _

theorem incremental_u32 : Incremental u32 := (incremental_number 4).map _

theorem incremental_i32 : Incremental i32 := (incremental_number 4).map _

theorem incremental_i64 : Incremental i64 := (incremental_number 8).map _

end Reader

open Reader

/-! ## Decoders -/

/-- Whether the bytes up to the fault settle an error. -/
def DecodeError.IsSettled : DecodeError → Prop
  | badMagic _ | unsupportedTag .. | danglingReference .. | malformedAttribute .. => True
  | truncated _ | trailingBytes _ => False

/-- The decoder decides by the bytes that it has read. -/
structure Decoder.Incremental (decoder : Decoder α) : Prop where
  /-- What has been decoded does not depend on what comes after it. -/
  ok_append : ∀ {input rest a}, decoder input = .ok a rest →
    ∀ more, decoder (input ++ more) = .ok a (rest ++ more)
  /-- Neither does a fault. -/
  error_append : ∀ {input rest e}, decoder input = .error e rest → e.IsSettled →
    ∀ more, decoder (input ++ more) = .error e (rest ++ more)
  /-- A failure without a fault is a lack of bytes. -/
  settled_or_truncated : ∀ {input rest e}, decoder input = .error e rest →
    e.IsSettled ∨ ∃ short, e = .truncated short

/-- If the check fails, then because of a fault. -/
def Settles (check : Except DecodeError α) : Prop := ∀ ⦃e⦄, check = .error e → e.IsSettled

namespace Decoder

theorem incremental_pure (a : α) : Incremental (pure a) where
  ok_append := by rintro input _ _ ⟨⟩ more; rfl
  error_append := by rintro input _ _ ⟨⟩
  settled_or_truncated := by rintro input _ _ ⟨⟩

theorem Incremental.bind {decoder : Decoder α} {next : α → Decoder β} (h : Incremental decoder)
    (hnext : ∀ a, Incremental (next a)) : Incremental (decoder >>= next) where
  ok_append := by
    intro input rest b hrun more
    obtain ⟨a, mid, hfirst, hsecond⟩ := EStateM.bind_eq_ok_iff.mp hrun
    exact EStateM.bind_eq_ok_iff.mpr
      ⟨a, mid ++ more, h.ok_append hfirst more, (hnext a).ok_append hsecond more⟩
  error_append := by
    intro input rest e hrun he more
    refine EStateM.bind_eq_error_iff.mpr ?_
    rcases EStateM.bind_eq_error_iff.mp hrun with hfirst | ⟨a, mid, hfirst, hsecond⟩
    · exact .inl (h.error_append hfirst he more)
    · exact .inr ⟨a, mid ++ more, h.ok_append hfirst more,
        (hnext a).error_append hsecond he more⟩
  settled_or_truncated := by
    intro input rest e hrun
    rcases EStateM.bind_eq_error_iff.mp hrun with hfirst | ⟨a, mid, _, hsecond⟩
    · exact h.settled_or_truncated hfirst
    · exact (hnext a).settled_or_truncated hsecond

theorem Incremental.map {decoder : Decoder α} (h : Incremental decoder) (f : α → β) :
    Incremental (f <$> decoder) := by
  rw [map_eq_pure_bind]
  exact h.bind fun a ↦ incremental_pure _

theorem read_eq_ok_iff {read : Reader α} {input rest : Bytes} {a : α} :
    (liftM read : Decoder α) input = .ok a rest ↔ read input = .ok a rest := by
  change EStateM.adaptExcept _ read input = _ ↔ _
  rw [EStateM.adaptExcept]
  cases read input <;> simp

theorem read_eq_error_iff {read : Reader α} {input rest : Bytes} {e : DecodeError} :
    (liftM read : Decoder α) input = .error e rest ↔
      ∃ short, read input = .error short rest ∧ e = .truncated short := by
  change EStateM.adaptExcept _ read input = _ ↔ _
  rw [EStateM.adaptExcept]
  cases read input with
  | ok a mid => simp
  | error short mid =>
    constructor
    · rintro ⟨⟩
      exact ⟨short, rfl, rfl⟩
    · rintro ⟨_, ⟨⟩, rfl⟩
      rfl

theorem check_apply (check : Except DecodeError α) (input : Bytes) :
    (liftM check : Decoder α) input =
      match check with
      | .ok a => .ok a input
      | .error e => .error e input := by
  cases check <;> rfl

theorem check_eq_ok_iff {check : Except DecodeError α} {input rest : Bytes} {a : α} :
    (liftM check : Decoder α) input = .ok a rest ↔ check = .ok a ∧ rest = input := by
  rw [check_apply]
  cases check with
  | ok b => simp [eq_comm]
  | error e => simp

theorem check_eq_error_iff {check : Except DecodeError α} {input rest : Bytes}
    {e : DecodeError} :
    (liftM check : Decoder α) input = .error e rest ↔ check = .error e ∧ rest = input := by
  rw [check_apply]
  cases check with
  | ok b => simp
  | error e => simp [eq_comm]

/-- A read fails only for a lack of bytes, and that decides nothing. -/
theorem incremental_read {read : Reader α} (h : Reader.Incremental read) :
    Incremental (liftM read) where
  ok_append := by
    intro input rest a hrun more
    exact read_eq_ok_iff.mpr (h (read_eq_ok_iff.mp hrun) more)
  error_append := by
    intro input rest e hrun he
    obtain ⟨short, _, rfl⟩ := read_eq_error_iff.mp hrun
    exact he.elim
  settled_or_truncated := by
    intro input rest e hrun
    obtain ⟨short, _, rfl⟩ := read_eq_error_iff.mp hrun
    exact .inr ⟨short, rfl⟩

/-- A check reads nothing, so the input makes no difference to it. -/
theorem incremental_check {check : Except DecodeError α} (h : Settles check) :
    Incremental (liftM check) where
  ok_append := by
    intro input rest a hrun more
    obtain ⟨hcheck, rfl⟩ := check_eq_ok_iff.mp hrun
    exact check_eq_ok_iff.mpr ⟨hcheck, rfl⟩
  error_append := by
    intro input rest e hrun _ more
    obtain ⟨hcheck, rfl⟩ := check_eq_error_iff.mp hrun
    exact check_eq_error_iff.mpr ⟨hcheck, rfl⟩
  settled_or_truncated := by
    intro input rest e hrun
    exact .inl (h (check_eq_error_iff.mp hrun).1)

theorem incremental_throw {e : DecodeError} (h : e.IsSettled) :
    Incremental (throw e : Decoder α) where
  ok_append := by rintro input _ _ ⟨⟩
  error_append := by rintro input _ _ ⟨⟩ _ more; rfl
  settled_or_truncated := by rintro input _ _ ⟨⟩; exact .inl h

theorem incremental_collect {item : Nat → Decoder α} (h : ∀ position, Incremental (item position)) :
    ∀ (n : Nat) (done : Array α), Incremental (collect item done n)
  | 0, done => incremental_pure done
  | n + 1, done => (h done.size).bind fun next ↦ incremental_collect h n (done.push next)

theorem incremental_counted {item : Nat → Decoder α}
    (h : ∀ position, Incremental (item position)) : Incremental (counted item) := by
  refine (incremental_read incremental_u16).bind fun count ↦ ?_
  exact (incremental_collect h count.toNat #[]).bind fun items ↦ incremental_pure _

end Decoder

open Decoder

/-! ## The constant pool -/

theorem Settles.map {check : Except DecodeError α} (h : Settles check) (f : α → β) :
    Settles (f <$> check) := by
  intro e he
  cases check with
  | ok a => cases he
  | error e' => cases he; exact h rfl

theorem Settles.bind {check : Except DecodeError α} {next : α → Except DecodeError β}
    (h : Settles check) (hnext : ∀ a, Settles (next a)) : Settles (check >>= next) := by
  intro e he
  cases check with
  | ok a => exact hnext a he
  | error e' => cases he; exact h rfl

theorem settles_ok (a : α) : Settles (.ok a : Except DecodeError α) := by
  rintro e ⟨⟩

theorem settles_foldlM {f : β → α → Except DecodeError β} (h : ∀ b a, Settles (f b a)) :
    ∀ (items : List α) (init : β), Settles (items.foldlM f init)
  | [], init => settles_ok init
  | a :: items, init => (h init a).bind fun next ↦ settles_foldlM h items next

namespace Pool

theorem settles_require (pool : Pool) (expected : Expectation) (view : Constant → Option α)
    (referrer : Referrer) (index : UInt16) :
    Settles (pool.require expected view referrer index) := by
  intro e he
  rw [require] at he
  split at he
  · cases he
  · cases he
    trivial

theorem settles_requireText (pool : Pool) (referrer : Referrer) (index : UInt16) :
    Settles (pool.requireText referrer index) :=
  (pool.settles_require _ _ referrer index).map _

theorem settles_requireClass (pool : Pool) (referrer : Referrer) (index : UInt16) :
    Settles (pool.requireClass referrer index) :=
  (pool.settles_require _ _ referrer index).map _

end Pool

open Pool

namespace RawConstant

theorem incremental_payload (tag : Tag) : Reader.Incremental (payload tag) := by
  cases tag with
  | utf8 => exact incremental_u16.bind fun length ↦ (incremental_take _).map _
  | integer => exact incremental_i32.map _
  | long => exact incremental_i64.map _
  | string => exact incremental_u16.map _
  | classRef => exact incremental_u16.map _
  | nameAndType =>
    exact incremental_u16.bind fun name ↦ incremental_u16.bind fun descriptor ↦
      Reader.incremental_pure _
  | member kind =>
    exact incremental_u16.bind fun owner ↦ incremental_u16.bind fun description ↦
      Reader.incremental_pure _
  | unsupported kind => exact (incremental_take _).map _

theorem incremental_decode (index : UInt16) : Incremental (decode index) := by
  refine (incremental_read incremental_u8).bind fun byte ↦ ?_
  cases Tag.ofByte? byte with
  | some tag => exact incremental_read (incremental_payload tag)
  | none => exact incremental_throw trivial

theorem settles_resolve (pool : Pool) (index : UInt16) (c : RawConstant) :
    Settles (c.resolve pool index) := by
  cases c with
  | utf8 bytes => exact settles_ok _
  | integer value => exact settles_ok _
  | long value => exact settles_ok _
  | unsupported kind payload => exact settles_ok _
  | string text => exact (settles_requireText ..).bind fun text ↦ settles_ok _
  | classRef name => exact (settles_requireText ..).bind fun name ↦ settles_ok _
  | nameAndType name descriptor =>
    exact (settles_requireText ..).bind fun name ↦
      (settles_requireText ..).bind fun descriptor ↦ settles_ok _
  | member kind owner description =>
    exact (settles_requireClass ..).bind fun owner ↦
      (settles_require ..).bind fun names ↦ settles_ok _

end RawConstant

namespace RawPool

theorem incremental_scanFrom (table : RawPool) (n : Nat) : Incremental (scanFrom table n) := by
  fun_induction scanFrom table n with
  | case1 table => exact incremental_pure table
  | case2 table =>
    exact (RawConstant.incremental_decode _).bind fun c ↦ incremental_pure _
  | case3 table n ihwide ihnarrow =>
    refine (RawConstant.incremental_decode _).bind fun c ↦ ?_
    -- how many slots are left depends on what has been read
    split
    · exact ihwide c
    · exact ihnarrow c

theorem settles_settle (table : RawPool) (pool : Pool) (round : Round) :
    Settles (table.settle pool round) := by
  refine settles_foldlM (fun pool entry ↦ ?_) _ _
  exact (RawConstant.settles_resolve pool entry.1 entry.2).bind fun c ↦ settles_ok _

theorem settles_resolve (table : RawPool) : Settles table.resolve :=
  settles_foldlM table.settles_settle _ _

end RawPool

theorem Pool.incremental_decode (count : UInt16) : Incremental (Pool.decode count) :=
  (RawPool.incremental_scanFrom _ _).bind fun table ↦ incremental_check table.settles_resolve

/-! ## Attributes

The contents of an attribute see no more than its body. When they run out of it, that is a fault of
the attribute, so no attribute ever asks for more input once its body is there. -/

namespace Attribute

theorem settles_exactly {inner : Decoder α} (h : Incremental inner) (name : String)
    (body : Bytes) : Settles (exactly name inner body) := by
  intro e he
  rw [exactly] at he
  split at he
  · cases he
  · cases he
    trivial
  · cases he
    trivial
  · next e' rest hnot hrun =>
    cases he
    -- running out of the body was the case before
    rcases h.settled_or_truncated hrun with hsettled | ⟨short, rfl⟩
    · exact hsettled
    · exact absurd rfl (hnot short)

theorem incremental_framed {pool : Pool} {contents : String → Bytes → Except DecodeError α}
    (h : ∀ name body, Settles (contents name body)) : Incremental (framed pool contents) := by
  refine (incremental_read incremental_u16).bind fun nameIndex ↦ ?_
  refine (incremental_read incremental_u32).bind fun length ↦ ?_
  refine (incremental_check (settles_requireText ..)).bind fun name ↦ ?_
  refine (incremental_read (incremental_take _)).bind fun body ↦ ?_
  exact incremental_check (h _ _)

end Attribute

theorem LineNumber.incremental_decode : Reader.Incremental LineNumber.decode :=
  incremental_u16.bind fun _ ↦ incremental_u16.bind fun _ ↦ Reader.incremental_pure _

theorem ExceptionEntry.incremental_decode : Reader.Incremental ExceptionEntry.decode :=
  incremental_u16.bind fun _ ↦ incremental_u16.bind fun _ ↦
    incremental_u16.bind fun _ ↦ incremental_u16.bind fun _ ↦ Reader.incremental_pure _

theorem CodeAttribute.settles_contents (name : String) (body : Bytes) :
    Settles (contents name body) := by
  rw [contents]
  split
  · have hentries : Incremental (counted fun _ ↦ LineNumber.decode) :=
      incremental_counted fun _ ↦ incremental_read LineNumber.incremental_decode
    exact (Attribute.settles_exactly hentries name body).map _
  · split
    · exact settles_ok _
    · exact settles_ok _

theorem Code.incremental_decode (pool : Pool) : Incremental (Code.decode pool) := by
  refine (incremental_read incremental_u16).bind fun maxStack ↦ ?_
  refine (incremental_read incremental_u16).bind fun maxLocals ↦ ?_
  refine (incremental_read incremental_u32).bind fun length ↦ ?_
  refine (incremental_read (incremental_take _)).bind fun instructions ↦ ?_
  refine (incremental_counted fun _ ↦
    incremental_read ExceptionEntry.incremental_decode).bind fun exceptions ↦ ?_
  refine (incremental_counted fun _ ↦
    Attribute.incremental_framed CodeAttribute.settles_contents).bind fun attributes ↦ ?_
  exact incremental_pure _

theorem KnownAttribute.incremental_decode (pool : Pool) (known : KnownAttribute) :
    Incremental (known.decode pool) := by
  cases known with
  | sourceFile =>
    exact (incremental_read incremental_u16).bind fun index ↦
      (incremental_check (settles_requireText ..)).bind fun name ↦ incremental_pure _
  | deprecated => exact incremental_pure _
  | signature =>
    exact (incremental_read incremental_u16).bind fun index ↦
      (incremental_check (settles_requireText ..)).bind fun text ↦ incremental_pure _
  | constantValue =>
    exact (incremental_read incremental_u16).bind fun index ↦
      (incremental_check (settles_require ..)).bind fun value ↦ incremental_pure _
  | code => exact (Code.incremental_decode pool).map _

namespace Attribute

theorem settles_contents (pool : Pool) (owner : Declaration) (name : String) (body : Bytes) :
    Settles (contents pool owner name body) := by
  rw [contents]
  split
  · exact settles_exactly (KnownAttribute.incremental_decode pool _) name body
  · exact settles_ok _

theorem incremental_decodeAll (pool : Pool) (owner : Declaration) :
    Incremental (decodeAll pool owner) :=
  incremental_counted fun _ ↦ incremental_framed (settles_contents pool owner)

end Attribute

/-! ## Class files -/

theorem Field.incremental_decode (pool : Pool) (owner : String) (position : Nat) :
    Incremental (Field.decode pool owner position) := by
  refine (incremental_read incremental_u16).bind fun flags ↦ ?_
  refine (incremental_read incremental_u16).bind fun nameIndex ↦ ?_
  refine (incremental_read incremental_u16).bind fun descriptorIndex ↦ ?_
  refine (incremental_check (settles_requireText ..)).bind fun name ↦ ?_
  refine (incremental_check (settles_requireText ..)).bind fun descriptor ↦ ?_
  refine (Attribute.incremental_decodeAll pool .field).bind fun attributes ↦ ?_
  exact incremental_pure _

theorem Method.incremental_decode (pool : Pool) (position : Nat) :
    Incremental (Method.decode pool position) := by
  refine (incremental_read incremental_u16).bind fun flags ↦ ?_
  refine (incremental_read incremental_u16).bind fun nameIndex ↦ ?_
  refine (incremental_check (settles_requireText ..)).bind fun name ↦ ?_
  refine (incremental_read incremental_u16).bind fun descriptorIndex ↦ ?_
  refine (incremental_check (settles_requireText ..)).bind fun descriptor ↦ ?_
  refine (Attribute.incremental_decodeAll pool .method).bind fun attributes ↦ ?_
  exact incremental_pure _

namespace ClassFile

theorem incremental_decodeMagic : Incremental decodeMagic := by
  refine (incremental_read incremental_u32).bind fun found ↦ ?_
  split
  · exact incremental_pure _
  · exact incremental_throw trivial

theorem incremental_decodeSuperclass (pool : Pool) : Incremental (decodeSuperclass pool) := by
  refine (incremental_read incremental_u16).bind fun index ↦ ?_
  split
  · exact incremental_pure _
  · exact (incremental_check (settles_requireClass ..)).bind fun name ↦ incremental_pure _

theorem incremental_decodeParts : Incremental decodeParts := by
  refine incremental_decodeMagic.bind fun _ ↦ ?_
  refine (incremental_read incremental_u16).bind fun minorVersion ↦ ?_
  refine (incremental_read incremental_u16).bind fun majorVersion ↦ ?_
  refine (incremental_read incremental_u16).bind fun poolCount ↦ ?_
  refine (Pool.incremental_decode poolCount).bind fun pool ↦ ?_
  refine (incremental_read incremental_u16).bind fun flags ↦ ?_
  refine (incremental_read incremental_u16).bind fun thisIndex ↦ ?_
  refine (incremental_check (settles_requireClass ..)).bind fun thisClass ↦ ?_
  refine (incremental_decodeSuperclass pool).bind fun superclass ↦ ?_
  refine (incremental_counted fun _ ↦ incremental_read incremental_u16).bind fun interfaces ↦ ?_
  refine (incremental_counted (Field.incremental_decode pool _)).bind fun fields ↦ ?_
  refine (incremental_counted (Method.incremental_decode pool)).bind fun methods ↦ ?_
  refine (Attribute.incremental_decodeAll pool .classFile).bind fun attributes ↦ ?_
  exact incremental_pure _

/-! ### The end of the file -/

theorem decode_eq_ok_iff {input rest : Bytes} {file : ClassFile} :
    decode input = .ok file rest ↔ decodeParts input = .ok file [] ∧ rest = [] := by
  rw [decode, EStateM.bind_eq_ok_iff]
  constructor
  · rintro ⟨a, left, hparts, hend⟩
    obtain ⟨_, mid, hcheck, ⟨⟩⟩ := EStateM.bind_eq_ok_iff.mp hend
    rw [decodeEnd] at hcheck
    split at hcheck
    · next hempty =>
      cases hcheck
      rw [List.isEmpty_iff] at hempty
      exact ⟨hempty ▸ hparts, hempty⟩
    · cases hcheck
  · rintro ⟨hparts, rfl⟩
    exact ⟨file, [], hparts, rfl⟩

theorem decode_eq_error_iff {input rest : Bytes} {e : DecodeError} :
    decode input = .error e rest ↔ decodeParts input = .error e rest ∨
      rest ≠ [] ∧ e = .trailingBytes rest.length ∧ ∃ file, decodeParts input = .ok file rest := by
  rw [decode, EStateM.bind_eq_error_iff]
  refine or_congr_right ⟨?_, ?_⟩
  · rintro ⟨file, left, hparts, hend⟩
    rcases EStateM.bind_eq_error_iff.mp hend with hcheck | ⟨_, mid, _, ⟨⟩⟩
    rw [decodeEnd] at hcheck
    split at hcheck
    · cases hcheck
    · next hempty =>
      cases hcheck
      rw [List.isEmpty_iff] at hempty
      exact ⟨hempty, rfl, file, hparts⟩
  · rintro ⟨hrest, rfl, file, hparts⟩
    refine ⟨file, rest, hparts, EStateM.bind_eq_error_iff.mpr (.inl ?_)⟩
    rw [decodeEnd, if_neg (by rwa [List.isEmpty_iff])]

theorem decode_of_decodeParts {input rest : Bytes} {file : ClassFile}
    (h : decodeParts input = .ok file rest) (hrest : rest ≠ []) :
    decode input = .error (.trailingBytes rest.length) rest :=
  decode_eq_error_iff.mpr (.inr ⟨hrest, rfl, file, h⟩)

theorem decode_append_of_ok {d x rest : Bytes} {file : ClassFile} (hx : x ≠ [])
    (h : decode d = .ok file rest) : decode (d ++ x) = .error (.trailingBytes x.length) x := by
  have hparts := incremental_decodeParts.ok_append (decode_eq_ok_iff.mp h).1 x
  exact decode_of_decodeParts hparts hx

theorem decode_append_of_trailingBytes {d x rest : Bytes} {n : Nat}
    (h : decode d = .error (.trailingBytes n) rest) :
    decode (d ++ x) = .error (.trailingBytes (n + x.length)) (rest ++ x) := by
  rcases decode_eq_error_iff.mp h with hparts | ⟨hrest, hn, file, hparts⟩
  · rcases incremental_decodeParts.settled_or_truncated hparts with hsettled | ⟨short, ⟨⟩⟩
    exact hsettled.elim
  · obtain rfl : n = rest.length := by simpa using hn
    rw [← List.length_append]
    exact decode_of_decodeParts (incremental_decodeParts.ok_append hparts x) (by simp [hrest])

theorem decode_append_of_isSettled {d x rest : Bytes} {e : DecodeError} (he : e.IsSettled)
    (h : decode d = .error e rest) : decode (d ++ x) = .error e (rest ++ x) := by
  rcases decode_eq_error_iff.mp h with hparts | ⟨_, rfl, _⟩
  · exact decode_eq_error_iff.mpr (.inl (incremental_decodeParts.error_append hparts he x))
  · exact he.elim

theorem decode_of_append_eq_ok {d x rest : Bytes} {file : ClassFile} (hx : x ≠ [])
    (h : decode (d ++ x) = .ok file rest) :
    ∃ short left, decode d = .error (.truncated short) left := by
  cases hd : decode d with
  | ok file' left =>
    rw [decode_append_of_ok hx hd] at h
    cases h
  | error e left =>
    cases e with
    | truncated short => exact ⟨short, left, rfl⟩
    | trailingBytes n =>
      rw [decode_append_of_trailingBytes hd] at h
      cases h
    | _ =>
      rw [decode_append_of_isSettled (by trivial) hd] at h
      cases h

theorem ne_nil_of_decode {d rest : Bytes} {file : ClassFile} (h : decode d = .ok file rest) :
    d ≠ [] := by
  rintro rfl
  cases h

/-! ### Several files in one input -/

/-- What is answered for files that stand one after the other in one input, when each is asked for
in turn: all but the last have something behind them. -/
def answers : List (Bytes × ClassFile) → List (Except DecodeError ClassFile)
  | [] => []
  | [(_, file)] => [.ok file]
  | _ :: next :: rest =>
    .error (.trailingBytes ((next :: rest).flatMap Prod.fst).length) :: answers (next :: rest)

theorem attempts_eq_answers : ∀ {files : List (Bytes × ClassFile)},
    (∀ p ∈ files, decode p.1 = .ok p.2 []) →
      Decoder.attempts decode files.length (files.flatMap Prod.fst) = answers files
  | [], _ => rfl
  | [(d, file)], h => by
    have hd : decode d = .ok file [] := h (d, file) List.mem_cons_self
    simp [Decoder.attempts, answers, hd]
  | (d, file) :: next :: rest, h => by
    have hd : decode d = .ok file [] := h (d, file) List.mem_cons_self
    have hnext : next.1 ≠ [] := ne_nil_of_decode (h next (by simp))
    have hbehind : (next :: rest).flatMap Prod.fst ≠ [] := by simp [hnext]
    rw [List.length_cons, Decoder.attempts, List.flatMap_cons, decode_append_of_ok hbehind hd]
    exact congrArg _ (attempts_eq_answers fun p hp ↦ h p (List.mem_cons_of_mem _ hp))

/-- **No lookahead.** A file that is accepted is refused with anything behind it, for exactly that,
and nothing of it is read; what is behind a refused file only adds to it; and a fault is the same
fault whatever follows. So a file that is cut short anywhere lacks bytes and has no other fault,
and files that stand one after the other are found one after the other. -/
theorem decode_without_lookahead :
    (∀ d x file rest, x ≠ [] → decode d = .ok file rest →
      decode (d ++ x) = .error (.trailingBytes x.length) x) ∧
    (∀ d x n rest, x ≠ [] → decode d = .error (.trailingBytes n) rest →
      decode (d ++ x) = .error (.trailingBytes (n + x.length)) (rest ++ x)) ∧
    (∀ d x e rest, x ≠ [] → e.IsSettled → decode d = .error e rest →
      decode (d ++ x) = .error e (rest ++ x)) ∧
    (∀ d x file rest, x ≠ [] → decode (d ++ x) = .ok file rest →
      ∃ short left, decode d = .error (.truncated short) left) ∧
    (∀ files : List (Bytes × ClassFile), (∀ p ∈ files, decode p.1 = .ok p.2 []) →
      Decoder.attempts decode files.length (files.flatMap Prod.fst) = answers files) :=
  ⟨fun _ _ _ _ hx h ↦ decode_append_of_ok hx h,
    fun _ _ _ _ _ h ↦ decode_append_of_trailingBytes h,
    fun _ _ _ _ _ he h ↦ decode_append_of_isSettled he h,
    fun _ _ _ _ hx h ↦ decode_of_append_eq_ok hx h,
    fun _ h ↦ attempts_eq_answers h⟩

/-- The class `A`, with no superclass and no members. -/
def bareClass : Bytes :=
  [0xCA, 0xFE, 0xBA, 0xBE, 0, 0, 0, 52, 0, 3, 1, 0, 1, 65, 7, 0, 1, 0, 0, 0, 2, 0, 0, 0, 0, 0, 0, 0,
    0, 0, 0]

/-- Two copies of a class in one input, one copy that is cut short, one with something behind what
is behind it, and four bytes that are not the beginning of a class. -/
theorem bareClass_without_lookahead : ∃ file,
    decode bareClass = .ok file [] ∧
    decode (bareClass ++ bareClass) = .error (.trailingBytes 31) bareClass ∧
    decode (bareClass ++ [7] ++ [8, 9]) = .error (.trailingBytes 3) [7, 8, 9] ∧
    decode ([0, 0, 0, 1] ++ bareClass) = .error (.badMagic 1) bareClass ∧
    (∃ short left, decode (bareClass.take 12) = .error (.truncated short) left) ∧
    Decoder.attempts decode 2 (bareClass ++ bareClass) =
      [.error (.trailingBytes 31), .ok file] := by
  have haccepted : ∃ r ∈ (decode bareClass).ok?, r.2 = [] := by decide +kernel
  obtain ⟨⟨file, _⟩, hfile, rfl⟩ := haccepted
  have hfile := EStateM.Result.ok?_eq_some_iff.mp hfile
  have hseven := decode_without_lookahead.1 bareClass [7] file [] (by simp) hfile
  have hmagic : decode [0, 0, 0, 1] = .error (.badMagic 1) [] := by rfl
  refine ⟨file, hfile, decode_without_lookahead.1 bareClass bareClass file [] (by decide) hfile,
    decode_without_lookahead.2.1 _ [8, 9] _ _ (by simp) hseven,
    decode_without_lookahead.2.2.1 _ bareClass _ _ (by decide) (by trivial) hmagic,
    decode_without_lookahead.2.2.2.1 _ (bareClass.drop 12) file [] (by decide) hfile,
    decode_without_lookahead.2.2.2.2 [(bareClass, file), (bareClass, file)] ?_⟩
  simp [hfile]

end ClassFile

end JavaClass
