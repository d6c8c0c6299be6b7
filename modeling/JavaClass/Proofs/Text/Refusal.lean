import JavaClass.Proofs.Text.Sequence

/-!
# Where bytes are refused

Reading stops at the first byte that rules the text out. Bytes are `Extensible` if some bytes behind
them make them fall into sequences, so a prefix that is not extensible cannot be the beginning of
any text, and the error names the last byte of the shortest one. If there is no such prefix, the
bytes only end too early.

The reason is that all the bytes which have not been refused belong to sequences, with part of
another one behind them. `Remainder` collects what can be left once the complete sequences have been
taken away: nothing, part of a sequence, or a part with a byte behind it that does not go on with
any. Surrogates play no role before all of the bytes have been read.

## Main statements

* `ModifiedUtf8.exists_remainder`: what is left of any bytes.
* `ModifiedUtf8.accepted_and_refused`: which bytes are read, and how the others are refused.
-/

namespace JavaClass.ModifiedUtf8

variable {d part rest : Bytes} {byte : UInt8} {sequences : List Sequence}

/-- The bytes fall into sequences. -/
def WellFormed (d : Bytes) : Prop :=
  ∃ sequences : List Sequence, sequences.flatMap Sequence.bytes = d

/-- There are bytes that make these fall into sequences. -/
def Extensible (d : Bytes) : Prop := ∃ more, WellFormed (d ++ more)

/-- A sequence starts with these bytes, and has more of them. -/
def Begun (part : Bytes) : Prop :=
  ∃ (q : Sequence) (missing : Bytes), missing ≠ [] ∧ part ++ missing = q.bytes

/-- The bytes end with the first ones of a sequence. -/
def EndsInside (d : Bytes) : Prop :=
  ∃ (sequences : List Sequence) (part : Bytes), part ≠ [] ∧ Begun part ∧
    d = sequences.flatMap Sequence.bytes ++ part

theorem Extensible.of_append {more : Bytes} (h : Extensible (d ++ more)) : Extensible d := by
  obtain ⟨others, h⟩ := h
  exact ⟨more ++ others, by rwa [← List.append_assoc]⟩

theorem Extensible.take (h : Extensible d) (n : Nat) : Extensible (d.take n) := by
  rw [← List.take_append_drop n d] at h
  exact h.of_append

theorem Begun.extensible (h : Begun part) (sequences : List Sequence) :
    Extensible (sequences.flatMap Sequence.bytes ++ part) := by
  obtain ⟨q, missing, _, hq⟩ := h
  exact ⟨missing, sequences ++ [q], by simp [hq]⟩

/-! ## What is left -/

/-- What is left of some bytes when the sequences at the front have been taken away, and how reading
ends there. -/
inductive Remainder : Bytes → Prop
  | nil : Remainder []
  | truncated {part : Bytes} (hpart : part ≠ []) (hbegun : Begun part)
    (h : ∀ read offset, unitsAfter read offset part =
      .error (.truncated (offset + part.length))) : Remainder part
  | refused {part : Bytes} {byte : UInt8} (after : Bytes) (hbegun : Begun part)
    (h : ∀ read offset after, unitsAfter read offset (part ++ byte :: after) =
      .error (.invalidByte byte (offset + part.length))) : Remainder (part ++ byte :: after)

/-- Any continuation byte will do for what is missing. -/
theorem isContinuation_first : isContinuation 0x80 = true := by decide

theorem begun_nil : Begun [] := ⟨.one 1 (by decide), [1], by simp, rfl⟩

theorem begun_two {lead : UInt8} (h : Form.Leads lead .two) : Begun [lead] :=
  ⟨.two lead 0x80 h isContinuation_first, [0x80], by simp, rfl⟩

theorem begun_three {lead : UInt8} (h : Form.Leads lead .three) : Begun [lead] :=
  ⟨.three lead 0x80 0x80 h ⟨isContinuation_first, isContinuation_first⟩, [0x80, 0x80],
    by simp, rfl⟩

theorem begun_three_mid {lead mid : UInt8} (h : Form.Leads lead .three)
    (hmid : isContinuation mid = true) : Begun [lead, mid] :=
  ⟨.three lead mid 0x80 h ⟨hmid, isContinuation_first⟩, [0x80], by simp, rfl⟩

theorem exists_remainder_cons (q : Sequence)
    (h : ∃ (sequences : List Sequence) (rest : Bytes),
      d = sequences.flatMap Sequence.bytes ++ rest ∧ Remainder rest) :
    ∃ (sequences : List Sequence) (rest : Bytes),
      q.bytes ++ d = sequences.flatMap Sequence.bytes ++ rest ∧ Remainder rest := by
  obtain ⟨sequences, rest, rfl, hrest⟩ := h
  exact ⟨q :: sequences, rest, by simp, hrest⟩

/-- **What is left of any bytes**, by the way in which they are read. -/
theorem exists_remainder (d : Bytes) : ∃ (sequences : List Sequence) (rest : Bytes),
    d = sequences.flatMap Sequence.bytes ++ rest ∧ Remainder rest := by
  have hnone {rest : Bytes} (h : Remainder rest) : ∃ (sequences : List Sequence) (rest' : Bytes),
      rest = sequences.flatMap Sequence.bytes ++ rest' ∧ Remainder rest' := ⟨[], rest, rfl, h⟩
  fun_induction unitsAfter [] 0 d with
  | case1 => exact hnone .nil
  | case2 _ _ lead rest hform =>
    refine hnone (.refused rest begun_nil fun read offset after ↦ ?_)
    rw [List.nil_append, unitsAfter.eq_def]
    simp [hform]
  | case3 _ _ b rest hform ih =>
    exact exists_remainder_cons (.one b (Form.ofLead?_eq_some_iff.mp hform)) ih
  | case4 _ _ lead hform =>
    refine hnone (.truncated (by simp) (begun_two (Form.ofLead?_eq_some_iff.mp hform)) ?_)
    intro read offset
    simp [unitsAfter, hform]
  | case5 _ _ lead hform low rest hlow ih =>
    exact exists_remainder_cons (.two lead low (Form.ofLead?_eq_some_iff.mp hform) hlow) ih
  | case6 _ _ lead hform low rest hlow =>
    refine hnone (@Remainder.refused [lead] _ rest
      (begun_two (Form.ofLead?_eq_some_iff.mp hform)) fun read offset after ↦ ?_)
    rw [List.singleton_append, unitsAfter.eq_def]
    simp [hform, hlow]
  | case7 _ _ lead hform =>
    refine hnone (.truncated (by simp) (begun_three (Form.ofLead?_eq_some_iff.mp hform)) ?_)
    intro read offset
    simp [unitsAfter, hform]
  | case8 _ _ lead hform mid hmid =>
    refine hnone (.truncated (by simp)
      (begun_three_mid (Form.ofLead?_eq_some_iff.mp hform) hmid) ?_)
    intro read offset
    simp [unitsAfter, hform, hmid]
  | case9 _ _ lead hform mid hmid low rest hlow ih =>
    exact exists_remainder_cons
      (.three lead mid low (Form.ofLead?_eq_some_iff.mp hform) ⟨hmid, hlow⟩) ih
  | case10 _ _ lead hform mid hmid low rest hlow =>
    refine hnone (@Remainder.refused [lead, mid] _ rest
      (begun_three_mid (Form.ofLead?_eq_some_iff.mp hform) hmid) fun read offset after ↦ ?_)
    simp [unitsAfter, hform, hmid, hlow]
  | case11 _ _ lead hform mid rest hmid =>
    refine hnone (@Remainder.refused [lead] _ rest
      (begun_three (Form.ofLead?_eq_some_iff.mp hform)) fun read offset after ↦ ?_)
    rw [List.singleton_append, unitsAfter.eq_def]
    simp [hform, hmid]

/-! ## The errors -/

theorem decode_of_units {e : EncodingError} (h : units d = .error e) : decode d = .error e := by
  rw [decode, h]
  rfl

/-- What falls into sequences is refused for its units only. -/
theorem WellFormed.exists_units (h : WellFormed d) : ∃ us, units d = .ok us := by
  obtain ⟨sequences, h⟩ := h
  exact ⟨_, units_eq_ok_iff.mpr ⟨sequences, h, rfl⟩⟩

theorem not_wellFormed_of_units {e : EncodingError} (h : units d = .error e) : ¬ WellFormed d := by
  intro hd
  obtain ⟨us, hus⟩ := hd.exists_units
  cases h.symm.trans hus

theorem units_append (sequences : List Sequence) (rest : Bytes) :
    units (sequences.flatMap Sequence.bytes ++ rest) =
      unitsAfter (sequences.map Sequence.unit).reverse (sequences.flatMap Sequence.bytes).length
        rest := by
  rw [units, unitsAfter_flatMap_append, List.append_nil, Nat.zero_add]

/-- A byte that is refused is refused whatever comes behind it, and the bytes before it are those of
a text that goes on in another way. -/
theorem refused_of_remainder (hbegun : Begun part)
    (h : ∀ read offset after, unitsAfter read offset (part ++ byte :: after) =
      .error (.invalidByte byte (offset + part.length)))
    (hd : d = sequences.flatMap Sequence.bytes ++ (part ++ byte :: rest)) :
    ∃ offset, d[offset]? = some byte ∧ (∀ n, Extensible (d.take n) ↔ n ≤ offset) ∧
      ∀ more, decode (d ++ more) = .error (.invalidByte byte offset) := by
  -- what comes before the byte, and what is made of it by the byte and anything else
  obtain ⟨front, hfront⟩ : ∃ front, front = sequences.flatMap Sequence.bytes ++ part := ⟨_, rfl⟩
  have hd : d = front ++ byte :: rest := by rw [hd, hfront, List.append_assoc]
  have herror (after : Bytes) :
      units (front ++ byte :: after) = .error (.invalidByte byte front.length) := by
    rw [hfront, List.append_assoc, units_append, h, List.length_append]
  refine ⟨front.length, by simp [hd],
    fun n ↦ ⟨fun hn ↦ Nat.le_of_not_lt fun hlt ↦ ?_, fun hn ↦ ?_⟩, fun more ↦ ?_⟩
  · have htake : (d.take n).take (front.length + 1) = front ++ [byte] := by
      rw [List.take_take, Nat.min_eq_left (by omega), hd, List.take_length_add_append,
        List.take_one]
      rfl
    obtain ⟨more, hmore⟩ := htake ▸ hn.take (front.length + 1)
    rw [List.append_assoc, List.singleton_append] at hmore
    exact not_wellFormed_of_units (herror more) hmore
  · have htake : d.take n = front.take n := by rw [hd, List.take_append_of_le_length hn]
    exact htake ▸ (hfront ▸ hbegun.extensible sequences).take n
  · rw [hd, List.append_assoc]
    exact decode_of_units (herror _)

theorem refused_or_truncated (hd : ¬ WellFormed d) :
    (∃ byte offset, d[offset]? = some byte ∧ (∀ n, Extensible (d.take n) ↔ n ≤ offset) ∧
      ∀ more, decode (d ++ more) = .error (.invalidByte byte offset)) ∨
    EndsInside d ∧ decode d = .error (.truncated d.length) := by
  obtain ⟨sequences, rest, hrest, hremainder⟩ := exists_remainder d
  cases hremainder with
  | nil => exact absurd ⟨sequences, by rw [hrest, List.append_nil]⟩ hd
  | truncated hpart hbegun h =>
    refine .inr ⟨⟨sequences, rest, hpart, hbegun, hrest⟩, decode_of_units ?_⟩
    rw [hrest, units_append, h, List.length_append]
  | refused after hbegun h => exact .inl ⟨_, refused_of_remainder hbegun h hrest⟩

theorem exists_decode_eq_ok_iff : (∃ s, decode d = .ok s) ↔ ∃ sequences : List Sequence,
    sequences.flatMap Sequence.bytes = d ∧ Utf16.Paired (sequences.map Sequence.unit) := by
  simp only [decode_eq_ok_iff, ← Utf16.exists_encode_eq_iff]
  constructor
  · rintro ⟨s, sequences, hd, hs⟩
    exact ⟨sequences, hd, s, hs.symm⟩
  · rintro ⟨sequences, hd, s, hs⟩
    exact ⟨s, sequences, hd, hs.symm⟩

/-- **Which bytes are read, and how the others are refused.** Bytes are read if they fall into
sequences and the surrogates among the units of these stand in pairs, and the text is the one with
these units. If they do not fall into sequences, then either they begin with bytes that no text
begins with, and the error is the last byte of the shortest such prefix, whatever comes behind it;
or they end inside a sequence, and the error is their end. Surrogates are only complained about if
the bytes fall into sequences. -/
theorem accepted_and_refused (d : Bytes) :
    (∀ s, decode d = .ok s ↔ ∃ sequences : List Sequence,
      sequences.flatMap Sequence.bytes = d ∧ sequences.map Sequence.unit = Utf16.encode s) ∧
    ((∃ s, decode d = .ok s) ↔ ∃ sequences : List Sequence,
      sequences.flatMap Sequence.bytes = d ∧ Utf16.Paired (sequences.map Sequence.unit)) ∧
    (¬ WellFormed d →
      (¬ Extensible d ∧ ∃ byte offset, d[offset]? = some byte ∧
        (∀ n, Extensible (d.take n) ↔ n ≤ offset) ∧
        ∀ more, decode (d ++ more) = .error (.invalidByte byte offset)) ∨
      (EndsInside d ∧ decode d = .error (.truncated d.length))) ∧
    (decode d = .error .unpairedSurrogate → WellFormed d) := by
  refine ⟨fun s ↦ decode_eq_ok_iff, exists_decode_eq_ok_iff, fun hd ↦ ?_, fun hd ↦ ?_⟩
  · rcases refused_or_truncated hd with ⟨byte, offset, hbyte, hextensible, hrefused⟩ | htruncated
    · refine .inl ⟨fun hd ↦ ?_, byte, offset, hbyte, hextensible, hrefused⟩
      have hlt := (List.getElem?_eq_some_iff.mp hbyte).1
      have hle := (hextensible d.length).mp (by rwa [List.take_length])
      omega
    · exact .inr htruncated
  · refine Classical.byContradiction fun hnot ↦ ?_
    rcases refused_or_truncated hnot with ⟨byte, offset, _, _, hrefused⟩ | ⟨_, htruncated⟩
    · have hrefused := hrefused []
      rw [List.append_nil, hd] at hrefused
      cases hrefused
    · cases hd.symm.trans htruncated

/-- A letter, two bytes of a sequence of three, and a letter again, behind which there can be
anything. -/
theorem accepted_and_refused_brokenSequence :
    let d : Bytes := [65, 0xE4, 0xBD, 66]
    (∀ n, Extensible (d.take n) ↔ n ≤ 3) ∧
      (∀ more, decode (d ++ more) = .error (.invalidByte 66 3)) ∧
      decode (d.take 3) = .error (.truncated 3) := by
  intro d
  have hd : decode d = .error (.invalidByte 66 3) := by rfl
  have hunits : units d = .error (.invalidByte 66 3) := by rfl
  rcases (accepted_and_refused d).2.2.1 (not_wellFormed_of_units hunits) with
    ⟨_, byte, offset, _, hextensible, hrefused⟩ | ⟨_, htruncated⟩
  · have hsame := hrefused []
    rw [List.append_nil, hd] at hsame
    cases hsame
    exact ⟨hextensible, hrefused, rfl⟩
  · cases hd.symm.trans htruncated

end JavaClass.ModifiedUtf8
