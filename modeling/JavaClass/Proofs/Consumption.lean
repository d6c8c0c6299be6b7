import JavaClass.Proofs.Reading

/-!
# What a run has taken

A decoder goes through its input from front to back, so when it stops, there is a part of the input
that it has taken and a rest that it has not looked at. The part that it has taken decides what
happened, in one of three ways: it was read as a value, there was a fault in it, or a block was
asked for behind it that is longer than the rest.

`Decoder.Sequential` says this of all inputs, and is closed under everything that decoders are made
of. It is more than deciding without looking ahead: a run that lacks bytes, too, has taken a part of
the input, and how far it had come and how much it then asked for is the same for every rest that is
too short. That is what an error has to say about contents that run past their end.

## Main statements

* `Decoder.Sequential.bind`, `Decoder.sequential_counted`: parts that follow each other.
* `Decoder.FaultsIn.bind`, `Decoder.faultsIn_counted`: a fault of the whole is a fault of one part,
  and there is a place in the input where the whole goes on with that part.
-/

namespace JavaClass

open EStateM

variable {α β γ : Type}

namespace Decoder

/-- There is this fault in these bytes, whatever comes after them. -/
def FailsAfter (decoder : Decoder α) (taken : Bytes) (e : DecodeError) : Prop :=
  ∀ more, decoder (taken ++ more) = .error e more

/-- Behind these bytes a block of this size is read. -/
structure AsksFor (decoder : Decoder α) (taken : Bytes) (size : Nat) : Prop where
  /-- Anything shorter is left as it is. -/
  error_of_lt : ∀ {more : Bytes}, more.length < size →
    decoder (taken ++ more) = .error (.truncated ⟨size, more.length⟩) more
  /-- From anything else the block is taken. -/
  length_le : ∀ {more : Bytes}, size ≤ more.length →
    (decoder (taken ++ more)).state.length + size ≤ more.length

/-- The decoder goes through its input from front to back, and all faults that it finds are of one
kind. -/
structure Sequential (Fault : DecodeError → Prop) (decoder : Decoder α) : Prop where
  ok : ∀ {input rest a}, decoder input = .ok a rest →
    ∃ taken, taken ++ rest = input ∧ Reads decoder taken a
  error : ∀ {input rest e}, decoder input = .error e rest →
    ∃ taken, taken ++ rest = input ∧ (Fault e ∧ FailsAfter decoder taken e ∨
      ∃ size, rest.length < size ∧ AsksFor decoder taken size)

section Sequential

variable {Fault : DecodeError → Prop} {decoder : Decoder α} {next : α → Decoder β}
  {taken taken' input rest : Bytes} {a : α} {e : DecodeError} {size : Nat}

/-- No run gives bytes back. -/
theorem Sequential.length_state_le (h : Sequential Fault decoder) (input : Bytes) :
    (decoder input).state.length ≤ input.length := by
  have hsuffix : ∃ taken, taken ++ (decoder input).state = input := by
    cases hrun : decoder input with
    | ok a rest => exact (h.ok hrun).imp fun _ ↦ And.left
    | error e rest => exact (h.error hrun).imp fun _ ↦ And.left
  obtain ⟨taken, htaken⟩ := hsuffix
  have hlength := congrArg List.length htaken
  rw [List.length_append] at hlength
  omega

/-! ### Sequencing -/

theorem FailsAfter.bind (h : FailsAfter decoder taken e) (next : α → Decoder β) :
    FailsAfter (decoder >>= next) taken e := by
  intro more
  rw [bind_apply, h]

theorem FailsAfter.bind_of_reads (hnext : FailsAfter (next a) taken' e)
    (h : Reads decoder taken a) : FailsAfter (decoder >>= next) (taken ++ taken') e := by
  intro more
  rw [List.append_assoc, h.bind_append]
  exact hnext more

theorem failsAfter_map_iff {f : α → β} :
    FailsAfter (f <$> decoder) taken e ↔ FailsAfter decoder taken e :=
  forall_congr' fun _ ↦ map_eq_error_iff

theorem AsksFor.bind (h : AsksFor decoder taken size) (hnext : ∀ a, Sequential Fault (next a)) :
    AsksFor (decoder >>= next) taken size where
  error_of_lt := by
    intro more hlt
    rw [bind_apply, h.error_of_lt hlt]
  length_le := by
    intro more hle
    have hfirst := h.length_le hle
    rw [bind_apply]
    cases hrun : decoder (taken ++ more) with
    | ok a mid =>
      -- the block has been taken, and what comes after it gives nothing back
      have hmid := (hnext a).length_state_le mid
      rw [hrun] at hfirst
      exact Nat.le_trans (Nat.add_le_add_right hmid size) hfirst
    | error e mid => rwa [hrun] at hfirst

theorem AsksFor.bind_of_reads (hnext : AsksFor (next a) taken' size)
    (h : Reads decoder taken a) : AsksFor (decoder >>= next) (taken ++ taken') size where
  error_of_lt := by
    intro more hlt
    rw [List.append_assoc, h.bind_append, hnext.error_of_lt hlt]
  length_le := by
    intro more hle
    rw [List.append_assoc, h.bind_append]
    exact hnext.length_le hle

theorem sequential_pure (a : α) : Sequential Fault (pure a) where
  ok := by
    rintro input _ _ ⟨⟩
    exact ⟨[], rfl, reads_pure a⟩
  error := by rintro input _ _ ⟨⟩

theorem Sequential.bind (h : Sequential Fault decoder) (hnext : ∀ a, Sequential Fault (next a)) :
    Sequential Fault (decoder >>= next) where
  ok := by
    intro input rest b hrun
    obtain ⟨a, mid, hfirst, hsecond⟩ := bind_eq_ok_iff.mp hrun
    obtain ⟨taken, rfl, hreads⟩ := h.ok hfirst
    obtain ⟨taken', rfl, hreads'⟩ := (hnext a).ok hsecond
    exact ⟨taken ++ taken', List.append_assoc .., hreads.bind hreads'⟩
  error := by
    intro input rest e hrun
    rcases bind_eq_error_iff.mp hrun with hfirst | ⟨a, mid, hfirst, hsecond⟩
    · obtain ⟨taken, rfl, ⟨he, hfails⟩ | ⟨size, hlt, hasks⟩⟩ := h.error hfirst
      · exact ⟨taken, rfl, .inl ⟨he, hfails.bind next⟩⟩
      · exact ⟨taken, rfl, .inr ⟨size, hlt, hasks.bind hnext⟩⟩
    · obtain ⟨taken, rfl, hreads⟩ := h.ok hfirst
      obtain ⟨taken', rfl, ⟨he, hfails⟩ | ⟨size, hlt, hasks⟩⟩ := (hnext a).error hsecond
      · exact ⟨taken ++ taken', List.append_assoc .., .inl ⟨he, hfails.bind_of_reads hreads⟩⟩
      · exact ⟨taken ++ taken', List.append_assoc ..,
          .inr ⟨size, hlt, hasks.bind_of_reads hreads⟩⟩

theorem Sequential.map (h : Sequential Fault decoder) (f : α → β) :
    Sequential Fault (f <$> decoder) := by
  rw [map_eq_pure_bind]
  exact h.bind fun a ↦ sequential_pure _

/-! ### Reads and checks -/

theorem sequential_check {check : Except DecodeError α} (h : ∀ e, check = .error e → Fault e) :
    Sequential Fault (liftM check) where
  ok := by
    intro input rest a hrun
    obtain ⟨hcheck, rfl⟩ := check_eq_ok_iff.mp hrun
    exact ⟨[], rfl, reads_check hcheck⟩
  error := by
    intro input rest e hrun
    obtain ⟨hcheck, rfl⟩ := check_eq_error_iff.mp hrun
    exact ⟨[], rfl, .inl ⟨h e hcheck, fun more ↦ check_eq_error_iff.mpr ⟨hcheck, rfl⟩⟩⟩

theorem asksFor_take (n : Nat) : AsksFor (liftM (Reader.take n) : Decoder Bytes) [] n where
  error_of_lt := by
    intro more hlt
    exact read_eq_error_iff.mpr ⟨_, Reader.take_of_lt hlt, rfl⟩
  length_le := by
    intro more hle
    rw [List.nil_append, read_eq_ok_iff.mpr (Reader.take_of_le hle)]
    simp only [Result.state, List.length_drop]
    omega

theorem sequential_take (n : Nat) : Sequential Fault (liftM (Reader.take n) : Decoder Bytes) where
  ok := by
    intro input rest block hrun
    obtain ⟨rfl, rfl⟩ := Reader.take_eq_ok_iff.mp (read_eq_ok_iff.mp hrun)
    exact ⟨block, rfl, reads_lift (Reader.reads_take block)⟩
  error := by
    intro input rest e hrun
    obtain ⟨short, htake, rfl⟩ := read_eq_error_iff.mp hrun
    rcases Nat.lt_or_ge input.length n with hlt | hle
    · rw [Reader.take_of_lt hlt] at htake
      cases htake
      exact ⟨[], rfl, .inr ⟨n, hlt, asksFor_take n⟩⟩
    · rw [Reader.take_of_le hle] at htake
      cases htake

theorem lift_map (f : α → β) (read : Reader α) :
    (liftM (f <$> read) : Decoder β) = f <$> (liftM read : Decoder α) := by
  funext input
  change adaptExcept _ (f <$> read) input = (f <$> adaptExcept _ read) input
  rw [map_apply, adaptExcept, adaptExcept, map_apply]
  cases read input <;> rfl

theorem lift_bind (read : Reader α) (next : α → Reader β) :
    (liftM (read >>= next) : Decoder β) =
      (liftM read : Decoder α) >>= fun a ↦ (liftM (next a) : Decoder β) := by
  funext input
  change adaptExcept _ (read >>= next) input =
    (adaptExcept _ read >>= fun a ↦ adaptExcept _ (next a)) input
  rw [bind_apply, adaptExcept, adaptExcept, bind_apply]
  cases read input <;> rfl

theorem sequential_lift_map {read : Reader α} (h : Sequential Fault (liftM read)) (f : α → β) :
    Sequential Fault (liftM (f <$> read)) := by
  rw [lift_map]
  exact h.map f

theorem sequential_lift_bind {read : Reader α} {next : α → Reader β}
    (h : Sequential Fault (liftM read)) (hnext : ∀ a, Sequential Fault (liftM (next a))) :
    Sequential Fault (liftM (read >>= next)) := by
  rw [lift_bind]
  exact h.bind hnext

theorem sequential_number (width : Nat) :
    Sequential Fault (liftM (Reader.number width) : Decoder Nat) :=
  sequential_lift_map (sequential_take width) _

theorem sequential_u16 : Sequential Fault (liftM Reader.u16 : Decoder UInt16) :=
  sequential_lift_map (sequential_number 2) _

theorem sequential_u32 : Sequential Fault (liftM Reader.u32 : Decoder UInt32) :=
  sequential_lift_map (sequential_number 4) _

/-! ### Repeated parts -/

theorem sequential_collect {item : Nat → Decoder α}
    (h : ∀ position, Sequential Fault (item position)) :
    ∀ (n : Nat) (done : Array α), Sequential Fault (collect item done n)
  | 0, done => sequential_pure done
  | n + 1, done => (h done.size).bind fun next ↦ sequential_collect h n (done.push next)

theorem sequential_counted {item : Nat → Decoder α}
    (h : ∀ position, Sequential Fault (item position)) : Sequential Fault (counted item) := by
  refine sequential_u16.bind fun count ↦ ?_
  exact (sequential_collect h count.toNat #[]).bind fun items ↦ sequential_pure _

end Sequential

/-! ## Where a fault is -/

/-- Behind these bytes the decoder goes on with one of its parts. -/
def GoesOnWith (decoder : Decoder α) (before : Bytes) (part : Decoder γ) : Prop :=
  ∃ next : γ → Decoder α, ∀ more, decoder (before ++ more) = (part >>= next) more

/-- All faults of the decoder are faults of this part of it. -/
def FaultsIn (decoder : Decoder α) (part : Decoder γ) : Prop :=
  ∀ ⦃input rest e⦄, decoder input = .error e rest → e.IsSettled →
    ∃ before mid, before ++ mid = input ∧ GoesOnWith decoder before part ∧
      part mid = .error e rest

section FaultsIn

variable {decoder : Decoder α} {next : α → Decoder β}
  {part : Decoder γ} {before taken : Bytes} {a : α} {e : DecodeError}

theorem GoesOnWith.failsAfter (h : GoesOnWith decoder before part)
    (hpart : FailsAfter part taken e) : FailsAfter decoder (before ++ taken) e := by
  obtain ⟨next, hnext⟩ := h
  intro more
  rw [List.append_assoc, hnext]
  exact hpart.bind next more

theorem GoesOnWith.bind (h : GoesOnWith decoder before part) (next : α → Decoder β) :
    GoesOnWith (decoder >>= next) before part := by
  obtain ⟨next', hnext'⟩ := h
  refine ⟨fun c ↦ next' c >>= next, fun more ↦ ?_⟩
  rw [bind_apply, hnext', ← bind_apply, bind_assoc]

theorem GoesOnWith.bind_of_reads (hnext : GoesOnWith (next a) before part)
    (h : Reads decoder taken a) : GoesOnWith (decoder >>= next) (taken ++ before) part := by
  obtain ⟨next', hnext'⟩ := hnext
  refine ⟨next', fun more ↦ ?_⟩
  rw [List.append_assoc, h.bind_append, hnext']

theorem faultsIn_self (part : Decoder γ) : FaultsIn part part := by
  intro input rest e hrun _
  refine ⟨[], input, rfl, ⟨pure, fun more ↦ ?_⟩, hrun⟩
  rw [bind_pure, List.nil_append]

theorem faultsIn_pure (a : α) (part : Decoder γ) : FaultsIn (pure a) part := by
  rintro input _ _ ⟨⟩

theorem faultsIn_read (read : Reader α) (part : Decoder γ) : FaultsIn (liftM read) part := by
  intro input rest e hrun he
  obtain ⟨short, _, rfl⟩ := read_eq_error_iff.mp hrun
  exact he.elim

theorem FaultsIn.bind (h : FaultsIn decoder part)
    (hdecoder : Sequential DecodeError.IsSettled decoder) (hnext : ∀ a, FaultsIn (next a) part) :
    FaultsIn (decoder >>= next) part := by
  intro input rest e hrun he
  rcases bind_eq_error_iff.mp hrun with hfirst | ⟨a, mid, hfirst, hsecond⟩
  · obtain ⟨before, mid, rfl, hgoes, hpart⟩ := h hfirst he
    exact ⟨before, mid, rfl, hgoes.bind next, hpart⟩
  · obtain ⟨taken, rfl, hreads⟩ := hdecoder.ok hfirst
    obtain ⟨before, mid, rfl, hgoes, hpart⟩ := hnext a hsecond he
    exact ⟨taken ++ before, mid, List.append_assoc .., hgoes.bind_of_reads hreads, hpart⟩

theorem faultsIn_collect {item : Nat → Decoder α} (h : ∀ position, FaultsIn (item position) part)
    (hitem : ∀ position, Sequential DecodeError.IsSettled (item position)) :
    ∀ (n : Nat) (done : Array α), FaultsIn (collect item done n) part
  | 0, done => faultsIn_pure done part
  | n + 1, done => (h done.size).bind (hitem done.size) fun next ↦
      faultsIn_collect h hitem n (done.push next)

theorem faultsIn_counted {item : Nat → Decoder α} (h : ∀ position, FaultsIn (item position) part)
    (hitem : ∀ position, Sequential DecodeError.IsSettled (item position)) :
    FaultsIn (counted item) part := by
  refine (faultsIn_read _ part).bind sequential_u16 fun count ↦ ?_
  exact (faultsIn_collect h hitem count.toNat #[]).bind (sequential_collect hitem _ _) fun items ↦
    faultsIn_pure _ part

end FaultsIn

end Decoder

end JavaClass
