/-!
# Taking runs apart

Readers, decoders and loaders are computations that change a state and may fail, and all of them
are put together by sequencing. A run of a sequence falls apart into runs of its parts: if it
succeeded, so did both, and if it failed, either the first part did or the second did in the state
that the first left behind. Proofs about what a computation does go by these lemmas and never look
into the monad.
-/

namespace EStateM

variable {ε σ α β : Type}

@[simp] theorem pure_apply (a : α) (s : σ) : (pure a : EStateM ε σ α) s = .ok a s := rfl

@[simp] theorem throw_apply (e : ε) (s : σ) : (throw e : EStateM ε σ α) s = .error e s := rfl

@[simp] theorem get_apply (s : σ) : (get : EStateM ε σ σ) s = .ok s s := rfl

@[simp] theorem modify_apply (f : σ → σ) (s : σ) :
    (modify f : EStateM ε σ PUnit) s = .ok ⟨⟩ (f s) := rfl

/-- The state in which a run ends. -/
@[simp] def Result.state : Result ε σ α → σ
  | .ok _ s => s
  | .error _ s => s

def Result.ok? : Result ε σ α → Option (α × σ)
  | .ok a s => some (a, s)
  | .error _ _ => none

def Result.error? : Result ε σ α → Option (ε × σ)
  | .ok _ _ => none
  | .error e s => some (e, s)

theorem Result.ok?_eq_some_iff {r : Result ε σ α} {a : α} {s : σ} :
    r.ok? = some (a, s) ↔ r = .ok a s := by
  cases r <;> simp [ok?]

theorem Result.error?_eq_some_iff {r : Result ε σ α} {e : ε} {s : σ} :
    r.error? = some (e, s) ↔ r = .error e s := by
  cases r <;> simp [error?]

theorem bind_apply (x : EStateM ε σ α) (f : α → EStateM ε σ β) (s : σ) :
    (x >>= f) s = match x s with
      | .ok a t => f a t
      | .error e t => .error e t := rfl

theorem map_apply (f : α → β) (x : EStateM ε σ α) (s : σ) :
    (f <$> x) s = match x s with
      | .ok a t => .ok (f a) t
      | .error e t => .error e t := rfl

theorem state_bind_pure (x : EStateM ε σ α) (f : α → β) (s : σ) :
    ((x >>= fun a ↦ pure (f a)) s).state = (x s).state := by
  rw [bind_apply]
  cases x s <;> rfl

theorem bind_eq_ok_iff {x : EStateM ε σ α} {f : α → EStateM ε σ β} {s u : σ} {b : β} :
    (x >>= f) s = .ok b u ↔ ∃ a t, x s = .ok a t ∧ f a t = .ok b u := by
  rw [bind_apply]
  cases x s with
  | ok a t => exact ⟨fun h ↦ ⟨a, t, rfl, h⟩, by rintro ⟨_, _, ⟨⟩, h⟩; exact h⟩
  | error e t => simp

theorem bind_eq_error_iff {x : EStateM ε σ α} {f : α → EStateM ε σ β} {s u : σ} {e : ε} :
    (x >>= f) s = .error e u ↔
      x s = .error e u ∨ ∃ a t, x s = .ok a t ∧ f a t = .error e u := by
  rw [bind_apply]
  cases x s with
  | ok a t => exact ⟨fun h ↦ .inr ⟨a, t, rfl, h⟩, by rintro (⟨⟨⟩⟩ | ⟨_, _, ⟨⟩, h⟩); exact h⟩
  | error e t => simp

theorem map_eq_ok_iff {x : EStateM ε σ α} {f : α → β} {s t : σ} {b : β} :
    (f <$> x) s = .ok b t ↔ ∃ a, x s = .ok a t ∧ f a = b := by
  rw [map_apply]
  cases x s with
  | ok a u => exact ⟨by rintro ⟨⟩; exact ⟨a, rfl, rfl⟩, by rintro ⟨_, ⟨⟩, rfl⟩; rfl⟩
  | error e u => simp

theorem map_eq_error_iff {x : EStateM ε σ α} {f : α → β} {s t : σ} {e : ε} :
    (f <$> x) s = .error e t ↔ x s = .error e t := by
  rw [map_apply]
  cases x s with
  | ok a u => simp
  | error e u => simp

/-! ### Loops -/

/-- What every turn of a loop preserves is preserved by the loop, if that succeeds. -/
theorem of_mapM_eq_ok (inv : σ → Prop) {f : α → EStateM ε σ β} {as : List α}
    (hinv : ∀ a ∈ as, ∀ b s t, inv s → f a s = .ok b t → inv t) {bs : List β} {s t : σ} (hs : inv s)
    (h : as.mapM f s = .ok bs t) : inv t := by
  induction as generalizing bs s with
  | nil =>
    cases h
    exact hs
  | cons a as ih =>
    rw [List.mapM_cons, bind_eq_ok_iff] at h
    obtain ⟨b, u, hfirst, hrest⟩ := h
    obtain ⟨_, _, hrest, hlast⟩ := bind_eq_ok_iff.mp hrest
    cases hlast
    exact ih (fun a' ha' ↦ hinv a' (List.mem_cons_of_mem a ha'))
      (hinv a List.mem_cons_self b s u hs hfirst) hrest

theorem mapM_toList_of_mapM_eq_ok {f : α → EStateM ε σ β} {a? : Option α} {b? : Option β} {s t : σ}
    (h : a?.mapM f s = .ok b? t) : a?.toList.mapM f s = .ok b?.toList t := by
  cases a? with
  | none =>
    cases h
    rfl
  | some a =>
    obtain ⟨b, hb, rfl⟩ := map_eq_ok_iff.mp h
    rw [Option.toList_some, List.mapM_cons, bind_apply, hb]
    rfl

/-- If a loop fails, then at one of its elements, when it has succeeded for the elements before. -/
theorem exists_split_of_mapM_eq_error {f : α → EStateM ε σ β} {as : List α} {s t : σ} {e : ε}
    (h : as.mapM f s = .error e t) : ∃ before a after bs u, as = before ++ a :: after ∧
      before.mapM f s = .ok bs u ∧ f a u = .error e t := by
  induction as generalizing s with
  | nil => cases h
  | cons a as ih =>
    rw [List.mapM_cons, bind_eq_error_iff] at h
    rcases h with hfirst | ⟨b, u, hfirst, hrest⟩
    · exact ⟨[], a, as, [], s, rfl, rfl, hfirst⟩
    · rcases bind_eq_error_iff.mp hrest with hrest | ⟨_, _, _, ⟨⟩⟩
      obtain ⟨before, a', after, bs, v, rfl, hbefore, hfail⟩ := ih hrest
      refine ⟨a :: before, a', after, b :: bs, v, rfl, ?_, hfail⟩
      rw [List.mapM_cons, bind_apply, hfirst]
      dsimp only
      rw [bind_apply, hbefore]
      rfl

end EStateM

namespace Except

variable {ε α β : Type}

theorem bind_eq_ok_iff {x : Except ε α} {f : α → Except ε β} {b : β} :
    (x >>= f) = .ok b ↔ ∃ a, x = .ok a ∧ f a = .ok b := by
  cases x with
  | ok a => exact ⟨fun h ↦ ⟨a, rfl, h⟩, by rintro ⟨_, ⟨⟩, h⟩; exact h⟩
  | error e => exact ⟨by rintro ⟨⟩, by rintro ⟨_, ⟨⟩, _⟩⟩

theorem bind_eq_error_iff {x : Except ε α} {f : α → Except ε β} {e : ε} :
    (x >>= f) = .error e ↔ x = .error e ∨ ∃ a, x = .ok a ∧ f a = .error e := by
  cases x with
  | ok a => exact ⟨fun h ↦ .inr ⟨a, rfl, h⟩, by rintro (⟨⟨⟩⟩ | ⟨_, ⟨⟩, h⟩); exact h⟩
  | error e' => exact ⟨by rintro ⟨⟩; exact .inl rfl, by rintro (⟨⟨⟩⟩ | ⟨_, ⟨⟩, _⟩); rfl⟩

theorem map_eq_ok_iff {x : Except ε α} {f : α → β} {b : β} :
    f <$> x = .ok b ↔ ∃ a, x = .ok a ∧ f a = b := by
  cases x with
  | ok a => simp [Functor.map, Except.map]
  | error e => simp [Functor.map, Except.map]

theorem map_eq_error_iff {x : Except ε α} {f : α → β} {e : ε} :
    f <$> x = .error e ↔ x = .error e := by
  cases x with
  | ok a => simp [Functor.map, Except.map]
  | error e => simp [Functor.map, Except.map]

/-! ### Folds -/

variable {f : β → α → Except ε β} {as : List α} {b b' : β}

theorem of_foldlM_eq_ok (inv : β → Prop)
    (hstep : ∀ a ∈ as, ∀ b b', inv b → f b a = .ok b' → inv b') (hb : inv b)
    (h : as.foldlM f b = .ok b') : inv b' := by
  induction as generalizing b with
  | nil =>
    cases h
    exact hb
  | cons a as ih =>
    rw [List.foldlM_cons, bind_eq_ok_iff] at h
    obtain ⟨c, hfirst, hrest⟩ := h
    exact ih (fun a' ha' ↦ hstep a' (List.mem_cons_of_mem a ha'))
      (hstep a List.mem_cons_self b c hb hfirst) hrest

theorem exists_foldlM_eq_ok (inv : β → Prop)
    (hstep : ∀ a ∈ as, ∀ b, inv b → ∃ b', f b a = .ok b' ∧ inv b') (hb : inv b) :
    ∃ b', as.foldlM f b = .ok b' ∧ inv b' := by
  induction as generalizing b with
  | nil => exact ⟨b, rfl, hb⟩
  | cons a as ih =>
    obtain ⟨c, hfirst, hc⟩ := hstep a List.mem_cons_self b hb
    obtain ⟨b', hrest, hb'⟩ := ih (fun a' ha' ↦ hstep a' (List.mem_cons_of_mem a ha')) hc
    exact ⟨b', by rw [List.foldlM_cons, hfirst]; exact hrest, hb'⟩

theorem foldlM_map_of_step (g : β → β) (inv : β → Prop)
    (hinv : ∀ a ∈ as, ∀ b b', inv b → f b a = .ok b' → inv b')
    (hstep : ∀ a ∈ as, ∀ b, inv b → f (g b) a = g <$> f b a) (hb : inv b) :
    as.foldlM f (g b) = g <$> as.foldlM f b := by
  induction as generalizing b with
  | nil => rfl
  | cons a as ih =>
    rw [List.foldlM_cons, List.foldlM_cons, hstep a List.mem_cons_self b hb]
    cases hfirst : f b a with
    | error e => rfl
    | ok c =>
      exact ih (fun a' ha' ↦ hinv a' (List.mem_cons_of_mem a ha'))
        (fun a' ha' ↦ hstep a' (List.mem_cons_of_mem a ha'))
        (hinv a List.mem_cons_self b c hb hfirst)

end Except
