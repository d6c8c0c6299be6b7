import JavaClass.Text.Utf16

/-!
# Texts and their units

UTF-16 has one spelling for each text: what is written for a text is read as that text, and no other
units are. Both directions come down to single characters. A pair of surrogates carries twenty bits
above `0x10000`, which is just what there is of characters that need two units; and a unit that is
no surrogate is a character by itself.
-/

namespace JavaClass.Utf16

variable {u v : UInt16} {units : List UInt16} {s : String}

theorem isHighSurrogate_iff : isHighSurrogate u = true ↔ 0xD800 ≤ u.toNat ∧ u.toNat < 0xDC00 := by
  simp [isHighSurrogate, UInt16.le_iff_toNat_le, UInt16.lt_iff_toNat_lt]

theorem isLowSurrogate_iff : isLowSurrogate u = true ↔ 0xDC00 ≤ u.toNat ∧ u.toNat < 0xE000 := by
  simp [isLowSurrogate, UInt16.le_iff_toNat_le, UInt16.lt_iff_toNat_lt]

theorem toNat_ofNat {n : Nat} (h : n < 0x10000) : (UInt16.ofNat n).toNat = n :=
  UInt16.toNat_ofNat_of_lt' h

/-! ## Characters -/

theorem isValidChar_toNat (c : Char) :
    c.toNat < 0xD800 ∨ 0xDFFF < c.toNat ∧ c.toNat < 0x110000 := c.valid

theorem toNat_charOfNat {n : Nat} (h : n < 0xD800 ∨ 0xDFFF < n ∧ n < 0x110000) :
    (Char.ofNat n).toNat = n := by
  rw [Char.ofNat, dif_pos h]
  rfl

theorem unitsOfChar_of_lt {c : Char} (h : c.toNat < 0x10000) :
    unitsOfChar c = [UInt16.ofNat c.toNat] := by
  rw [unitsOfChar, if_pos h]

theorem unitsOfChar_of_eq_add {c : Char} {offset : Nat} (h : c.toNat = 0x10000 + offset) :
    unitsOfChar c =
      [UInt16.ofNat (0xD800 + offset / 0x400), UInt16.ofNat (0xDC00 + offset % 0x400)] := by
  rw [unitsOfChar, if_neg (by omega), h, Nat.add_sub_cancel_left]

theorem decodeAfter?_unitsOfChar (c : Char) (read : List Char) (rest : List UInt16) :
    decodeAfter? read (unitsOfChar c ++ rest) = decodeAfter? (c :: read) rest := by
  have hvalid := isValidChar_toNat c
  rcases Nat.lt_or_ge c.toNat 0x10000 with hone | htwo
  · have hunit := toNat_ofNat hone
    have hhigh : ¬ isHighSurrogate (UInt16.ofNat c.toNat) = true := by
      rw [isHighSurrogate_iff]
      omega
    have hlow : ¬ isLowSurrogate (UInt16.ofNat c.toNat) = true := by
      rw [isLowSurrogate_iff]
      omega
    rw [unitsOfChar_of_lt hone, List.singleton_append, decodeAfter?.eq_def]
    simp only [hhigh, hlow, hunit, Char.ofNat_toNat, if_false, Bool.false_eq_true]
  · obtain ⟨offset, hoffset⟩ := Nat.exists_eq_add_of_le htwo
    have hfirst : (UInt16.ofNat (0xD800 + offset / 0x400)).toNat = 0xD800 + offset / 0x400 :=
      toNat_ofNat (by omega)
    have hsecond : (UInt16.ofNat (0xDC00 + offset % 0x400)).toNat = 0xDC00 + offset % 0x400 :=
      toNat_ofNat (by omega)
    have hhigh : isHighSurrogate (UInt16.ofNat (0xD800 + offset / 0x400)) = true := by
      rw [isHighSurrogate_iff]
      omega
    have hlow : isLowSurrogate (UInt16.ofNat (0xDC00 + offset % 0x400)) = true := by
      rw [isLowSurrogate_iff]
      omega
    have hnumber : 0x10000 + (0xD800 + offset / 0x400 - 0xD800) * 0x400 +
        (0xDC00 + offset % 0x400 - 0xDC00) = c.toNat := by omega
    have hchar : charOfPair (UInt16.ofNat (0xD800 + offset / 0x400))
        (UInt16.ofNat (0xDC00 + offset % 0x400)) = c := by
      rw [charOfPair, hfirst, hsecond, hnumber, Char.ofNat_toNat]
    rw [unitsOfChar_of_eq_add hoffset, List.cons_append, List.singleton_append,
      decodeAfter?.eq_def]
    simp only [hhigh, hlow, hchar, if_true]

theorem unitsOfChar_ofNat (hhigh : ¬ isHighSurrogate u = true) (hlow : ¬ isLowSurrogate u = true) :
    unitsOfChar (Char.ofNat u.toNat) = [u] := by
  rw [isHighSurrogate_iff] at hhigh
  rw [isLowSurrogate_iff] at hlow
  have hlt : u.toNat < 0x10000 := u.toNat_lt
  have hnumber : (Char.ofNat u.toNat).toNat = u.toNat := toNat_charOfNat (by omega)
  rw [unitsOfChar_of_lt (by rwa [hnumber]), hnumber, UInt16.ofNat_toNat]

theorem unitsOfChar_charOfPair (hu : isHighSurrogate u = true) (hv : isLowSurrogate v = true) :
    unitsOfChar (charOfPair u v) = [u, v] := by
  rw [isHighSurrogate_iff] at hu
  rw [isLowSurrogate_iff] at hv
  have hnumber : (charOfPair u v).toNat =
      0x10000 + ((u.toNat - 0xD800) * 0x400 + (v.toNat - 0xDC00)) := by
    rw [charOfPair, toNat_charOfNat (by omega), Nat.add_assoc]
  have hhigh : 0xD800 + ((u.toNat - 0xD800) * 0x400 + (v.toNat - 0xDC00)) / 0x400 = u.toNat := by
    omega
  have hlow : 0xDC00 + ((u.toNat - 0xD800) * 0x400 + (v.toNat - 0xDC00)) % 0x400 = v.toNat := by
    omega
  rw [unitsOfChar_of_eq_add hnumber, hhigh, hlow, UInt16.ofNat_toNat, UInt16.ofNat_toNat]

/-! ## Texts -/

theorem decodeAfter?_flatMap (cs read : List Char) :
    decodeAfter? read (cs.flatMap unitsOfChar) = some (read.reverse ++ cs) := by
  induction cs generalizing read with
  | nil => simp [decodeAfter?]
  | cons c cs ih =>
    rw [List.flatMap_cons, decodeAfter?_unitsOfChar, ih]
    simp

/-- Nothing is lost: the characters read before and the units still to be read make up the text. -/
theorem flatMap_of_decodeAfter? {read cs : List Char} (h : decodeAfter? read units = some cs) :
    cs.flatMap unitsOfChar = read.reverse.flatMap unitsOfChar ++ units := by
  fun_induction decodeAfter? read units with
  | case1 read =>
    cases h
    simp
  | case3 read u hu v rest hv ih =>
    rw [ih h]
    simp [unitsOfChar_charOfPair hu hv]
  | case6 read u rest hhigh hlow ih =>
    rw [ih h]
    simp [unitsOfChar_ofNat hhigh hlow]
  | _ => cases h

/-- **Each text has one spelling.** -/
theorem decode?_eq_some_iff : decode? units = some s ↔ encode s = units := by
  rw [decode?, Option.map_eq_some_iff]
  constructor
  · rintro ⟨cs, hcs, rfl⟩
    simpa [encode] using flatMap_of_decodeAfter? hcs
  · rintro rfl
    exact ⟨s.toList, decodeAfter?_flatMap s.toList [], String.ofList_toList⟩

/-! ## Pairs -/

/-- The surrogates stand in pairs. -/
structure Paired (units : List UInt16) : Prop where
  high : ∀ (i : Nat) u, units[i]? = some u → isHighSurrogate u = true →
    ∃ v, units[i + 1]? = some v ∧ isLowSurrogate v = true
  low : ∀ (i : Nat) v, units[i]? = some v → isLowSurrogate v = true →
    ∃ j u, i = j + 1 ∧ units[j]? = some u ∧ isHighSurrogate u = true

theorem not_isLowSurrogate_of_isHighSurrogate (h : isHighSurrogate u = true) :
    ¬ isLowSurrogate u = true := by
  rw [isHighSurrogate_iff] at h
  rw [isLowSurrogate_iff]
  omega

theorem paired_nil : Paired [] := ⟨by simp, by simp⟩

theorem not_paired_singleton (hu : isHighSurrogate u = true) : ¬ Paired [u] := by
  intro h
  obtain ⟨v, hv, _⟩ := h.high 0 u rfl hu
  cases hv

theorem isLowSurrogate_of_paired (h : Paired (u :: v :: units)) (hu : isHighSurrogate u = true) :
    isLowSurrogate v = true := by
  obtain ⟨w, ⟨⟩, hw⟩ := h.high 0 u rfl hu
  exact hw

theorem not_paired_cons_low (hu : isLowSurrogate u = true) : ¬ Paired (u :: units) := by
  intro h
  obtain ⟨j, _, hj, _⟩ := h.low 0 u rfl hu
  cases hj

/-- A unit that is no surrogate does not matter to the others. -/
theorem paired_cons_iff (hhigh : ¬ isHighSurrogate u = true) (hlow : ¬ isLowSurrogate u = true) :
    Paired (u :: units) ↔ Paired units := by
  constructor
  · intro h
    refine ⟨fun i ↦ h.high (i + 1), fun i v hv hvlow ↦ ?_⟩
    obtain ⟨j, w, hj, hw, hwhigh⟩ := h.low (i + 1) v hv hvlow
    obtain rfl : i = j := by omega
    cases i with
    | zero =>
      cases hw
      exact absurd hwhigh hhigh
    | succ i => exact ⟨i, w, rfl, hw, hwhigh⟩
  · intro h
    constructor
    · rintro (_ | i) w hw hwhigh
      · cases hw
        exact absurd hwhigh hhigh
      · exact h.high i w hw hwhigh
    · rintro (_ | i) w hw hwlow
      · cases hw
        exact absurd hwlow hlow
      · obtain ⟨j, x, rfl, hx, hxhigh⟩ := h.low i w hw hwlow
        exact ⟨j + 1, x, rfl, hx, hxhigh⟩

/-- Nor does a pair. -/
theorem paired_cons_cons_iff (hu : isHighSurrogate u = true) (hv : isLowSurrogate v = true) :
    Paired (u :: v :: units) ↔ Paired units := by
  have hulow := not_isLowSurrogate_of_isHighSurrogate hu
  have hvhigh : ¬ isHighSurrogate v = true := fun h ↦ not_isLowSurrogate_of_isHighSurrogate h hv
  constructor
  · intro h
    refine ⟨fun i ↦ h.high (i + 2), fun i w hw hwlow ↦ ?_⟩
    obtain ⟨j, x, hj, hx, hxhigh⟩ := h.low (i + 2) w hw hwlow
    obtain rfl : j = i + 1 := by omega
    cases i with
    | zero =>
      cases hx
      exact absurd hxhigh hvhigh
    | succ i => exact ⟨i, x, rfl, hx, hxhigh⟩
  · intro h
    constructor
    · rintro (_ | _ | i) w hw hwhigh
      · exact ⟨v, rfl, hv⟩
      · cases hw
        exact absurd hwhigh hvhigh
      · exact h.high i w hw hwhigh
    · rintro (_ | _ | i) w hw hwlow
      · cases hw
        exact absurd hwlow hulow
      · exact ⟨0, u, rfl, rfl, hu⟩
      · obtain ⟨j, x, rfl, hx, hxhigh⟩ := h.low i w hw hwlow
        exact ⟨j + 2, x, rfl, hx, hxhigh⟩

theorem isSome_decodeAfter?_iff (read : List Char) :
    (decodeAfter? read units).isSome = true ↔ Paired units := by
  fun_induction decodeAfter? read units with
  | case1 read => simpa using paired_nil
  | case2 read u hu => simpa using not_paired_singleton hu
  | case3 read u hu v rest hv ih => rw [ih, paired_cons_cons_iff hu hv]
  | case4 read u hu v rest hv => simpa using fun h ↦ hv (isLowSurrogate_of_paired h hu)
  | case5 read u rest hhigh hlow => simpa using not_paired_cons_low hlow
  | case6 read u rest hhigh hlow ih => rw [ih, paired_cons_iff hhigh hlow]

/-- **The units of texts** are those in which the surrogates stand in pairs. -/
theorem exists_encode_eq_iff : (∃ s, encode s = units) ↔ Paired units := by
  rw [← isSome_decodeAfter?_iff [], ← Option.isSome_map (f := String.ofList),
    Option.isSome_iff_exists]
  exact exists_congr fun s ↦ decode?_eq_some_iff.symm

end JavaClass.Utf16
