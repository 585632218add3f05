import Mathlib.Data.Nat.Digits.Defs
import Devicetree.Proofs.Numerals

namespace Devicetree.Proofs

/-- The value of a digit, which is its place among the digits. What is no digit of base sixteen comes after them. -/
def digitValue (c : Char) : Nat := "0123456789abcdef".toList.idxOf c.toLower

def placeValue (base : Nat) (cs : List Char) : Nat := Nat.ofDigits base (cs.reverse.map digitValue)

structure Writes (base : Nat) (cs : List Char) (n : Nat) : Prop where
  nonempty : cs ≠ []
  digits : ∀ c ∈ cs, digitValue c < base
  value : n = placeValue base cs

theorem writes_iff {base n : Nat} {cs : List Char} : Writes base cs n ↔
    cs ≠ [] ∧ (cs.all fun c => decide (digitValue c < base)) = true ∧ n = placeValue base cs := by
  simp only [List.all_eq_true, decide_eq_true_eq]
  exact ⟨fun h => ⟨h.nonempty, h.digits, h.value⟩, fun h => ⟨h.1, h.2.1, h.2.2⟩⟩

instance (base n : Nat) (cs : List Char) : Decidable (Writes base cs n) := decidable_of_iff _ writes_iff.symm

section Digits
variable {c : Char}

/-- Beyond ASCII there are no digits. -/
theorem no_digit_of_large (h : 128 ≤ c.toNat) : Numeral.digit? c = none ∧ ¬ digitValue c < 16 := by
  have hbeyond : ∀ {d : Char}, d.toNat < 128 → ¬ c ≤ d := by
    intro d hd hle
    have := UInt32.le_iff_toNat_le.mp hle
    change c.toNat ≤ d.toNat at this
    omega
  constructor
  · have hdigit : c.isDigit = false := by
      cases hc : c.isDigit with
      | false => rfl
      | true => exact absurd (of_decide_eq_true (Bool.and_eq_true_iff.mp hc).2) (hbeyond (d := '9') (by decide))
    simp [Numeral.digit?, hdigit, hbeyond (d := 'f') (by decide), hbeyond (d := 'F') (by decide)]
  · have hlower : c.toLower = c := dif_neg fun hc => hbeyond (d := 'Z') (by decide) hc.2
    have hall : ("0123456789abcdef".toList.all fun d => decide (d.toNat < 128)) = true := by decide
    intro hlt
    have hmem := List.idxOf_lt_length_iff.mp (show digitValue c < "0123456789abcdef".toList.length from hlt)
    rw [hlower] at hmem
    exact hbeyond (of_decide_eq_true (List.all_eq_true.mp hall c hmem)) (Char.le_refl c)

/-- The digits of bases up to sixteen are read with their values. -/
theorem digit_eq (c : Char) : Numeral.digit? c = if digitValue c < 16 then some (digitValue c) else none := by
  by_cases hc : c.toNat < 128
  · have hall : ∀ n < 128, Numeral.digit? (Char.ofNat n) =
        if digitValue (Char.ofNat n) < 16 then some (digitValue (Char.ofNat n)) else none := by
      decide +kernel
    have hthis := hall c.toNat hc
    rwa [Char.ofNat_toNat] at hthis
  · obtain ⟨hnone, hlarge⟩ := no_digit_of_large (Nat.le_of_not_lt hc)
    rw [hnone, if_neg hlarge]

end Digits

section Places
variable {base n m : Nat} {cs : List Char}

theorem placeValue_cons (base : Nat) (c : Char) (cs : List Char) :
    placeValue base (c :: cs) = placeValue base cs + base ^ cs.length * digitValue c := by
  simp [placeValue, Nat.ofDigits_append]

theorem placeValue_zero (base : Nat) (cs : List Char) : placeValue base ('0' :: cs) = placeValue base cs := by
  have hzero : digitValue '0' = 0 := by decide
  rw [placeValue_cons, hzero]
  rfl

/-- Digits are appended to a number by their places. -/
theorem extend_eq_some_iff (hmost : base ≤ 16) : Numeral.extend base n cs = some m ↔
    (∀ c ∈ cs, digitValue c < base) ∧ m = n * base ^ cs.length + placeValue base cs := by
  induction cs generalizing n with
  | nil => simp [Numeral.extend, placeValue, eq_comm]
  | cons c cs ih =>
    by_cases hc : digitValue c < base
    · have hshift : (base * n + digitValue c) * base ^ cs.length + placeValue base cs =
          n * base ^ (cs.length + 1) + placeValue base (c :: cs) := by
        rw [placeValue_cons]
        ring
      simp [Numeral.extend, digit_eq, Nat.lt_of_lt_of_le hc hmost, hc, ih, hshift]
    · have hnone : Numeral.extend base n (c :: cs) = none := by
        simp only [Numeral.extend, digit_eq]
        split <;> simp_all
      simp [hnone, hc]

theorem digits_eq_some_iff (hmost : base ≤ 16) : Numeral.digits? base cs = some m ↔ Writes base cs m := by
  cases cs with
  | nil => exact ⟨nofun, fun h => absurd rfl h.nonempty⟩
  | cons c cs =>
    rw [Numeral.digits?, List.isEmpty_cons, if_neg Bool.false_ne_true, extend_eq_some_iff hmost,
      Nat.zero_mul, Nat.zero_add]
    exact ⟨fun h => ⟨List.cons_ne_nil _ _, h.1, h.2⟩, fun h => ⟨h.digits, h.value⟩⟩

theorem plus_not_digit (hmost : base ≤ 16) : ¬ Writes base ('+' :: cs) m := by
  intro h
  have hplus : digitValue '+' = 16 := by decide
  have := h.digits '+' List.mem_cons_self
  omega

theorem fits_word_iff {w : UInt64} :
    (if n < UInt64.size then some (UInt64.ofNat n) else none) = some w ↔ n = w.toNat := by
  constructor
  · intro h
    split at h
    · rename_i hn
      rw [← Option.some.inj h, UInt64.toNat_ofNat_of_lt' hn]
    · cases h
  · rintro rfl
    rw [if_pos w.toNat_lt, UInt64.ofNat_toNat]

theorem word_after_plus (hmost : base ≤ 16) {w : UInt64} :
    Numeral.word? base ('+' :: cs) = some w ↔ Writes base cs w.toNat := by
  rw [← digits_eq_some_iff hmost]
  simp only [Numeral.word?]
  cases Numeral.digits? base cs with
  | none => simp
  | some n => simpa using fits_word_iff

/-- A plus sign in front may be left out. -/
theorem word_without_plus (hplus : ∀ ds, cs ≠ '+' :: ds) :
    Numeral.word? base cs = Numeral.word? base ('+' :: cs) := by
  unfold Numeral.word?
  split
  · exact absurd rfl (hplus _)
  · rfl

/-- A word is read from its digits, with or without a plus sign in front of them. -/
theorem word_eq_some_iff (hmost : base ≤ 16) {w : UInt64} : Numeral.word? base cs = some w ↔
    Writes base cs w.toNat ∨ ∃ ds, cs = '+' :: ds ∧ Writes base ds w.toNat := by
  by_cases hplus : ∃ ds, cs = '+' :: ds
  · obtain ⟨ds, rfl⟩ := hplus
    rw [word_after_plus hmost]
    constructor
    · exact fun h => .inr ⟨ds, rfl, h⟩
    · rintro (h | ⟨_, he, h⟩)
      · exact absurd h (plus_not_digit hmost)
      · cases he
        exact h
  · rw [word_without_plus fun ds he => hplus ⟨ds, he⟩, word_after_plus hmost]
    exact ⟨.inl, fun h => h.resolve_right fun ⟨ds, he, _⟩ => hplus ⟨ds, he⟩⟩

end Places

end Devicetree.Proofs
