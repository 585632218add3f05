import Devicetree.Numeral

namespace Devicetree.Proofs

theorem digit_digitChar : ∀ {d : Nat}, d < 16 → Numeral.digit? (Nat.digitChar d) = some d := by
  decide

theorem extend_append (base n : Nat) (a b : List Char) :
    Numeral.extend base n (a ++ b) = (Numeral.extend base n a).bind fun m => Numeral.extend base m b := by
  induction a generalizing n with
  | nil => rfl
  | cons c a ih =>
    simp only [List.cons_append, Numeral.extend]
    cases Numeral.digit? c with
    | none => rfl
    | some d =>
      simp only
      split
      · exact ih _
      · rfl

/-- Digits read as the number that they were written for. -/
theorem extend_toDigits {base : Nat} (hbase : 1 < base) (hmost : base ≤ 16) (n : Nat) :
    Numeral.extend base 0 (Nat.toDigits base n) = some n := by
  induction n using Nat.strongRecOn with
  | ind n ih =>
    by_cases hn : n < base
    · simp [Nat.toDigits_of_lt_base hn, Numeral.extend, digit_digitChar (Nat.lt_of_lt_of_le hn hmost), hn]
    · have hlt : n % base < base := Nat.mod_lt _ (by omega)
      have hless : n / base < n := Nat.div_lt_self (by omega) hbase
      rw [Nat.toDigits_of_base_le hbase (by omega), extend_append, ih (n / base) hless]
      simp [Numeral.extend, digit_digitChar (Nat.lt_of_lt_of_le hlt hmost), hlt, Nat.div_add_mod]

theorem mem_toDigits {base : Nat} (hbase : 1 < base) {c : Char} {n : Nat}
    (h : c ∈ Nat.toDigits base n) : ∃ d, d < base ∧ c = Nat.digitChar d := by
  induction n using Nat.strongRecOn with
  | ind n ih =>
    by_cases hn : n < base
    · rw [Nat.toDigits_of_lt_base hn] at h
      exact ⟨n, hn, List.mem_singleton.mp h⟩
    · have hless : n / base < n := Nat.div_lt_self (by omega) hbase
      rw [Nat.toDigits_of_base_le hbase (by omega)] at h
      rcases List.mem_append.mp h with hinit | hlast
      · exact ih (n / base) hless hinit
      · exact ⟨n % base, Nat.mod_lt _ (by omega), List.mem_singleton.mp hlast⟩

theorem word_of_digits {base n : Nat} {cs : List Char} (hplus : '+' ∉ cs) (hne : cs ≠ [])
    (h : Numeral.extend base 0 cs = some n) (hn : n < UInt64.size) :
    Numeral.word? base cs = some (UInt64.ofNat n) := by
  have hdigits : Numeral.digits? base cs = some n := by
    simp [Numeral.digits?, hne, h]
  unfold Numeral.word?
  split
  · simp at hplus
  · simp [hdigits, hn]

/-- Only zero is written with a zero in front. -/
theorem head_toDigits {base n : Nat} (hbase : 1 < base) (hmost : base ≤ 16) (hn : 0 < n) :
    (Nat.toDigits base n).head? ≠ some '0' := by
  induction n using Nat.strongRecOn with
  | ind n ih =>
    by_cases hlt : n < base
    · rw [Nat.toDigits_of_lt_base hlt]
      have hall : ∀ d < 16, 0 < d → Nat.digitChar d ≠ '0' := by decide
      simpa using hall n (Nat.lt_of_lt_of_le hlt hmost) hn
    · have hless : n / base < n := Nat.div_lt_self (by omega) hbase
      have hpos : 0 < n / base := Nat.div_pos (by omega) (by omega)
      rw [Nat.toDigits_of_base_le hbase (by omega), List.head?_append]
      cases hhead : (Nat.toDigits base (n / base)).head? with
      | none => exact absurd (List.head?_eq_none_iff.mp hhead) Nat.toDigits_ne_nil
      | some c => simpa [hhead] using ih (n / base) hless hpos

theorem unsigned_toDigits {n : Nat} (hn : n < UInt64.size) :
    Numeral.unsigned? (Nat.toDigits 10 n) = some (UInt64.ofNat n) := by
  have hdigit : ∀ c ∈ Nat.toDigits 10 n, c.isDigit = true :=
    fun c hc => Nat.isDigit_of_mem_toDigits (by omega) (by omega) hc
  have hplus : '+' ∉ Nat.toDigits 10 n := fun hc => by simpa using hdigit '+' hc
  have hread : Numeral.word? 10 (Nat.toDigits 10 n) = some (UInt64.ofNat n) :=
    word_of_digits hplus Nat.toDigits_ne_nil (extend_toDigits (by omega) (by omega) n) hn
  unfold Numeral.unsigned?
  split
  · rename_i cs hcs
    have := hdigit 'x' (by simp [hcs])
    simp at this
  · rename_i cs hcs
    have := hdigit 'X' (by simp [hcs])
    simp at this
  · rename_i c cs _ _ hcs
    have hzero : n = 0 := by
      apply Nat.eq_zero_of_not_pos
      intro hpos
      have hhead : (Nat.toDigits 10 n).head? ≠ some '0' := head_toDigits (by omega) (by omega) hpos
      simp [hcs] at hhead
    subst hzero
    cases hcs
  · rename_i c cs _ _ _ hcs
    rw [if_pos (hdigit c (by simp [hcs])), ← hcs, hread]
  · rename_i hcs
    exact absurd hcs Nat.toDigits_ne_nil

/-- A decimal literal reads as the number that it was written for. -/
theorem literal_toDigits {n : Nat} (hn : n < UInt64.size) :
    Numeral.literal? (String.ofList (Nat.toDigits 10 n)) = some (UInt64.ofNat n).toInt64 := by
  have hend : (Nat.toDigits 10 n).reverse.dropWhile Numeral.isSuffix = (Nat.toDigits 10 n).reverse := by
    cases hlast : (Nat.toDigits 10 n).reverse with
    | nil => rfl
    | cons c cs =>
      have hmem : c ∈ Nat.toDigits 10 n := List.mem_reverse.mp (by simp [hlast])
      have hc : Numeral.isSuffix c = false := by
        have hdigit := Nat.isDigit_of_mem_toDigits (by omega) (by omega) hmem
        cases hs : Numeral.isSuffix c with
        | false => rfl
        | true =>
          simp only [Numeral.isSuffix, Bool.or_eq_true, decide_eq_true_eq, or_assoc] at hs
          rcases hs with rfl | rfl | rfl | rfl <;> simp at hdigit
      simp [hc]
  rw [Numeral.literal?, String.toList_ofList, hend, List.reverse_reverse, unsigned_toDigits hn]
  rfl

end Devicetree.Proofs
