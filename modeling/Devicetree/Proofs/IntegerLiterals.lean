import Mathlib.Data.List.DropRight
import Devicetree.Proofs.PlaceValues
import Devicetree.Proofs.TidySources

namespace Devicetree.Proofs

/-- An integer literal without its suffix, and the number that it stands for. A zero in front makes it octal. -/
inductive Unsuffixed : List Char → Nat → Prop
  | decimal {c : Char} {cs : List Char} {n : Nat} (hc : c ≠ '0') (h : Writes 10 (c :: cs) n) :
      Unsuffixed (c :: cs) n
  | octal {cs : List Char} {n : Nat} (h : Writes 8 ('0' :: cs) n) : Unsuffixed ('0' :: cs) n
  | hex {x : Char} {cs : List Char} {n : Nat} (hx : x = 'x' ∨ x = 'X') (h : Writes 16 cs n) :
      Unsuffixed ('0' :: x :: cs) n

/-- The text is made of letters, digits and underscores of ASCII. -/
def Wordy (text : String) : Prop := ∀ c ∈ text.toList, c.isAlphanum = true ∨ c = '_'

instance (text : String) : Decidable (Wordy text) := List.decidableBAll _ text.toList

section Digits
variable {base n : Nat} {c : Char} {cs : List Char}

theorem isDigit_iff : c.isDigit = true ↔ digitValue c < 10 := by
  have hread := digit_eq c
  unfold Numeral.digit? at hread
  constructor
  · intro hc
    rw [if_pos hc] at hread
    split at hread
    · have hvalue := Option.some.inj hread
      have hle : c.toNat ≤ 57 := UInt32.le_iff_toNat_le.mp (of_decide_eq_true (Bool.and_eq_true_iff.mp hc).2)
      have hzero : '0'.toNat = 48 := rfl
      omega
    · cases hread
  · intro hc
    rw [if_pos (by omega : digitValue c < 16)] at hread
    apply Classical.byContradiction
    intro hdigit
    rw [if_neg hdigit] at hread
    split at hread
    · have := Option.some.inj hread
      omega
    · split at hread
      · have := Option.some.inj hread
        omega
      · cases hread

theorem word_of_no_plus (hmost : base ≤ 16) (hplus : '+' ∉ cs) {w : UInt64} :
    Numeral.word? base cs = some w ↔ Writes base cs w.toNat := by
  have hbare : ∀ ds, cs ≠ '+' :: ds := by
    rintro ds rfl
    exact hplus List.mem_cons_self
  rw [word_without_plus hbare, word_after_plus hmost]

/-- A zero in front of digits changes nothing. -/
theorem writes_zero_iff (hbase : 0 < base) (hne : cs ≠ []) : Writes base ('0' :: cs) n ↔ Writes base cs n := by
  have hzero : digitValue '0' = 0 := by decide
  constructor
  · intro h
    exact ⟨hne, fun c hc => h.digits c (List.mem_cons_of_mem _ hc), by rw [h.value, placeValue_zero]⟩
  · intro h
    refine ⟨List.cons_ne_nil _ _, ?_, by rw [h.value, placeValue_zero]⟩
    intro c hc
    rcases List.mem_cons.mp hc with rfl | hc
    · omega
    · exact h.digits c hc

theorem writes_single_zero : Writes base ['0'] n ↔ 0 < base ∧ n = 0 := by
  have hzero : digitValue '0' = 0 := by decide
  constructor
  · intro h
    have := h.digits '0' List.mem_cons_self
    exact ⟨by omega, by rw [h.value, placeValue_zero]; rfl⟩
  · rintro ⟨hbase, rfl⟩
    exact ⟨List.cons_ne_nil _ _, by simpa [hzero] using hbase, by rw [placeValue_zero]; rfl⟩

end Digits

section Unsigned
variable {c : Char} {cs : List Char} {n : Nat}

theorem unsuffixed_hex_iff {x : Char} (hx : x = 'x' ∨ x = 'X') :
    Unsuffixed ('0' :: x :: cs) n ↔ Writes 16 cs n := by
  constructor
  · intro h
    cases h with
    | decimal hc _ => exact absurd rfl hc
    | octal h =>
      have hlarge : digitValue 'x' = 16 ∧ digitValue 'X' = 16 := by decide
      have := h.digits x (by simp)
      rcases hx with rfl | rfl <;> omega
    | hex _ h => exact h
  · exact .hex hx

theorem unsuffixed_octal_iff (hx : c ≠ 'x') (hX : c ≠ 'X') :
    Unsuffixed ('0' :: c :: cs) n ↔ Writes 8 (c :: cs) n := by
  rw [← writes_zero_iff (by omega) (List.cons_ne_nil c cs)]
  constructor
  · intro h
    cases h with
    | decimal hc _ => exact absurd rfl hc
    | octal h => exact h
    | hex hmark _ => rcases hmark with rfl | rfl <;> contradiction
  · exact .octal

theorem unsuffixed_decimal_iff (hc : c = '0' → cs = []) :
    Unsuffixed (c :: cs) n ↔ Writes 10 (c :: cs) n := by
  by_cases hzero : c = '0'
  · obtain rfl := hc hzero
    subst hzero
    constructor
    · intro h
      cases h with
      | decimal hc _ => exact absurd rfl hc
      | octal h => exact writes_single_zero.mpr ⟨by omega, (writes_single_zero.mp h).2⟩
    · intro h
      exact .octal (writes_single_zero.mpr ⟨by omega, (writes_single_zero.mp h).2⟩)
  · constructor
    · intro h
      cases h with
      | decimal _ h => exact h
      | octal | hex => exact absurd rfl hzero
    · exact .decimal hzero

theorem unsigned_eq_some_iff (hplus : '+' ∉ cs) {w : UInt64} :
    Numeral.unsigned? cs = some w ↔ Unsuffixed cs w.toNat := by
  unfold Numeral.unsigned?
  split
  · rename_i cs
    rw [word_of_no_plus (by omega) (by simp_all), unsuffixed_hex_iff (.inl rfl)]
  · rename_i cs
    rw [word_of_no_plus (by omega) (by simp_all), unsuffixed_hex_iff (.inr rfl)]
  · rename_i c cs hx hX
    rw [word_of_no_plus (by omega) (by simp_all),
      unsuffixed_octal_iff (fun he => hx (he ▸ rfl)) (fun he => hX (he ▸ rfl))]
  · rename_i c cs hx hX hzero
    have hc : c = '0' → cs = [] := by
      rintro rfl
      cases cs with
      | nil => rfl
      | cons d ds => exact (hzero d ds rfl rfl).elim
    rw [unsuffixed_decimal_iff hc]
    split
    · rw [word_of_no_plus (by omega) hplus]
    · rename_i hdigit
      constructor
      · nofun
      · intro h
        exact absurd (isDigit_iff.mpr (h.digits c List.mem_cons_self)) hdigit
  · exact ⟨nofun, nofun⟩

end Unsigned

section Suffixes

theorem suffix_iff (c : Char) : Numeral.isSuffix c = true ↔ c ∈ ['u', 'U', 'l', 'L'] := by
  simp [Numeral.isSuffix, or_assoc]

theorem not_suffix_of_digit {c : Char} (h : digitValue c < 16) : Numeral.isSuffix c = false := by
  cases hs : Numeral.isSuffix c with
  | false => rfl
  | true =>
    have hlarge : (['u', 'U', 'l', 'L'].all fun d => decide (digitValue d = 16)) = true := by decide
    have := of_decide_eq_true (List.all_eq_true.mp hlarge c ((suffix_iff c).mp hs))
    omega

theorem Writes.last {base n : Nat} {cs : List Char} (h : Writes base cs n) (hmost : base ≤ 16) :
    ∀ c ∈ cs.getLast?, Numeral.isSuffix c = false := fun c hc =>
  not_suffix_of_digit (Nat.lt_of_lt_of_le (h.digits c (List.mem_of_mem_getLast? hc)) hmost)

theorem Unsuffixed.last {cs : List Char} {n : Nat} (h : Unsuffixed cs n) :
    ∀ c ∈ cs.getLast?, Numeral.isSuffix c = false := by
  cases h with
  | decimal _ h | octal h => exact h.last (by omega)
  | @hex x cs _ _ h =>
    obtain ⟨d, ds, rfl⟩ := List.exists_cons_of_ne_nil h.nonempty
    simpa using h.last (Nat.le_refl 16)

/-- Suffixes are found again behind a literal. -/
theorem trimmed_append {p : Char → Bool} {cs suffix : List Char} (hsuffix : ∀ c ∈ suffix, p c = true)
    (hlast : ∀ c ∈ cs.getLast?, p c = false) : (cs ++ suffix).rdropWhile p = cs := by
  rw [List.rdropWhile, List.reverse_append, List.dropWhile_append_of_pos (by simpa using hsuffix),
    dropWhile_of_head (by simpa using hlast), List.reverse_reverse]

theorem toInt_toInt64 (w : UInt64) :
    w.toInt64.toInt = if w.toNat < 2 ^ 63 then (w.toNat : Int) else w.toNat - 2 ^ 64 := by
  have hlt : w.toNat < 2 ^ 64 := w.toNat_lt
  have hbits : w.toInt64.toInt = (w.toNat : Int).bmod Int64.size := by
    rw [← Int64.toInt_ofNat', ← UInt64.toInt64_ofNat', UInt64.ofNat_toNat]
  rw [hbits, Int.bmod_def, Int64.size]
  split <;> split <;> omega

end Suffixes

/-- A number that the scanner finds is wordy. -/
theorem wordy_of_number {source : String} {t : Token} (ht : t ∈ Token.tokenize source) (hkind : t.kind = .number) :
    Wordy t.text := by
  obtain ⟨ls, hls⟩ := exists_lexes source.toList
  rw [hls.tokenize] at ht
  have hl : Lexeme.ofToken t ∈ ls := by
    have hmem : Lexeme.ofToken t ∈ (lay 0 ls).map Lexeme.ofToken :=
      List.mem_map_of_mem (List.mem_filter.mp ht).1
    rwa [ofToken_lay] at hmem
  obtain ⟨before, after, rfl⟩ := List.append_of_mem hl
  obtain ⟨c, cs, rest, hchars, hlex⟩ := hls.lexeme
  have hclean : Clean .number (c :: cs) := ⟨by simp, by simp, by simp⟩
  have hnumber : Token.lexeme c (cs ++ rest) = (.number, cs.length) := by rw [hlex, ← hkind]; rfl
  have htext : t.text.toList = c :: cs := hchars
  intro d hd
  rw [htext] at hd
  cases (Formed.of_lexeme hnumber hclean).1 with
  | number hc hcs =>
    have hrest : Token.isIdentRest d = true := by
      rcases List.mem_cons.mp hd with rfl | hd
      · exact rest_of_digit hc
      · exact hcs d hd
    simpa [Token.isIdentRest] using hrest

/-- Every number that the scanner finds is wordy. A wordy text is read as an integer literal if and only if it is one
with a number below `2 ^ 64` and any run of suffixes, and its value is the word with the bits of that number. -/
theorem literal_reads_words :
    (∀ source, ∀ t ∈ Token.tokenize source, t.kind = .number → Wordy t.text) ∧
    ∀ text, Wordy text → ∀ v : Int64, Numeral.literal? text = some v ↔
      ∃ cs suffix n, text.toList = cs ++ suffix ∧ Unsuffixed cs n ∧ (∀ c ∈ suffix, c ∈ ['u', 'U', 'l', 'L']) ∧
        n < 2 ^ 64 ∧ v.toInt = if n < 2 ^ 63 then (n : Int) else n - 2 ^ 64 := by
  refine ⟨fun source t ht hkind => wordy_of_number ht hkind, ?_⟩
  intro text hwordy v
  have hplus : '+' ∉ text.toList := fun h => by simpa using hwordy '+' h
  have hread : Numeral.literal? text =
      (Numeral.unsigned? (text.toList.rdropWhile Numeral.isSuffix)).map UInt64.toInt64 := rfl
  rw [hread, Option.map_eq_some_iff]
  constructor
  · rintro ⟨w, hw, rfl⟩
    refine ⟨text.toList.rdropWhile Numeral.isSuffix, text.toList.rtakeWhile Numeral.isSuffix, w.toNat,
      List.rdropWhile_append_rtakeWhile.symm, ?_, ?_, w.toNat_lt, toInt_toInt64 w⟩
    · exact (unsigned_eq_some_iff fun h => hplus ((List.rdropWhile_prefix _ _).subset h)).mp hw
    · exact fun c hc => (suffix_iff c).mp (List.mem_rtakeWhile_imp hc)
  · rintro ⟨cs, suffix, n, htext, hliteral, hsuffix, hn, hv⟩
    obtain ⟨w, rfl⟩ : ∃ w : UInt64, n = w.toNat := ⟨UInt64.ofNat n, (UInt64.toNat_ofNat_of_lt' hn).symm⟩
    refine ⟨w, ?_, Int64.toInt_inj.mp ((toInt_toInt64 w).trans hv.symm)⟩
    rw [htext] at hplus ⊢
    rw [trimmed_append (fun c hc => (suffix_iff c).mpr (hsuffix c hc)) hliteral.last]
    exact (unsigned_eq_some_iff fun h => hplus (List.mem_append_left _ h)).mpr hliteral

/-- A zero in front with a suffix, the largest number with two suffixes, and a number with only the top bit. -/
theorem literal_reads_words_edges :
    Wordy "0x1fUL" ∧ Numeral.literal? "00u" = some 0 ∧ Numeral.literal? "0XfFFFFFFFFFFFFFFFuL" = some (-1) ∧
      Numeral.literal? "9223372036854775808" = some Int64.minValue := by
  obtain ⟨htokens, hread⟩ := literal_reads_words
  refine ⟨htokens "-(0x1fUL)" ⟨.number, "0x1fUL", 2⟩ (by decide +kernel) rfl, ?_, ?_, ?_⟩
  · exact (hread _ (by decide) _).mpr
      ⟨['0', '0'], ['u'], 0, rfl, .octal (by decide), by simp, by decide, by decide⟩
  · exact (hread _ (by decide) _).mpr
      ⟨"0XfFFFFFFFFFFFFFFF".toList, ['u', 'L'], 2 ^ 64 - 1, rfl, .hex (.inr rfl) (by decide), by simp, by decide,
        by decide⟩
  · exact (hread _ (by decide) _).mpr
      ⟨"9223372036854775808".toList, [], 2 ^ 63, rfl, .decimal (by decide) (by decide), by simp, by decide, by decide⟩

end Devicetree.Proofs
