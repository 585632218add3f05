import Devicetree.Proofs.TokenRules

namespace Devicetree.Proofs

def starsAtEnd (cs : List Char) : Nat := (cs.reverse.takeWhile (· = '*')).length

def movedToken (n : Nat) (t : Token) : Token := { t with offset := n + t.offset }

section Stars
variable {c : Char} {cs : List Char}

theorem starsAtEnd_cons (c : Char) (cs : List Char) :
    starsAtEnd (c :: cs) = if c = '*' ∧ starsAtEnd cs = cs.length then cs.length + 1 else starsAtEnd cs := by
  unfold starsAtEnd
  rw [List.reverse_cons, List.takeWhile_append, List.length_reverse]
  by_cases hall : (cs.reverse.takeWhile (· = '*')).length = cs.length
  · by_cases hc : c = '*' <;> simp [hall, hc]
  · simp [hall]

theorem starsAtEnd_plain (hc : c ≠ '*') : starsAtEnd (c :: cs) = starsAtEnd cs := by
  rw [starsAtEnd_cons, if_neg fun h => hc h.1]

/-- A star and the character that it takes with it do not change whether the stars at the end are even in number. -/
theorem starsAtEnd_pair (c : Char) (cs : List Char) :
    starsAtEnd ('*' :: c :: cs) % 2 = starsAtEnd cs % 2 := by
  have hle : starsAtEnd cs ≤ cs.length := by
    simpa [starsAtEnd] using (List.takeWhile_prefix (l := cs.reverse) (· = '*')).length_le
  rw [starsAtEnd_cons, starsAtEnd_cons]
  by_cases hall : c = '*' ∧ starsAtEnd cs = cs.length
  · simp [hall]
    omega
  · rw [if_neg hall, if_neg]
    simp only [true_and, List.length_cons]
    omega

theorem commentInside_plain (hc : c ≠ '*') : CommentInside (c :: cs) ↔ CommentInside cs := by
  refine ⟨fun h => ?_, .plain hc⟩
  cases h with
  | plain _ h => exact h
  | star => exact absurd rfl hc

theorem commentInside_pair (hc : c ≠ '/') : CommentInside ('*' :: c :: cs) ↔ CommentInside cs := by
  refine ⟨fun h => ?_, .star hc⟩
  cases h with
  | plain hstar => exact absurd rfl hstar
  | star _ h => exact h

/-- What has no closing mark is the inside of a comment if its last stars stand in pairs. -/
theorem commentInside_iff (h : ¬ ['*', '/'] <:+: cs) : CommentInside cs ↔ starsAtEnd cs % 2 = 0 := by
  fun_induction Token.commentBody cs with
  | case1 => exact iff_of_true .nil rfl
  | case2 =>
    refine iff_of_false (fun h => ?_) (by decide)
    cases h
    contradiction
  | case3 rest => exact absurd ⟨[], rest, rfl⟩ h
  | case4 e cs hslash _ _ _ ih =>
    rw [commentInside_pair hslash, starsAtEnd_pair]
    exact ih fun hcs => h (hcs.trans ⟨['*', e], [], by simp⟩)
  | case5 c cs hstar _ _ _ ih =>
    rw [commentInside_plain hstar, starsAtEnd_plain hstar]
    exact ih fun hcs => h (hcs.trans ⟨[c], [], by simp⟩)

/-- The star of the first closing mark is taken by the one before it, or the mark closes. -/
theorem inside_or_mark_inside (h : ¬ ['*', '/'] <:+: cs) : CommentInside cs ∨ CommentInside (cs ++ ['*', '/']) := by
  fun_induction Token.commentBody cs with
  | case1 => exact .inl .nil
  | case2 => exact .inr (.star (by decide) (.plain (by decide) .nil))
  | case3 rest => exact absurd ⟨[], rest, rfl⟩ h
  | case4 e cs hslash _ _ _ ih =>
    exact (ih fun hcs => h (hcs.trans ⟨['*', e], [], by simp⟩)).imp (.star hslash) (.star hslash)
  | case5 c cs hstar _ _ _ ih =>
    exact (ih fun hcs => h (hcs.trans ⟨[c], [], by simp⟩)).imp (.plain hstar) (.plain hstar)

end Stars

section Scans
variable {cs rest : List Char} {ls : List Lexeme}

theorem lay_moved (n offset : Nat) (ls : List Lexeme) :
    lay (n + offset) ls = (lay offset ls).map (movedToken n) := by
  induction ls generalizing offset with
  | nil => rfl
  | cons l ls ih => simp [lay, movedToken, Nat.add_assoc, ih]

/-- A comment that is closed right after its inside. -/
theorem Lexes.comment (h : CommentInside cs) (hrest : Lexes rest ls) :
    Lexes ('/' :: '*' :: (cs ++ ['*', '/']) ++ rest) (⟨.comment, '/' :: '*' :: (cs ++ ['*', '/'])⟩ :: ls) := by
  refine .cons ?_ hrest
  rw [lexeme_slash, List.cons_append, List.append_assoc, Token.slashLexeme, h.closed]
  simp

/-- After its mark, a comment or an opening without end goes through any inside as a whole. -/
theorem slashLexeme_inside (h : CommentInside cs) (rest : List Char) : Token.slashLexeme ('*' :: (cs ++ rest)) =
    ((Token.slashLexeme ('*' :: rest)).1, (Token.slashLexeme ('*' :: rest)).2 + cs.length) := by
  rw [Token.slashLexeme, Token.slashLexeme, h.read]
  cases hclosed : (Token.commentBody rest).2 <;> simp [hclosed, Nat.add_right_comm]

/-- The comment that starts before the rest of a text, with and without an inside in front of the rest. -/
theorem exists_opened (rest : List Char) : ∃ kind inside ls,
    Lexes ('/' :: '*' :: rest) (⟨kind, '/' :: '*' :: inside⟩ :: ls) ∧
      ∀ cs, CommentInside cs → Lexes ('/' :: '*' :: (cs ++ rest)) (⟨kind, '/' :: '*' :: (cs ++ inside)⟩ :: ls) := by
  have hpos : 0 < (Token.slashLexeme ('*' :: rest)).2 := by
    rw [Token.slashLexeme]
    cases hclosed : (Token.commentBody rest).2 <;> simp [hclosed]
  have hle := slashLexeme_le ('*' :: rest)
  obtain ⟨kind, m, hlex⟩ : ∃ kind m, Token.slashLexeme ('*' :: rest) = (kind, m + 1) :=
    ⟨_, _, Prod.ext rfl (Nat.succ_pred_eq_of_pos hpos).symm⟩
  rw [hlex] at hle
  obtain ⟨inside, after, rfl, rfl⟩ : ∃ inside after, rest = inside ++ after ∧ inside.length = m :=
    ⟨rest.take m, rest.drop m, (List.take_append_drop m rest).symm, by
      rw [List.length_take, Nat.min_eq_left (by simpa using hle)]⟩
  obtain ⟨ls, hls⟩ := exists_lexes after
  have hinside : ∀ cs, CommentInside cs →
      Lexes ('/' :: '*' :: (cs ++ (inside ++ after))) (⟨kind, '/' :: '*' :: (cs ++ inside)⟩ :: ls) := by
    intro cs hcs
    have hread := slashLexeme_inside hcs (inside ++ after)
    rw [hlex] at hread
    have hall : Lexes ('/' :: '*' :: (cs ++ inside) ++ after) (⟨kind, '/' :: '*' :: (cs ++ inside)⟩ :: ls) := by
      refine .cons ?_ hls
      rw [lexeme_slash, List.cons_append, List.append_assoc, hread]
      simp
      omega
    simpa using hall
  exact ⟨kind, inside, ls, hinside [] .nil, hinside⟩

end Scans

/-- A comment closed by the first closing mark after it leaves what follows as it is. -/
theorem scan_comment {c : String} (h : CommentInside c.toList) (rest : String) :
    Token.scan ("/*" ++ c ++ "*/" ++ rest) = ⟨.comment, "/*" ++ c ++ "*/", 0⟩ ::
      (Token.scan rest).map (movedToken ("/*" ++ c ++ "*/").utf8ByteSize) := by
  obtain ⟨ls, hls⟩ := exists_lexes rest.toList
  have hall : Lexes ("/*" ++ c ++ "*/" ++ rest).toList (⟨.comment, ("/*" ++ c ++ "*/").toList⟩ :: ls) := by
    simpa using Lexes.comment h hls
  rw [hall.scanned, hls.scanned, ← lay_moved, lay, byteLength_eq, String.ofList_toList]
  simp

/-- After an odd number of stars the mark belongs to the comment, which goes on as if it were opened behind it. -/
theorem scan_past_mark {c : String} (h : CommentInside (c ++ "*/").toList) (rest : String) :
    ∃ kind inside ts, Token.scan ("/*" ++ rest) = ⟨kind, "/*" ++ inside, 0⟩ :: ts ∧
      Token.scan ("/*" ++ c ++ "*/" ++ rest) =
        ⟨kind, "/*" ++ c ++ "*/" ++ inside, 0⟩ :: ts.map (movedToken (c ++ "*/").utf8ByteSize) := by
  obtain ⟨kind, inside, ls, hopened, hinside⟩ := exists_opened rest.toList
  have hshort : Lexes ("/*" ++ rest).toList (⟨kind, ("/*" ++ String.ofList inside).toList⟩ :: ls) := by
    simpa using hopened
  have hlong : Lexes ("/*" ++ c ++ "*/" ++ rest).toList
      (⟨kind, ("/*" ++ c ++ "*/" ++ String.ofList inside).toList⟩ :: ls) := by
    simpa using hinside _ h
  have hplace : 0 + ("/*" ++ c ++ "*/" ++ String.ofList inside).utf8ByteSize =
      (c ++ "*/").utf8ByteSize + (0 + ("/*" ++ String.ofList inside).utf8ByteSize) := by
    simp only [String.utf8ByteSize_append]
    omega
  refine ⟨kind, String.ofList inside, lay (0 + ("/*" ++ String.ofList inside).utf8ByteSize) ls, ?_, ?_⟩
  · rw [hshort.scanned, lay, byteLength_eq, String.ofList_toList]
  · rw [hlong.scanned, lay, byteLength_eq, String.ofList_toList, hplace, lay_moved]

/-- A block comment ends at the first closing mark after its opening if and only if the stars right before the mark
are even in number. After an odd number of stars it goes on, as if it had been opened behind the mark. -/
theorem comment_ends (c : String) (h : ¬ "*/".toList <:+: c.toList) :
    ((∀ rest, Token.tokenize ("/*" ++ c ++ "*/" ++ rest) =
        (Token.tokenize rest).map (movedToken ("/*" ++ c ++ "*/").utf8ByteSize)) ↔
      starsAtEnd c.toList % 2 = 0) ∧
    (starsAtEnd c.toList % 2 = 1 → ∀ rest, ∃ kind inside ts,
      Token.scan ("/*" ++ rest) = ⟨kind, "/*" ++ inside, 0⟩ :: ts ∧
      Token.scan ("/*" ++ c ++ "*/" ++ rest) =
        ⟨kind, "/*" ++ c ++ "*/" ++ inside, 0⟩ :: ts.map (movedToken (c ++ "*/").utf8ByteSize)) := by
  have hodd : starsAtEnd c.toList % 2 = 1 → CommentInside (c ++ "*/").toList := by
    intro hstars
    rcases inside_or_mark_inside h with hinside | hmark
    · rw [commentInside_iff h] at hinside
      omega
    · simpa using hmark
  refine ⟨⟨fun hends => ?_, fun hstars rest => ?_⟩, fun hstars => scan_past_mark (hodd hstars)⟩
  · by_contra hstars
    obtain ⟨kind, inside, ts, hopened, hscan⟩ := scan_past_mark (hodd (by omega)) ""
    have hopen : Token.scan ("/*" ++ "") = [⟨.other, "/*", 0⟩] := by decide +kernel
    rw [hopen] at hopened
    obtain ⟨htoken, rfl⟩ := List.cons.inj hopened
    obtain ⟨rfl, -, -⟩ := Token.mk.inj htoken
    have hnone := hends ""
    rw [Token.tokenize, hscan] at hnone
    simp [Token.tokenize, Token.scan, Token.scanFrom, Token.Kind.isTrivia] at hnone
  · rw [Token.tokenize, scan_comment ((commentInside_iff h).mpr hstars)]
    simp [Token.tokenize, List.filter_map, Token.Kind.isTrivia, Function.comp_def, movedToken]

theorem comment_ends_paired : ¬ "*/".toList <:+: "* a/b é**".toList ∧ starsAtEnd "* a/b é**".toList % 2 = 0 ∧
    ∀ rest, Token.tokenize ("/*" ++ "* a/b é**" ++ "*/" ++ rest) = (Token.tokenize rest).map (movedToken 14) := by
  have hmark : ¬ "*/".toList <:+: "* a/b é**".toList := by decide +kernel
  have hstars : starsAtEnd "* a/b é**".toList % 2 = 0 := by decide +kernel
  have hsize : ("/*" ++ "* a/b é**" ++ "*/").utf8ByteSize = 14 := by decide +kernel
  have hall := (comment_ends "* a/b é**" hmark).1.mpr hstars
  rw [hsize] at hall
  exact ⟨hmark, hstars, hall⟩

/-- After a single star, the mark closes nothing, and the code up to the next mark belongs to the comment. -/
theorem comment_ends_starred : ¬ "*/".toList <:+: "*".toList ∧
    Token.tokenize ("/*" ++ "*" ++ "*/" ++ " A /* b */ C") ≠
      (Token.tokenize " A /* b */ C").map (movedToken ("/*" ++ "*" ++ "*/").utf8ByteSize) := by
  have hcode : Token.tokenize ("/*" ++ "*" ++ "*/" ++ " A /* b */ C") = [⟨.ident, "C", 16⟩] := by decide +kernel
  have hrest : Token.tokenize " A /* b */ C" = [⟨.ident, "A", 1⟩, ⟨.ident, "C", 11⟩] := by decide +kernel
  rw [hcode, hrest]
  exact ⟨by decide +kernel, by simp⟩

end Devicetree.Proofs
