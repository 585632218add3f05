import Devicetree.Token.Scan

namespace Devicetree.Proofs

structure Lexeme where
  kind : Token.Kind
  chars : List Char
deriving DecidableEq, Repr

def lay (offset : Nat) : List Lexeme → List Token
  | [] => []
  | l :: ls => ⟨l.kind, String.ofList l.chars, offset⟩ :: lay (offset + Text.byteLength l.chars) ls

def Lexeme.carries (l : Lexeme) : Bool := !l.kind.isTrivia

def Lexeme.ofToken (t : Token) : Lexeme := ⟨t.kind, t.text.toList⟩

def spelled (ls : List Lexeme) : List Char := ls.flatMap Lexeme.chars

/-- The characters fall into the lexemes, each as long as its class allows. -/
inductive Lexes : List Char → List Lexeme → Prop
  | nil : Lexes [] []
  | cons {c : Char} {cs rest : List Char} {kind : Token.Kind} {ls : List Lexeme}
      (h : Token.lexeme c (cs ++ rest) = (kind, cs.length)) (hrest : Lexes rest ls) :
      Lexes (c :: cs ++ rest) (⟨kind, c :: cs⟩ :: ls)

section Lengths

theorem stringBody_le (cs : List Char) :
    (Token.stringBody cs).1 + (if (Token.stringBody cs).2 then 1 else 0) ≤ cs.length := by
  fun_induction Token.stringBody cs <;> simp_all <;> omega

theorem commentBody_le (cs : List Char) :
    (Token.commentBody cs).1 + (if (Token.commentBody cs).2 then 2 else 0) ≤ cs.length := by
  fun_induction Token.commentBody cs <;> simp_all <;> omega

theorem slashLexeme_le (cs : List Char) : (Token.slashLexeme cs).2 ≤ cs.length := by
  unfold Token.slashLexeme
  split
  · rename_i cs
    have := (List.takeWhile_prefix (l := cs) (· ≠ '\n')).length_le
    simpa using this
  · rename_i cs
    have hbody := commentBody_le cs
    cases hclosed : (Token.commentBody cs).2 <;> simp_all
  · simp

theorem quoteLexeme_le (cs : List Char) : (Token.quoteLexeme cs).2 ≤ cs.length := by
  unfold Token.quoteLexeme
  split
  · split <;> simp
  · split <;> simp
  · simp

theorem lexeme_le (c : Char) (cs : List Char) : (Token.lexeme c cs).2 ≤ cs.length := by
  have hrun : ∀ p : Char → Bool, (cs.takeWhile p).length ≤ cs.length :=
    fun p => (List.takeWhile_prefix p).length_le
  fun_cases Token.lexeme c cs with
  | case1 | case2 | case3 => exact hrun _
  | case4 | case5 | case6 => exact Nat.zero_le _
  | case7 => exact slashLexeme_le cs
  | case8 => exact quoteLexeme_le cs
  | case9 =>
    have := stringBody_le cs
    simp_all
  | case10 =>
    have := stringBody_le cs
    simp_all
  | case11 | case12 | case13 => simp

end Lengths

theorem exists_lexes (cs : List Char) : ∃ ls, Lexes cs ls := by
  induction hn : cs.length using Nat.strongRecOn generalizing cs with
  | ind n ih =>
    cases cs with
    | nil => exact ⟨[], .nil⟩
    | cons c cs =>
      have hle := lexeme_le c cs
      obtain ⟨ls, hls⟩ := ih (cs.drop (Token.lexeme c cs).2).length (by simp at hn ⊢; omega) _ rfl
      refine ⟨⟨(Token.lexeme c cs).1, c :: cs.take (Token.lexeme c cs).2⟩ :: ls, ?_⟩
      have hcs : c :: cs = c :: cs.take (Token.lexeme c cs).2 ++ cs.drop (Token.lexeme c cs).2 := by simp
      rw [hcs]
      refine .cons ?_ hls
      rw [List.take_append_drop, List.length_take, Nat.min_eq_left hle]

/-- The tokens of a text are its lexemes, laid out. -/
theorem Lexes.scan {cs : List Char} {ls : List Lexeme} (h : Lexes cs ls) (offset : Nat) :
    Token.scanFrom offset cs = lay offset ls := by
  induction h generalizing offset with
  | nil => simp [Token.scanFrom, lay]
  | cons h _ ih =>
    rw [List.cons_append, Token.scanFrom, lay]
    simp [h, ih]

theorem ofToken_lay (offset : Nat) (ls : List Lexeme) : (lay offset ls).map Lexeme.ofToken = ls := by
  induction ls generalizing offset with
  | nil => rfl
  | cons l ls ih => simp [lay, ih, Lexeme.ofToken]

def tokensOf (offset : Nat) (ls : List Lexeme) : List Token :=
  (lay offset ls).filter fun t => !t.kind.isTrivia

theorem ofToken_tokensOf (offset : Nat) (ls : List Lexeme) :
    (tokensOf offset ls).map Lexeme.ofToken = ls.filter Lexeme.carries := by
  have hcarries : (fun t : Token => !t.kind.isTrivia) = Lexeme.carries ∘ Lexeme.ofToken := rfl
  rw [tokensOf, hcarries, ← List.filter_map, ofToken_lay]

theorem Lexes.tokenize {text : String} {ls : List Lexeme} (h : Lexes text.toList ls) :
    Token.tokenize text = tokensOf 0 ls := by
  rw [Token.tokenize, Token.scan, h.scan, tokensOf]

section Forms

structure Plain (c : Char) : Prop where
  space : Token.isSpace c = false
  ident : Token.isIdentStart c = false
  digit : c.isDigit = false
  mark : c ∉ ['(', ')', ',', '\'', '"']

/-- The lexemes that end by themselves: no comments, and no quote or comment mark that is never closed. -/
inductive Formed : Token.Kind → List Char → Prop
  | blank {c : Char} {cs : List Char} (hc : Token.isSpace c = true)
      (h : ∀ d ∈ cs, Token.isSpace d = true) : Formed .blank (c :: cs)
  | ident {c : Char} {cs : List Char} (hc : Token.isIdentStart c = true)
      (h : ∀ d ∈ cs, Token.isIdentRest d = true) : Formed .ident (c :: cs)
  | number {c : Char} {cs : List Char} (hc : c.isDigit = true)
      (h : ∀ d ∈ cs, Token.isIdentRest d = true) : Formed .number (c :: cs)
  | lparen : Formed .lparen ['(']
  | rparen : Formed .rparen [')']
  | comma : Formed .comma [',']
  | char {c : Char} (hquote : c ≠ '\'') (hslash : c ≠ '\\') : Formed .char ['\'', c, '\'']
  | escape {c : Char} (h : c ≠ '\n') : Formed .char ['\'', '\\', c, '\'']
  | str {body : List Char} (h : ∀ rest, Token.stringBody (body ++ '"' :: rest) = (body.length, true)) :
      Formed .str ('"' :: (body ++ ['"']))
  | pair {c d : Char} (h : Token.isPairOperator c d = true) : Formed .other [c, d]
  | single {c : Char} (h : Plain c) : Formed .other [c]

def Follows (kind : Token.Kind) (cs rest : List Char) : Prop :=
  ∀ d ∈ rest.head?, match kind with
    | .blank => Token.isSpace d = false
    | .ident | .number => Token.isIdentRest d = false
    | .other => ∀ c, cs = [c] → Token.isPairOperator c d = false ∧ (c = '/' → d ≠ '/' ∧ d ≠ '*')
    | _ => True

def Apart (cs : List Char) : Prop := ∀ d ∈ cs.head?, d = ' ' ∨ d = ',' ∨ d = '(' ∨ d = ')'

theorem length_takeWhile_append {p : Char → Bool} {cs rest : List Char} :
    ((cs ++ rest).takeWhile p).length = cs.length ↔
      (∀ c ∈ cs, p c = true) ∧ ∀ d ∈ rest.head?, p d = false := by
  induction cs with
  | nil =>
    cases rest with
    | nil => simp
    | cons d rest => cases hd : p d <;> simp [hd]
  | cons c cs ih => cases hc : p c <;> simp [hc, ih]

section Classes
variable {c d : Char}

theorem isSpace_iff : Token.isSpace c = true ↔ c = ' ' ∨ c = '\t' ∨ c = '\r' ∨ c = '\n' := by
  simp [Token.isSpace, or_assoc]

theorem not_space_of_rest (h : Token.isIdentRest c = true) : Token.isSpace c = false := by
  cases hs : Token.isSpace c with
  | false => rfl
  | true => rcases isSpace_iff.mp hs with rfl | rfl | rfl | rfl <;> revert h <;> decide

theorem rest_of_start (h : Token.isIdentStart c = true) : Token.isIdentRest c = true := by
  simp only [Token.isIdentStart, Token.isIdentRest, Char.isAlphanum, Bool.or_eq_true] at h ⊢
  exact h.imp_left Or.inl

theorem rest_of_digit (h : c.isDigit = true) : Token.isIdentRest c = true := by
  simp [Token.isIdentRest, Char.isAlphanum, h]

theorem not_start_of_digit (h : c.isDigit = true) : Token.isIdentStart c = false := by
  cases hs : Token.isIdentStart c with
  | false => rfl
  | true =>
    have hle : c.val ≤ '9'.val := of_decide_eq_true (Bool.and_eq_true_iff.mp h).2
    rcases Bool.or_eq_true_iff.mp hs with halpha | hunderscore
    · rcases Bool.or_eq_true_iff.mp halpha with hupper | hlower
      · have hge : 'A'.val ≤ c.val := (of_decide_eq_true hupper).1
        exact absurd (UInt32.le_trans hge hle) (by decide)
      · have hge : 'a'.val ≤ c.val := of_decide_eq_true (Bool.and_eq_true_iff.mp hlower).1
        exact absurd (UInt32.le_trans hge hle) (by decide)
    · obtain rfl : c = '_' := of_decide_eq_true hunderscore
      exact absurd h (by decide)

theorem pair_first (h : Token.isPairOperator c d = true) : c ∈ ['<', '>', '=', '!', '&', '|'] := by
  simp only [Token.isPairOperator, Bool.or_eq_true, Bool.and_eq_true, decide_eq_true_eq] at h
  simp only [List.mem_cons, List.not_mem_nil, or_false]
  grind

theorem pair_second (h : Token.isPairOperator c d = true) : Token.isSpace d = false := by
  cases hs : Token.isSpace d with
  | false => rfl
  | true => rcases isSpace_iff.mp hs with rfl | rfl | rfl | rfl <;> simp [Token.isPairOperator] at h

theorem Plain.of_pair (h : Token.isPairOperator c d = true) : Plain c ∧ c ≠ '/' := by
  have hc := pair_first h
  simp only [List.mem_cons, List.not_mem_nil, or_false] at hc
  rcases hc with rfl | rfl | rfl | rfl | rfl | rfl <;>
    exact ⟨⟨rfl, rfl, rfl, by decide⟩, by decide⟩

theorem lexeme_blank (h : Token.isSpace c = true) (cs : List Char) :
    Token.lexeme c cs = (.blank, (cs.takeWhile Token.isSpace).length) := by
  simp [Token.lexeme, h]

theorem lexeme_ident (h : Token.isIdentStart c = true) (cs : List Char) :
    Token.lexeme c cs = (.ident, (cs.takeWhile Token.isIdentRest).length) := by
  simp [Token.lexeme, h, not_space_of_rest (rest_of_start h)]

theorem lexeme_number (h : c.isDigit = true) (cs : List Char) :
    Token.lexeme c cs = (.number, (cs.takeWhile Token.isIdentRest).length) := by
  simp [Token.lexeme, h, not_space_of_rest (rest_of_digit h), not_start_of_digit h]

theorem lexeme_quote (cs : List Char) : Token.lexeme '\'' cs = Token.quoteLexeme cs := rfl

theorem lexeme_slash (cs : List Char) : Token.lexeme '/' cs = Token.slashLexeme cs := rfl

theorem Plain.lexeme (h : Plain c) (hne : c ≠ '/') (cs : List Char) :
    Token.lexeme c cs = (.other, if cs.head?.any (Token.isPairOperator c) then 1 else 0) := by
  have hmark := h.mark
  simp only [List.mem_cons, List.not_mem_nil, or_false, not_or] at hmark
  cases cs with
  | nil => simp [Token.lexeme, h.space, h.ident, h.digit, hmark, hne]
  | cons d cs =>
    simp only [Token.lexeme, h.space, h.ident, h.digit, hmark, hne, Bool.false_eq_true, if_false]
    cases hd : Token.isPairOperator c d <;> simp [hd]

theorem lexeme_string (cs : List Char) : Token.lexeme '"' cs =
    if (Token.stringBody cs).2 then (.str, (Token.stringBody cs).1 + 1)
    else (.other, (Token.stringBody cs).1) := rfl

theorem class_cases (c : Char) : Token.isSpace c = true ∨ Token.isIdentStart c = true ∨ c.isDigit = true ∨
    c ∈ ['(', ')', ',', '\'', '"'] ∨ Plain c := by
  by_cases hspace : Token.isSpace c = true
  · exact .inl hspace
  by_cases hident : Token.isIdentStart c = true
  · exact .inr (.inl hident)
  by_cases hdigit : c.isDigit = true
  · exact .inr (.inr (.inl hdigit))
  by_cases hmark : c ∈ ['(', ')', ',', '\'', '"']
  · exact .inr (.inr (.inr (.inl hmark)))
  · exact .inr (.inr (.inr (.inr ⟨by simpa using hspace, by simpa using hident, by simpa using hdigit, hmark⟩)))

end Classes

theorem Formed.lexeme {kind : Token.Kind} {c : Char} {cs rest : List Char} (h : Formed kind (c :: cs))
    (hf : Follows kind (c :: cs) rest) : Token.lexeme c (cs ++ rest) = (kind, cs.length) := by
  cases h with
  | blank hc h => rw [lexeme_blank hc, length_takeWhile_append.mpr ⟨h, hf⟩]
  | ident hc h => rw [lexeme_ident hc, length_takeWhile_append.mpr ⟨h, hf⟩]
  | number hc h => rw [lexeme_number hc, length_takeWhile_append.mpr ⟨h, hf⟩]
  | lparen | rparen | comma => rfl
  | char hquote hslash =>
    rw [lexeme_quote]
    unfold Token.quoteLexeme
    split <;> simp_all
  | escape h => simp [lexeme_quote, Token.quoteLexeme, h]
  | str h =>
    rw [lexeme_string]
    simp [h rest]
  | pair h =>
    obtain ⟨hplain, hne⟩ := Plain.of_pair h
    rw [hplain.lexeme hne]
    simp [h]
  | single h =>
    by_cases hne : c = '/'
    · subst hne
      rw [lexeme_slash]
      unfold Token.slashLexeme
      split <;> simp_all [Follows]
    · have hrest : rest.head?.any (Token.isPairOperator c) = false := by
        cases rest with
        | nil => rfl
        | cons d rest => exact (hf d rfl c rfl).1
      rw [List.nil_append, h.lexeme hne, hrest]
      rfl

/-- The body of a string is read the same whatever comes after its closing quote. -/
theorem stringBody_closed {text : List Char} {n : Nat} (h : Token.stringBody text = (n, true)) :
    ∃ body after, text = body ++ '"' :: after ∧ body.length = n ∧
      ∀ rest, Token.stringBody (body ++ '"' :: rest) = (n, true) := by
  fun_induction Token.stringBody text generalizing n with
  | case1 | case3 | case4 => simp at h
  | case2 cs =>
    cases h
    exact ⟨[], cs, rfl, rfl, fun rest => by rw [List.nil_append, Token.stringBody.eq_def]; rfl⟩
  | case5 e cs hline m closed hbody _ ih =>
    cases h
    obtain ⟨body, after, rfl, hlength, hread⟩ := ih hbody
    refine ⟨'\\' :: e :: body, after, rfl, by simp [hlength], ?_⟩
    intro rest
    simp [Token.stringBody, hline, hread]
  | case6 c cs hquote hslash m closed hbody ih =>
    cases h
    obtain ⟨body, after, rfl, hlength, hread⟩ := ih hbody
    refine ⟨c :: body, after, rfl, by simp [hlength], ?_⟩
    intro rest
    rw [List.cons_append, Token.stringBody.eq_def]
    simp [hquote, hslash, hread]

structure Clean (kind : Token.Kind) (cs : List Char) : Prop where
  no_comment : kind ≠ .comment
  no_quote : kind = .other → '"' ∉ cs ∧ '\'' ∉ cs
  no_mark : kind = .other → ¬ ['/', '*'] <+: cs

section Inversion
variable {kind : Token.Kind} {cs rest : List Char}

theorem formed_of_slash (h : Token.slashLexeme (cs ++ rest) = (kind, cs.length))
    (hclean : Clean kind ('/' :: cs)) : Formed kind ('/' :: cs) ∧ Follows kind ('/' :: cs) rest := by
  generalize htext : cs ++ rest = text at h
  unfold Token.slashLexeme at h
  split at h
  · exact absurd (Prod.mk.inj h).1.symm hclean.no_comment
  · rename_i after
    cases hclosed : (Token.commentBody after).2 with
    | true =>
      simp only [hclosed, if_true] at h
      exact absurd (Prod.mk.inj h).1.symm hclean.no_comment
    | false =>
      simp only [hclosed, Bool.false_eq_true, if_false] at h
      obtain ⟨rfl, hlength⟩ := Prod.mk.inj h
      cases cs with
      | nil => simp at hlength
      | cons d cs =>
        cases htext
        exact absurd (by simp) (hclean.no_mark rfl)
  · rename_i hslash hstar
    obtain ⟨rfl, hlength⟩ := Prod.mk.inj h
    obtain rfl : cs = [] := List.eq_nil_of_length_eq_zero hlength.symm
    refine ⟨.single ⟨by decide, by decide, by decide, by decide⟩, ?_⟩
    intro d hd c hc
    cases hc
    cases rest with
    | nil => cases hd
    | cons d' rest =>
      cases hd
      refine ⟨rfl, fun _ => ⟨?_, ?_⟩⟩
      · rintro rfl
        exact hslash _ htext.symm
      · rintro rfl
        exact hstar _ htext.symm

theorem formed_of_quote (h : Token.quoteLexeme (cs ++ rest) = (kind, cs.length))
    (hclean : Clean kind ('\'' :: cs)) : Formed kind ('\'' :: cs) ∧ kind = .char := by
  have hother : kind ≠ .other := fun hk => (hclean.no_quote hk).2 List.mem_cons_self
  generalize htext : cs ++ rest = text at h
  unfold Token.quoteLexeme at h
  split at h
  · split at h
    · exact absurd (Prod.mk.inj h).1.symm hother
    · rename_i hline
      obtain ⟨rfl, hlength⟩ := Prod.mk.inj h
      match cs, hlength with
      | [a, b, c], _ =>
        cases htext
        exact ⟨.escape hline, rfl⟩
  · split at h
    · exact absurd (Prod.mk.inj h).1.symm hother
    · rename_i hmark
      obtain ⟨rfl, hlength⟩ := Prod.mk.inj h
      match cs, hlength with
      | [a, b], _ =>
        cases htext
        rw [not_or] at hmark
        exact ⟨.char hmark.1 hmark.2, rfl⟩
  · exact absurd (Prod.mk.inj h).1.symm hother

theorem formed_of_string (h : Token.lexeme '"' (cs ++ rest) = (kind, cs.length))
    (hclean : Clean kind ('"' :: cs)) : Formed kind ('"' :: cs) ∧ kind = .str := by
  rw [lexeme_string] at h
  split at h
  · rename_i hclosed
    obtain ⟨rfl, hlength⟩ := Prod.mk.inj h
    have hends : Token.stringBody (cs ++ rest) = ((Token.stringBody (cs ++ rest)).1, true) :=
      Prod.ext rfl hclosed
    obtain ⟨body, after, htext, hbody, hread⟩ := stringBody_closed hends
    have hsplit : cs ++ rest = (body ++ ['"']) ++ after := by simp [htext]
    obtain ⟨rfl, _⟩ := List.append_inj hsplit (by simp [hbody, ← hlength])
    exact ⟨.str (hbody ▸ hread), rfl⟩
  · have hother := (Prod.mk.inj h).1.symm
    exact absurd List.mem_cons_self (hclean.no_quote hother).1

theorem formed_of_plain {c : Char} (hplain : Plain c) (hne : c ≠ '/')
    (h : Token.lexeme c (cs ++ rest) = (kind, cs.length)) :
    Formed kind (c :: cs) ∧ Follows kind (c :: cs) rest := by
  rw [hplain.lexeme hne] at h
  split at h
  · rename_i hpair
    obtain ⟨rfl, hlength⟩ := Prod.mk.inj h
    match cs, hlength with
    | [e], _ => exact ⟨.pair hpair, by simp [Follows]⟩
  · rename_i hpair
    obtain ⟨rfl, hlength⟩ := Prod.mk.inj h
    obtain rfl : cs = [] := List.eq_nil_of_length_eq_zero hlength.symm
    refine ⟨.single hplain, ?_⟩
    intro d hd c' hc
    cases hc
    rw [List.nil_append, hd] at hpair
    exact ⟨by simpa using hpair, fun he => absurd he hne⟩

end Inversion

/-- What is found in a text and is clean ends by itself, and the text does not go on with it. -/
theorem Formed.of_lexeme {kind : Token.Kind} {c : Char} {cs rest : List Char}
    (h : Token.lexeme c (cs ++ rest) = (kind, cs.length)) (hclean : Clean kind (c :: cs)) :
    Formed kind (c :: cs) ∧ Follows kind (c :: cs) rest := by
  rcases class_cases c with hc | hc | hc | hc | hc
  · rw [lexeme_blank hc] at h
    obtain ⟨rfl, hlength⟩ := Prod.mk.inj h
    obtain ⟨hall, hend⟩ := length_takeWhile_append.mp hlength
    exact ⟨.blank hc hall, hend⟩
  · rw [lexeme_ident hc] at h
    obtain ⟨rfl, hlength⟩ := Prod.mk.inj h
    obtain ⟨hall, hend⟩ := length_takeWhile_append.mp hlength
    exact ⟨.ident hc hall, hend⟩
  · rw [lexeme_number hc] at h
    obtain ⟨rfl, hlength⟩ := Prod.mk.inj h
    obtain ⟨hall, hend⟩ := length_takeWhile_append.mp hlength
    exact ⟨.number hc hall, hend⟩
  · simp only [List.mem_cons, List.not_mem_nil, or_false] at hc
    rcases hc with rfl | rfl | rfl | rfl | rfl
    · obtain ⟨rfl, hlength⟩ := Prod.mk.inj h
      obtain rfl : cs = [] := List.eq_nil_of_length_eq_zero hlength.symm
      exact ⟨.lparen, by simp [Follows]⟩
    · obtain ⟨rfl, hlength⟩ := Prod.mk.inj h
      obtain rfl : cs = [] := List.eq_nil_of_length_eq_zero hlength.symm
      exact ⟨.rparen, by simp [Follows]⟩
    · obtain ⟨rfl, hlength⟩ := Prod.mk.inj h
      obtain rfl : cs = [] := List.eq_nil_of_length_eq_zero hlength.symm
      exact ⟨.comma, by simp [Follows]⟩
    · obtain ⟨hformed, rfl⟩ := formed_of_quote h hclean
      exact ⟨hformed, by simp [Follows]⟩
    · obtain ⟨hformed, rfl⟩ := formed_of_string h hclean
      exact ⟨hformed, by simp [Follows]⟩
  · by_cases hne : c = '/'
    · subst hne
      exact formed_of_slash h hclean
    · exact formed_of_plain hc hne h

section Ends
variable {kind : Token.Kind} {cs rest : List Char}

theorem Formed.follows_apart (h : Formed kind cs) (hk : kind ≠ .blank) (ha : Apart rest) :
    Follows kind cs rest := by
  intro d hd
  have hd := ha d hd
  cases h with
  | blank => exact absurd rfl hk
  | ident | number => rcases hd with rfl | rfl | rfl | rfl <;> rfl
  | lparen | rparen | comma | char | escape | str => trivial
  | pair => intro c hc; simp at hc
  | single h =>
    intro c hc
    cases hc
    rcases hd with rfl | rfl | rfl | rfl <;> simp [Token.isPairOperator]

/-- Only blanks start or end with a blank. -/
theorem Formed.edges (h : Formed kind cs) (hk : kind ≠ .blank) :
    (∀ c ∈ cs.head?, Token.isSpace c = false) ∧ ∀ c ∈ cs.getLast?, Token.isSpace c = false := by
  have hquote : Token.isSpace '\'' = false ∧ Token.isSpace '"' = false := by decide
  have hword : ∀ {c : Char} {cs : List Char}, Token.isIdentRest c = true →
      (∀ d ∈ cs, Token.isIdentRest d = true) → ∀ d ∈ c :: cs, Token.isSpace d = false := by
    intro c cs hc hcs d hd
    apply not_space_of_rest
    rcases List.mem_cons.mp hd with rfl | hd
    · exact hc
    · exact hcs d hd
  cases h with
  | blank => exact absurd rfl hk
  | ident hc h =>
    have hall := hword (rest_of_start hc) h
    exact ⟨fun d hd => hall d (List.mem_of_mem_head? hd), fun d hd => hall d (List.mem_of_mem_getLast? hd)⟩
  | number hc h =>
    have hall := hword (rest_of_digit hc) h
    exact ⟨fun d hd => hall d (List.mem_of_mem_head? hd), fun d hd => hall d (List.mem_of_mem_getLast? hd)⟩
  | lparen | rparen | comma => exact ⟨by rintro d ⟨⟩; rfl, by rintro d ⟨⟩; rfl⟩
  | char | escape => simp [hquote]
  | str => simp [hquote, List.getLast?_cons]
  | pair h => simp [(Plain.of_pair h).1.space, pair_second h]
  | single h => simp [h.space]

theorem Formed.mark (h : Formed kind cs) :
    (kind = .lparen → cs = ['(']) ∧ (kind = .rparen → cs = [')']) ∧ (kind = .comma → cs = [',']) := by
  cases h <;> simp

theorem Formed.ne_nil (h : Formed kind cs) : cs ≠ [] := by
  cases h <;> simp

/-- A lexeme in front of a text that does not go on with it. -/
theorem Formed.lexes (h : Formed kind cs) {ls : List Lexeme} (hf : Follows kind cs rest)
    (hrest : Lexes rest ls) : Lexes (cs ++ rest) (⟨kind, cs⟩ :: ls) := by
  cases cs with
  | nil => exact absurd rfl h.ne_nil
  | cons c cs => exact .cons (h.lexeme hf) hrest

def gap : Lexeme := ⟨.blank, [' ']⟩

theorem gap_lexes {ls : List Lexeme} (h : Lexes rest ls) (hrest : ∀ c ∈ rest.head?, Token.isSpace c = false) :
    Lexes (' ' :: rest) (gap :: ls) := by
  have hblank : Formed .blank [' '] := .blank rfl (by simp)
  exact hblank.lexes hrest h

end Ends

end Forms

section Places

theorem byteLength_append (a b : List Char) :
    Text.byteLength (a ++ b) = Text.byteLength a + Text.byteLength b := by
  induction a with
  | nil => simp [Text.byteLength]
  | cons c a ih => simp [Text.byteLength, ih, Nat.add_assoc]

theorem byteLength_pos {cs : List Char} (h : cs ≠ []) : 0 < Text.byteLength cs := by
  cases cs with
  | nil => exact absurd rfl h
  | cons c cs =>
    have := c.utf8Size_pos
    simp only [Text.byteLength]
    omega

/-- Tokens in the order of their text and apart from each other, none of them empty. -/
structure Spaced (ts : List Token) : Prop where
  nonempty : ∀ t ∈ ts, t.offset < t.stop
  apart : ts.Pairwise fun a b => a.stop ≤ b.offset

theorem Spaced.sublist {ts us : List Token} (h : Spaced ts) (hsub : us.Sublist ts) : Spaced us :=
  ⟨fun t ht => h.nonempty t (hsub.subset ht), h.apart.sublist hsub⟩

theorem Lexes.ne_nil {cs : List Char} {ls : List Lexeme} (h : Lexes cs ls) : ∀ l ∈ ls, l.chars ≠ [] := by
  induction h with
  | nil => simp
  | cons _ _ ih => simpa using ih

theorem offset_of_mem_lay {ls : List Lexeme} {offset : Nat} {t : Token} (h : t ∈ lay offset ls) :
    offset ≤ t.offset := by
  induction ls generalizing offset with
  | nil => simp [lay] at h
  | cons l ls ih =>
    rcases List.mem_cons.mp h with rfl | h
    · exact Nat.le_refl _
    · exact Nat.le_trans (Nat.le_add_right _ _) (ih h)

theorem lay_spaced {ls : List Lexeme} (h : ∀ l ∈ ls, l.chars ≠ []) (offset : Nat) :
    Spaced (lay offset ls) := by
  induction ls generalizing offset with
  | nil => exact ⟨by simp [lay], by simp [lay]⟩
  | cons l ls ih =>
    have hpos := byteLength_pos (h l List.mem_cons_self)
    have hrest := ih (fun m hm => h m (List.mem_cons_of_mem _ hm)) (offset + Text.byteLength l.chars)
    constructor
    · intro t ht
      rcases List.mem_cons.mp ht with rfl | ht
      · simp [Token.stop, hpos]
      · exact hrest.nonempty t ht
    · refine List.pairwise_cons.mpr ⟨?_, hrest.apart⟩
      intro t ht
      simpa [Token.stop] using offset_of_mem_lay ht

theorem tokenize_spaced (text : String) : Spaced (Token.tokenize text) := by
  obtain ⟨ls, hls⟩ := exists_lexes text.toList
  rw [hls.tokenize]
  exact (lay_spaced hls.ne_nil 0).sublist List.filter_sublist

end Places

section Again

theorem Lexes.spelled {cs : List Char} {ls : List Lexeme} (h : Lexes cs ls) : cs = spelled ls := by
  induction h with
  | nil => rfl
  | cons _ _ ih => simp [Proofs.spelled, ih]

theorem Lexes.after {ls ms : List Lexeme} {cs : List Char} (h : Lexes cs (ls ++ ms)) :
    ∃ rest, cs = Proofs.spelled ls ++ rest ∧ Lexes rest ms := by
  induction ls generalizing cs with
  | nil => exact ⟨cs, rfl, h⟩
  | cons l ls ih =>
    cases h with
    | cons h hrest =>
      obtain ⟨rest, rfl, hms⟩ := ih hrest
      exact ⟨rest, by simp [Proofs.spelled], hms⟩

theorem Follows.congr {kind : Token.Kind} {cs rest rest' : List Char} (h : Follows kind cs rest)
    (hhead : rest'.head? = rest.head?) : Follows kind cs rest' := by
  intro d hd
  exact h d (hhead ▸ hd)

/-- Clean lexemes of one text are found again in front of another, where they are followed by a delimiter. -/
theorem Lexes.again {ls ms ns : List Lexeme} {cs rest : List Char} (h : Lexes cs (ls ++ ms))
    (hclean : ∀ l ∈ ls, Clean l.kind l.chars) (hlast : ∀ l ∈ ls.getLast?, l.kind ≠ .blank)
    (ha : Apart rest) (hrest : Lexes rest ns) : Lexes (Proofs.spelled ls ++ rest) (ls ++ ns) := by
  induction ls generalizing cs with
  | nil => exact hrest
  | cons l ls ih =>
    cases h with
    | @cons c cs after kind _ h hafter =>
      obtain ⟨hformed, hfollows⟩ := Formed.of_lexeme h (hclean _ List.mem_cons_self)
      cases ls with
      | nil =>
        have hnext := hformed.follows_apart (hlast ⟨kind, c :: cs⟩ (by simp)) ha
        simpa [Proofs.spelled] using hformed.lexes hnext hrest
      | cons m ls =>
        have htail : Lexes (Proofs.spelled (m :: ls) ++ rest) (m :: ls ++ ns) := by
          refine ih hafter (fun l hl => hclean l (List.mem_cons_of_mem _ hl)) ?_
          intro l hl
          exact hlast l (by simpa using hl)
        have hhead : (Proofs.spelled (m :: ls) ++ rest).head? = after.head? := by
          obtain ⟨more, rfl, _⟩ := Lexes.after hafter
          obtain ⟨d, ds, hm⟩ := List.exists_cons_of_ne_nil (hafter.ne_nil m (by simp))
          simp [Proofs.spelled, hm]
        simpa [Proofs.spelled] using hformed.lexes (hfollows.congr hhead) htail

end Again

end Devicetree.Proofs
