import Mathlib.Data.List.TakeWhile
import Mathlib.Data.String.Basic
import Devicetree.Proofs.TidySources

namespace Devicetree.Proofs

/-- The inside of a string: no quote, and a backslash only with a character after it on its line. -/
inductive StringInside : List Char → Prop
  | nil : StringInside []
  | plain {c : Char} {cs : List Char} (hquote : c ≠ '"') (hslash : c ≠ '\\') (h : StringInside cs) :
      StringInside (c :: cs)
  | escape {c : Char} {cs : List Char} (hline : c ≠ '\n') (h : StringInside cs) : StringInside ('\\' :: c :: cs)

/-- The inside of a block comment: a star takes the next character with it, and this is not a slash. -/
inductive CommentInside : List Char → Prop
  | nil : CommentInside []
  | plain {c : Char} {cs : List Char} (hstar : c ≠ '*') (h : CommentInside cs) : CommentInside (c :: cs)
  | star {c : Char} {cs : List Char} (hslash : c ≠ '/') (h : CommentInside cs) : CommentInside ('*' :: c :: cs)

inductive Rule : Token.Kind → List Char → Prop
  | blank {c : Char} {cs : List Char} (hc : Token.isSpace c = true) (h : ∀ d ∈ cs, Token.isSpace d = true) :
      Rule .blank (c :: cs)
  | line {cs : List Char} (h : ∀ d ∈ cs, d ≠ '\n') : Rule .comment ('/' :: '/' :: cs)
  | block {cs : List Char} (h : CommentInside cs) : Rule .comment ('/' :: '*' :: (cs ++ ['*', '/']))
  | ident {c : Char} {cs : List Char} (hc : Token.isIdentStart c = true)
      (h : ∀ d ∈ cs, Token.isIdentRest d = true) : Rule .ident (c :: cs)
  | number {c : Char} {cs : List Char} (hc : c.isDigit = true) (h : ∀ d ∈ cs, Token.isIdentRest d = true) :
      Rule .number (c :: cs)
  | str {cs : List Char} (h : StringInside cs) : Rule .str ('"' :: (cs ++ ['"']))
  | char {c : Char} (hquote : c ≠ '\'') (hslash : c ≠ '\\') : Rule .char ['\'', c, '\'']
  | escape {c : Char} (hline : c ≠ '\n') : Rule .char ['\'', '\\', c, '\'']
  | lparen : Rule .lparen ['(']
  | rparen : Rule .rparen [')']
  | comma : Rule .comma [',']
  | pair {c d : Char} (h : Token.isPairOperator c d = true) : Rule .other [c, d]
  | single {c : Char} (hspace : Token.isSpace c = false) (hword : Token.isIdentRest c = false)
      (hmark : c ∉ ['(', ')', ',']) : Rule .other [c]

/-- The rules take `p` from the front of the characters: no longer beginning is a token of any kind. -/
structure Longest (kind : Token.Kind) (p cs : List Char) : Prop where
  rule : Rule kind p
  begins : p <+: cs
  longest {k : Token.Kind} {q : List Char} (h : Rule k q) (hq : q <+: cs) :
    q.length < p.length ∨ q = p ∧ k = kind

/-- The characters open a string or a block comment and never close it. Of the inside, `p` has all that is well
formed. -/
inductive Unclosed (p cs : List Char) : Prop
  | str {inside : List Char} (hp : p = '"' :: inside) (h : StringInside inside) (begins : p <+: cs)
      (longest : ∀ q, StringInside q → '"' :: q <+: cs → q.length ≤ inside.length)
      (hopen : ∀ q, StringInside q → ¬ '"' :: (q ++ ['"']) <+: cs)
  | comment {inside : List Char} (hp : p = '/' :: '*' :: inside) (h : CommentInside inside) (begins : p <+: cs)
      (longest : ∀ q, CommentInside q → '/' :: '*' :: q <+: cs → q.length ≤ inside.length)
      (hopen : ∀ q, CommentInside q → ¬ '/' :: '*' :: (q ++ ['*', '/']) <+: cs)

def Taken (kind : Token.Kind) (p cs : List Char) : Prop :=
  Longest kind p cs ∧ (∀ q, ¬ Unclosed q cs) ∨ kind = .other ∧ Unclosed p cs

section Insides
variable {cs rest : List Char}

/-- The inside of a string is passed over as a whole. -/
theorem StringInside.read (h : StringInside cs) (rest : List Char) : Token.stringBody (cs ++ rest) =
    ((Token.stringBody rest).1 + cs.length, (Token.stringBody rest).2) := by
  induction h with
  | nil => rfl
  | plain hquote hslash _ ih =>
    rw [List.cons_append, Token.stringBody.eq_def]
    simp [hquote, hslash, ih, Nat.add_assoc]
  | escape hline _ ih => simp [Token.stringBody, hline, ih, Nat.add_assoc]

theorem StringInside.closed (h : StringInside cs) (rest : List Char) :
    Token.stringBody (cs ++ '"' :: rest) = (cs.length, true) := by
  rw [h.read, Token.stringBody.eq_def]
  simp

theorem StringInside.length_le {text : List Char} (h : StringInside cs) (hcs : cs <+: text) :
    cs.length ≤ (Token.stringBody text).1 := by
  obtain ⟨rest, rfl⟩ := hcs
  rw [h.read]
  exact Nat.le_add_left ..

theorem exists_stringInside (cs : List Char) : ∃ inside rest, cs = inside ++ rest ∧ StringInside inside ∧
    Token.stringBody cs = (inside.length, decide (rest.head? = some '"')) := by
  fun_induction Token.stringBody cs with
  | case1 => exact ⟨[], [], rfl, .nil, rfl⟩
  | case2 cs => exact ⟨[], '"' :: cs, rfl, .nil, rfl⟩
  | case3 => exact ⟨[], ['\\'], rfl, .nil, rfl⟩
  | case4 rest => exact ⟨[], '\\' :: '\n' :: rest, rfl, .nil, rfl⟩
  | case5 e cs hline n closed hbody _ ih =>
    obtain ⟨inside, rest, rfl, hinside, hread⟩ := ih
    rw [hbody] at hread
    cases hread
    exact ⟨'\\' :: e :: inside, rest, rfl, .escape hline hinside, rfl⟩
  | case6 c cs hquote hslash n closed hbody ih =>
    obtain ⟨inside, rest, rfl, hinside, hread⟩ := ih
    rw [hbody] at hread
    cases hread
    exact ⟨c :: inside, rest, rfl, .plain hquote hslash hinside, rfl⟩

/-- The inside of a block comment is passed over as a whole. -/
theorem CommentInside.read (h : CommentInside cs) (rest : List Char) : Token.commentBody (cs ++ rest) =
    ((Token.commentBody rest).1 + cs.length, (Token.commentBody rest).2) := by
  induction h with
  | nil => rfl
  | plain hstar _ ih =>
    rw [List.cons_append, Token.commentBody.eq_def]
    simp [hstar, ih, Nat.add_assoc]
  | star hslash _ ih => simp [Token.commentBody, hslash, ih, Nat.add_assoc]

theorem CommentInside.closed (h : CommentInside cs) (rest : List Char) :
    Token.commentBody (cs ++ (['*', '/'] ++ rest)) = (cs.length, true) := by
  rw [h.read, Token.commentBody.eq_def]
  simp

theorem CommentInside.length_le {text : List Char} (h : CommentInside cs) (hcs : cs <+: text) :
    cs.length ≤ (Token.commentBody text).1 := by
  obtain ⟨rest, rfl⟩ := hcs
  rw [h.read]
  exact Nat.le_add_left ..

theorem exists_commentInside (cs : List Char) : ∃ inside rest, cs = inside ++ rest ∧ CommentInside inside ∧
    Token.commentBody cs = (inside.length, decide (['*', '/'] <+: rest)) := by
  fun_induction Token.commentBody cs with
  | case1 => exact ⟨[], [], rfl, .nil, rfl⟩
  | case2 => exact ⟨[], ['*'], rfl, .nil, rfl⟩
  | case3 rest => exact ⟨[], '*' :: '/' :: rest, rfl, .nil, by simp⟩
  | case4 e cs hslash n closed hbody ih =>
    obtain ⟨inside, rest, rfl, hinside, hread⟩ := ih
    rw [hbody] at hread
    cases hread
    exact ⟨'*' :: e :: inside, rest, rfl, .star hslash hinside, rfl⟩
  | case5 c cs hstar n closed hbody ih =>
    obtain ⟨inside, rest, rfl, hinside, hread⟩ := ih
    rw [hbody] at hread
    cases hread
    exact ⟨c :: inside, rest, rfl, .plain hstar hinside, rfl⟩

end Insides

section Starts
variable {kind : Token.Kind} {c : Char} {q : List Char}

theorem Rule.of_space (h : Rule kind (c :: q)) (hc : Token.isSpace c = true) :
    kind = .blank ∧ ∀ d ∈ q, Token.isSpace d = true := by
  cases h with
  | blank _ h => exact ⟨rfl, h⟩
  | ident hident => simp [not_space_of_rest (rest_of_start hident)] at hc
  | number hdigit => simp [not_space_of_rest (rest_of_digit hdigit)] at hc
  | pair h => simp [(Plain.of_pair h).1.space] at hc
  | single hspace => simp [hspace] at hc
  | line | block | str | char | escape | lparen | rparen | comma => exact absurd hc (by decide)

theorem Rule.of_ident (h : Rule kind (c :: q)) (hc : Token.isIdentStart c = true) :
    kind = .ident ∧ ∀ d ∈ q, Token.isIdentRest d = true := by
  cases h with
  | blank hspace => simp [not_space_of_rest (rest_of_start hc)] at hspace
  | ident _ h => exact ⟨rfl, h⟩
  | number hdigit => simp [not_start_of_digit hdigit] at hc
  | pair h => simp [(Plain.of_pair h).1.ident] at hc
  | single _ hword => simp [rest_of_start hc] at hword
  | line | block | str | char | escape | lparen | rparen | comma => exact absurd hc (by decide)

theorem Rule.of_digit (h : Rule kind (c :: q)) (hc : c.isDigit = true) :
    kind = .number ∧ ∀ d ∈ q, Token.isIdentRest d = true := by
  cases h with
  | blank hspace => simp [not_space_of_rest (rest_of_digit hc)] at hspace
  | ident hident => simp [not_start_of_digit hc] at hident
  | number _ h => exact ⟨rfl, h⟩
  | pair h => simp [(Plain.of_pair h).1.digit] at hc
  | single _ hword => simp [rest_of_digit hc] at hword
  | line | block | str | char | escape | lparen | rparen | comma => exact absurd hc (by decide)

theorem Rule.of_plain (h : Rule kind (c :: q)) (hc : Plain c) (hne : c ≠ '/') :
    kind = .other ∧ (q = [] ∨ ∃ d, q = [d] ∧ Token.isPairOperator c d = true) := by
  have hmark := hc.mark
  cases h with
  | blank hspace => simp [hc.space] at hspace
  | ident hident => simp [hc.ident] at hident
  | number hdigit => simp [hc.digit] at hdigit
  | pair h => exact ⟨rfl, .inr ⟨_, rfl, h⟩⟩
  | single => exact ⟨rfl, .inl rfl⟩
  | line | block => exact absurd rfl hne
  | str | char | escape | lparen | rparen | comma => simp at hmark

theorem Rule.of_bracket (h : Rule kind (c :: q)) (hc : c ∈ ['(', ')', ',']) :
    q = [] ∧ kind = (Token.lexeme c []).1 := by
  simp only [List.mem_cons, List.not_mem_nil, or_false] at hc
  cases h with
  | lparen | rparen | comma => exact ⟨rfl, rfl⟩
  | line | block | str | char | escape => simp at hc
  | single _ _ hmark => simp [hc] at hmark
  | blank h | ident h | number h => rcases hc with rfl | rfl | rfl <;> exact absurd h (by decide)
  | pair h => rcases hc with rfl | rfl | rfl <;> simp [Token.isPairOperator] at h

theorem Rule.of_slash (h : Rule kind ('/' :: q)) :
    kind = .comment ∧ (∃ cs, q = '/' :: cs ∧ ∀ d ∈ cs, d ≠ '\n') ∨
      kind = .comment ∧ (∃ cs, q = '*' :: (cs ++ ['*', '/']) ∧ CommentInside cs) ∨ kind = .other ∧ q = [] := by
  cases h with
  | line h => exact .inl ⟨rfl, _, rfl, h⟩
  | block h => exact .inr (.inl ⟨rfl, _, rfl, h⟩)
  | single => exact .inr (.inr ⟨rfl, rfl⟩)
  | blank h | ident h | number h => exact absurd h (by decide)
  | pair h => simp [Token.isPairOperator] at h

theorem Rule.of_quote (h : Rule kind ('\'' :: q)) :
    kind = .char ∧ (∃ d, q = [d, '\''] ∧ d ≠ '\'' ∧ d ≠ '\\') ∨
      kind = .char ∧ (∃ d, q = ['\\', d, '\''] ∧ d ≠ '\n') ∨ kind = .other ∧ q = [] := by
  cases h with
  | char hquote hslash => exact .inl ⟨rfl, _, rfl, hquote, hslash⟩
  | escape hline => exact .inr (.inl ⟨rfl, _, rfl, hline⟩)
  | single => exact .inr (.inr ⟨rfl, rfl⟩)
  | blank h | ident h | number h => exact absurd h (by decide)
  | pair h => simp [Token.isPairOperator] at h

theorem Rule.of_string (h : Rule kind ('"' :: q)) :
    kind = .str ∧ (∃ cs, q = cs ++ ['"'] ∧ StringInside cs) ∨ kind = .other ∧ q = [] := by
  cases h with
  | str h => exact .inl ⟨rfl, _, rfl, h⟩
  | single => exact .inr ⟨rfl, rfl⟩
  | blank h | ident h | number h => exact absurd h (by decide)
  | pair h => simp [Token.isPairOperator] at h

end Starts

section Longest
variable {kind : Token.Kind} {c : Char} {cs : List Char}

/-- What is at least as long as all tokens that start with the same character is longest. -/
theorem longest_of {p : List Char} (hrule : Rule kind (c :: p)) (hp : p <+: cs)
    (hall : ∀ {k : Token.Kind} {q : List Char}, Rule k (c :: q) → q <+: cs → q.length < p.length ∨ q = p ∧ k = kind) :
    Longest kind (c :: p) (c :: cs) where
  rule := hrule
  begins := List.cons_prefix_cons.mpr ⟨rfl, hp⟩
  longest := by
    intro k q h hq
    cases q with
    | nil => cases h
    | cons d q =>
      obtain ⟨rfl, hbegins⟩ := List.cons_prefix_cons.mp hq
      exact (hall h hbegins).imp Nat.succ_lt_succ fun hsame => ⟨by rw [hsame.1], hsame.2⟩

/-- A beginning of one class is no longer than the run of that class. -/
theorem run_longest {p : Char → Bool} {q : List Char} (hq : q <+: cs) (hp : ∀ d ∈ q, p d = true) :
    q.length < (cs.takeWhile p).length ∨ q = cs.takeWhile p := by
  obtain ⟨rest, rfl⟩ := hq
  rw [List.takeWhile_append_of_pos hp]
  cases hrest : rest.takeWhile p with
  | nil => exact .inr (List.append_nil q).symm
  | cons d ds => exact .inl (by simp)

theorem longest_run {p : Char → Bool} (hrule : Rule kind (c :: cs.takeWhile p))
    (hall : ∀ {k : Token.Kind} {q : List Char}, Rule k (c :: q) → k = kind ∧ ∀ d ∈ q, p d = true) :
    Longest kind (c :: cs.takeWhile p) (c :: cs) := by
  refine longest_of hrule (List.takeWhile_prefix p) ?_
  intro k q h hq
  obtain ⟨rfl, hp⟩ := hall h
  exact (run_longest hq hp).imp_right fun hsame => ⟨hsame, rfl⟩

/-- Where no token has two characters, one stands alone. -/
theorem longest_alone (hrule : Rule kind [c])
    (hall : ∀ {k : Token.Kind} {q : List Char}, Rule k (c :: q) → q <+: cs → q = [] ∧ k = kind) :
    Longest kind [c] (c :: cs) :=
  longest_of hrule List.nil_prefix fun h hq => .inr (hall h hq)

/-- What is longest is taken unless it is the first character of a string or block comment without an end. -/
theorem Longest.taken {p : List Char} (hclosed : kind ≠ .other ∨ c ≠ '"' ∧ (c = '/' → cs.head? ≠ some '*'))
    (h : Longest kind p (c :: cs)) : Taken kind p (c :: cs) := by
  refine .inl ⟨h, fun q hq => ?_⟩
  obtain ⟨hrule, ⟨rest, hrest⟩, -⟩ := h
  cases p with
  | nil => cases hrule
  | cons d p =>
    obtain ⟨rfl, rfl⟩ := List.cons.inj hrest
    cases hq with
    | str hp _ hbegins _ hopen =>
      subst hp
      obtain rfl := (List.cons_prefix_cons.mp hbegins).1
      rcases hrule.of_string with ⟨rfl, inside, rfl, hinside⟩ | ⟨rfl, rfl⟩
      · exact hopen inside hinside ⟨rest, rfl⟩
      · simp at hclosed
    | comment hp _ hbegins _ hopen =>
      subst hp
      obtain ⟨rfl, hstar⟩ := List.cons_prefix_cons.mp hbegins
      rcases hrule.of_slash with ⟨rfl, inside, rfl, _⟩ | ⟨rfl, inside, rfl, hinside⟩ | ⟨rfl, rfl⟩
      · exact absurd (List.cons_prefix_cons.mp hstar).1 (by decide)
      · exact hopen inside hinside ⟨rest, rfl⟩
      · obtain ⟨after, rfl⟩ := hstar
        simp at hclosed

def Obeys (c : Char) (cs : List Char) : Prop :=
  Taken (Token.lexeme c cs).1 (c :: cs.take (Token.lexeme c cs).2) (c :: cs)

theorem take_run (p : Char → Bool) (cs : List Char) : cs.take (cs.takeWhile p).length = cs.takeWhile p :=
  (List.prefix_iff_eq_take.mp (List.takeWhile_prefix p)).symm

theorem obeys_space (hc : Token.isSpace c = true) : Obeys c cs := by
  rw [Obeys, lexeme_blank hc, take_run]
  exact (longest_run (.blank hc fun d hd => List.mem_takeWhile_imp hd) fun h => h.of_space hc).taken (.inl nofun)

theorem obeys_ident (hc : Token.isIdentStart c = true) : Obeys c cs := by
  rw [Obeys, lexeme_ident hc, take_run]
  exact (longest_run (.ident hc fun d hd => List.mem_takeWhile_imp hd) fun h => h.of_ident hc).taken (.inl nofun)

theorem obeys_digit (hc : c.isDigit = true) : Obeys c cs := by
  rw [Obeys, lexeme_number hc, take_run]
  exact (longest_run (.number hc fun d hd => List.mem_takeWhile_imp hd) fun h => h.of_digit hc).taken (.inl nofun)

theorem obeys_bracket (hc : c ∈ ['(', ')', ',']) : Obeys c cs := by
  have hlex : ∃ kind, Token.lexeme c cs = (kind, 0) ∧ (Token.lexeme c []).1 = kind ∧ Rule kind [c] := by
    simp only [List.mem_cons, List.not_mem_nil, or_false] at hc
    rcases hc with rfl | rfl | rfl
    · exact ⟨_, rfl, rfl, .lparen⟩
    · exact ⟨_, rfl, rfl, .rparen⟩
    · exact ⟨_, rfl, rfl, .comma⟩
  obtain ⟨kind, hlex, hkind, hrule⟩ := hlex
  rw [Obeys, hlex, List.take_zero]
  refine (longest_alone hrule fun h _ => hkind ▸ h.of_bracket hc).taken (.inr ⟨?_, ?_⟩) <;>
    rintro rfl <;> simp at hc

theorem single_mark (hc : c ∈ ['/', '\'', '"']) : Rule .other [c] := by
  simp only [List.mem_cons, List.not_mem_nil, or_false] at hc
  rcases hc with rfl | rfl | rfl <;> exact .single (by decide) (by decide) (by decide)

theorem obeys_plain (hc : Plain c) (hne : c ≠ '/') : Obeys c cs := by
  have hword : Token.isIdentRest c = false := by
    have halpha := hc.ident
    have hdigit := hc.digit
    simp only [Token.isIdentStart, Bool.or_eq_false_iff] at halpha
    simp [Token.isIdentRest, Char.isAlphanum, halpha, hdigit]
  have hmark : c ∉ ['(', ')', ','] := fun hmem => hc.mark (by simp at hmem ⊢; tauto)
  have hsingle : Rule .other [c] := .single hc.space hword hmark
  have hclosed : c ≠ '"' ∧ (c = '/' → cs.head? ≠ some '*') :=
    ⟨fun hquote => hc.mark (by simp [hquote]), fun hslash => absurd hslash hne⟩
  rw [Obeys, hc.lexeme hne]
  cases hpair : cs.head?.any (Token.isPairOperator c) with
  | true =>
    cases cs with
    | nil => cases hpair
    | cons d cs =>
      refine Longest.taken (.inr hclosed) (longest_of (.pair hpair) ⟨cs, rfl⟩ ?_)
      intro k q h hq
      obtain ⟨rfl, rfl | ⟨e, rfl, _⟩⟩ := h.of_plain hc hne
      · exact .inl (by simp)
      · obtain ⟨rfl, _⟩ := List.cons_prefix_cons.mp hq
        exact .inr ⟨rfl, rfl⟩
  | false =>
    refine Longest.taken (.inr hclosed) (longest_alone hsingle ?_)
    intro k q h hq
    obtain ⟨rfl, rfl | ⟨e, rfl, he⟩⟩ := h.of_plain hc hne
    · exact ⟨rfl, rfl⟩
    · obtain ⟨rest, rfl⟩ := hq
      simp [he] at hpair

theorem obeys_line : Obeys '/' ('/' :: cs) := by
  rw [Obeys, lexeme_slash, Token.slashLexeme, List.take_succ_cons, take_run]
  have hrule : Rule .comment ('/' :: '/' :: cs.takeWhile (· ≠ '\n')) :=
    .line fun d hd => by simpa using List.mem_takeWhile_imp hd
  refine Longest.taken (.inl nofun) (longest_of hrule (List.cons_prefix_cons.mpr ⟨rfl, List.takeWhile_prefix _⟩) ?_)
  intro k q h hq
  rcases h.of_slash with ⟨rfl, q, rfl, hall⟩ | ⟨rfl, ⟨q, rfl, _⟩⟩ | ⟨rfl, rfl⟩
  · have hrun := run_longest (p := (· ≠ '\n')) (List.cons_prefix_cons.mp hq).2 (by simpa using hall)
    exact hrun.imp Nat.succ_lt_succ fun hsame => ⟨by rw [hsame], rfl⟩
  · exact absurd (List.cons_prefix_cons.mp hq).1 (by decide)
  · exact .inl (by simp)

theorem obeys_block : Obeys '/' ('*' :: cs) := by
  obtain ⟨inside, rest, rfl, hinside, hbody⟩ := exists_commentInside cs
  rw [Obeys, lexeme_slash, Token.slashLexeme, hbody]
  by_cases hclosed : ['*', '/'] <+: rest
  · obtain ⟨rest, rfl⟩ := hclosed
    have htake : ('*' :: (inside ++ (['*', '/'] ++ rest))).take (inside.length + 3) =
        '*' :: (inside ++ ['*', '/']) := by
      rw [List.take_succ_cons, ← List.append_assoc, List.take_left' (by simp)]
    simp only [List.prefix_append, decide_true, if_true, htake]
    refine Longest.taken (.inl nofun) (longest_of (.block hinside) ⟨rest, by simp⟩ ?_)
    intro k q h hq
    rcases h.of_slash with ⟨rfl, q, rfl, _⟩ | ⟨rfl, ⟨q, rfl, hq'⟩⟩ | ⟨rfl, rfl⟩
    · exact absurd (List.cons_prefix_cons.mp hq).1 (by decide)
    · obtain ⟨after, hafter⟩ := (List.cons_prefix_cons.mp hq).2
      rw [List.append_assoc] at hafter
      have hread := hq'.closed after
      rw [hafter, hbody] at hread
      obtain ⟨rfl, _⟩ := List.append_inj hafter (Prod.mk.inj hread).1.symm
      exact .inr ⟨rfl, rfl⟩
    · exact .inl (by simp)
  · have htake : ('*' :: (inside ++ rest)).take (inside.length + 1) = '*' :: inside := by simp
    simp only [hclosed, decide_false, Bool.false_eq_true, if_false, htake]
    refine .inr ⟨rfl, .comment rfl hinside ⟨rest, by simp⟩ ?_ ?_⟩
    · intro q hq hbegins
      have hle := hq.length_le (List.cons_prefix_cons.mp (List.cons_prefix_cons.mp hbegins).2).2
      rwa [hbody] at hle
    · intro q hq hbegins
      obtain ⟨after, hafter⟩ := (List.cons_prefix_cons.mp (List.cons_prefix_cons.mp hbegins).2).2
      have hread := hq.closed after
      rw [List.append_assoc] at hafter
      rw [hafter, hbody] at hread
      simp [hclosed] at hread

theorem obeys_slash (cs : List Char) : Obeys '/' cs := by
  by_cases hline : ∃ rest, cs = '/' :: rest
  · obtain ⟨rest, rfl⟩ := hline
    exact obeys_line
  by_cases hblock : ∃ rest, cs = '*' :: rest
  · obtain ⟨rest, rfl⟩ := hblock
    exact obeys_block
  have hlex : Token.slashLexeme cs = (.other, 0) := by
    unfold Token.slashLexeme
    split
    · exact absurd ⟨_, rfl⟩ hline
    · exact absurd ⟨_, rfl⟩ hblock
    · rfl
  have hstar : cs.head? ≠ some '*' := fun hhead => hblock (List.head?_eq_some_iff.mp hhead)
  rw [Obeys, lexeme_slash, hlex]
  refine Longest.taken (.inr ⟨by decide, fun _ => hstar⟩) (longest_alone (single_mark (by simp)) ?_)
  rintro k q h ⟨rest, rfl⟩
  rcases h.of_slash with ⟨rfl, q, rfl, _⟩ | ⟨rfl, ⟨q, rfl, _⟩⟩ | ⟨rfl, rfl⟩
  · exact absurd ⟨_, List.cons_append⟩ hline
  · exact absurd ⟨_, List.cons_append⟩ hblock
  · exact ⟨rfl, rfl⟩

theorem obeys_quote (cs : List Char) : Obeys '\'' cs := by
  rw [Obeys, lexeme_quote]
  unfold Token.quoteLexeme
  split
  · rename_i e rest
    split
    · rename_i hline
      refine Longest.taken (.inr ⟨by decide, fun hslash => absurd hslash (by decide)⟩) (longest_alone (single_mark (by simp)) ?_)
      intro k q h hq
      rcases h.of_quote with ⟨rfl, d, rfl, _, hslash⟩ | ⟨rfl, d, rfl, hd⟩ | ⟨rfl, rfl⟩
      · exact absurd (List.cons_prefix_cons.mp hq).1 hslash
      · simp [hline, hd] at hq
      · exact ⟨rfl, rfl⟩
    · rename_i hline
      refine Longest.taken (.inl nofun) (longest_of (.escape hline) ⟨rest, rfl⟩ ?_)
      intro k q h hq
      rcases h.of_quote with ⟨rfl, d, rfl, _, hslash⟩ | ⟨rfl, d, rfl, hd⟩ | ⟨rfl, rfl⟩
      · exact absurd (List.cons_prefix_cons.mp hq).1 hslash
      · obtain ⟨rfl, _⟩ := List.cons_prefix_cons.mp (List.cons_prefix_cons.mp hq).2
        exact .inr ⟨rfl, rfl⟩
      · exact .inl (by simp)
  · rename_i c rest hescape
    split
    · rename_i hmark
      refine Longest.taken (.inr ⟨by decide, fun hslash => absurd hslash (by decide)⟩) (longest_alone (single_mark (by simp)) ?_)
      intro k q h hq
      rcases h.of_quote with ⟨rfl, d, rfl, hquote, hslash⟩ | ⟨rfl, d, rfl, hd⟩ | ⟨rfl, rfl⟩
      · obtain ⟨rfl, _⟩ := List.cons_prefix_cons.mp hq
        exact absurd hmark (by simp [hquote, hslash])
      · obtain ⟨hslash, hq⟩ := List.cons_prefix_cons.mp hq
        obtain ⟨rfl, tail, rfl⟩ := List.cons_prefix_cons.mp hq
        exact absurd rfl (hescape tail hslash.symm)
      · exact ⟨rfl, rfl⟩
    · rename_i hmark
      rw [not_or] at hmark
      refine Longest.taken (.inl nofun) (longest_of (.char hmark.1 hmark.2) ⟨rest, rfl⟩ ?_)
      intro k q h hq
      rcases h.of_quote with ⟨rfl, d, rfl, _⟩ | ⟨rfl, d, rfl, hd⟩ | ⟨rfl, rfl⟩
      · obtain ⟨rfl, _⟩ := List.cons_prefix_cons.mp hq
        exact .inr ⟨rfl, rfl⟩
      · exact absurd (List.cons_prefix_cons.mp hq).1.symm hmark.2
      · exact .inl (by simp)
  · rename_i hescape hplain
    refine Longest.taken (.inr ⟨by decide, fun hslash => absurd hslash (by decide)⟩) (longest_alone (single_mark (by simp)) ?_)
    rintro k q h ⟨rest, rfl⟩
    rcases h.of_quote with ⟨rfl, d, rfl, _⟩ | ⟨rfl, d, rfl, _⟩ | ⟨rfl, rfl⟩
    · exact absurd rfl (hplain d rest)
    · exact absurd rfl (hescape d rest)
    · exact ⟨rfl, rfl⟩

theorem obeys_string (cs : List Char) : Obeys '"' cs := by
  obtain ⟨inside, rest, rfl, hinside, hbody⟩ := exists_stringInside cs
  rw [Obeys, lexeme_string, hbody]
  by_cases hclosed : rest.head? = some '"'
  · obtain ⟨rest, rfl⟩ := List.head?_eq_some_iff.mp hclosed
    have htake : (inside ++ '"' :: rest).take (inside.length + 1) = inside ++ ['"'] := by
      rw [← List.singleton_append, ← List.append_assoc, List.take_left' (by simp)]
    simp only [List.head?_cons, decide_true, if_true, htake]
    refine Longest.taken (.inl nofun) (longest_of (.str hinside) ⟨rest, by simp⟩ ?_)
    intro k q h hq
    rcases h.of_string with ⟨rfl, q, rfl, hq'⟩ | ⟨rfl, rfl⟩
    · obtain ⟨after, hafter⟩ := hq
      rw [List.append_assoc] at hafter
      have hread := hq'.closed after
      rw [← List.singleton_append, hafter, hbody] at hread
      obtain ⟨rfl, _⟩ := List.append_inj hafter (Prod.mk.inj hread).1.symm
      exact .inr ⟨rfl, rfl⟩
    · exact .inl (by simp)
  · have htake : (inside ++ rest).take inside.length = inside := by simp
    simp only [hclosed, decide_false, Bool.false_eq_true, if_false, htake]
    refine .inr ⟨rfl, .str rfl hinside ⟨rest, by simp⟩ ?_ ?_⟩
    · intro q hq hbegins
      have hle := hq.length_le (List.cons_prefix_cons.mp hbegins).2
      rwa [hbody] at hle
    · intro q hq hbegins
      obtain ⟨after, hafter⟩ := (List.cons_prefix_cons.mp hbegins).2
      have hread := hq.closed after
      rw [List.append_assoc] at hafter
      rw [← List.singleton_append, hafter, hbody] at hread
      simp [hclosed] at hread

theorem obeys (c : Char) (cs : List Char) : Obeys c cs := by
  rcases class_cases c with hc | hc | hc | hc | hc
  · exact obeys_space hc
  · exact obeys_ident hc
  · exact obeys_digit hc
  · simp only [List.mem_cons, List.not_mem_nil, or_false] at hc
    rcases hc with rfl | rfl | rfl | rfl | rfl
    · exact obeys_bracket (by simp)
    · exact obeys_bracket (by simp)
    · exact obeys_bracket (by simp)
    · exact obeys_quote cs
    · exact obeys_string cs
  · by_cases hne : c = '/'
    · subst hne
      exact obeys_slash cs
    · exact obeys_plain hc hne

end Longest

section Determined
variable {kind kind' : Token.Kind} {p p' cs : List Char}

theorem Longest.unique (h : Longest kind p cs) (h' : Longest kind' p' cs) : kind' = kind ∧ p' = p := by
  rcases h.longest h'.rule h'.begins with hlt | ⟨hp, hkind⟩
  · rcases h'.longest h.rule h.begins with hlt' | ⟨hp, hkind⟩
    · omega
    · exact ⟨hkind.symm, hp.symm⟩
  · exact ⟨hkind, hp⟩

theorem prefix_unique (h : p <+: cs) (h' : p' <+: cs) (hlength : p'.length = p.length) : p' = p :=
  (List.prefix_of_prefix_length_le h' h (Nat.le_of_eq hlength)).eq_of_length hlength

theorem Unclosed.unique (h : Unclosed p cs) (h' : Unclosed p' cs) : p' = p := by
  cases h with
  | str hp hin hbegins hlongest _ =>
    subst hp
    cases h' with
    | str hp' hin' hbegins' hlongest' _ =>
      subst hp'
      have hle := hlongest _ hin' hbegins'
      have hle' := hlongest' _ hin hbegins
      exact prefix_unique hbegins hbegins' (by simp; omega)
    | comment hp' _ hbegins' =>
      subst hp'
      obtain ⟨rest, rfl⟩ := hbegins
      exact absurd (List.cons_prefix_cons.mp hbegins').1 (by decide)
  | comment hp hin hbegins hlongest _ =>
    subst hp
    cases h' with
    | str hp' _ hbegins' =>
      subst hp'
      obtain ⟨rest, rfl⟩ := hbegins
      exact absurd (List.cons_prefix_cons.mp hbegins').1 (by decide)
    | comment hp' hin' hbegins' hlongest' _ =>
      subst hp'
      have hle := hlongest _ hin' hbegins'
      have hle' := hlongest' _ hin hbegins
      exact prefix_unique hbegins hbegins' (by simp; omega)

/-- The rules leave no choice. -/
theorem Taken.unique (h : Taken kind p cs) (h' : Taken kind' p' cs) : kind' = kind ∧ p' = p := by
  rcases h with ⟨h, hclosed⟩ | ⟨rfl, hopen⟩
  · rcases h' with ⟨h', -⟩ | ⟨-, hopen'⟩
    · exact h.unique h'
    · exact absurd hopen' (hclosed _)
  · rcases h' with ⟨-, hclosed'⟩ | ⟨rfl, hopen'⟩
    · exact absurd hopen (hclosed' _)
    · exact ⟨rfl, hopen.unique hopen'⟩

end Determined

/-- Tokens that stand one after the other without gaps and make up the text. -/
structure Covers (text : String) (ts : List Token) : Prop where
  nonempty : ∀ t ∈ ts, t.text ≠ ""
  joined : String.join (ts.map Token.text) = text
  offset {before after : List Token} {t : Token} (h : ts = before ++ t :: after) :
    t.offset = (String.join (before.map Token.text)).utf8ByteSize

/-- The token can be cut out of the text at its place: both ends lie between characters, and what stands between
them is its text. No end is beyond the text, so offsets fit a 32-bit word where the size of the text does. -/
structure CutFrom (text : String) (t : Token) : Prop where
  start : String.Pos.Raw.IsValid text ⟨t.offset⟩
  stop : String.Pos.Raw.IsValid text ⟨t.stop⟩
  within : t.stop ≤ text.utf8ByteSize
  extract : String.Pos.Raw.extract text ⟨t.offset⟩ ⟨t.stop⟩ = t.text
  slice : Text.slice text.toList t.offset t.stop = t.text.toList

section Covering
variable {text : String} {ls : List Lexeme}

theorem byteLength_eq (s : String) : Text.byteLength s.toList = s.utf8ByteSize := by
  have hlen : ∀ cs : List Char, Text.byteLength cs = String.utf8Len cs := by
    intro cs
    induction cs with
    | nil => rfl
    | cons c cs ih => rw [Text.byteLength, String.utf8Len_cons, ih, Nat.add_comm]
  rw [hlen, String.utf8Len_toList]

theorem joined_lay (offset : Nat) (ls : List Lexeme) :
    String.join ((lay offset ls).map Token.text) = String.ofList (spelled ls) := by
  induction ls generalizing offset with
  | nil => rfl
  | cons l ls ih => simp [lay, ih, spelled_cons]

theorem Lexes.scanned (h : Lexes text.toList ls) : Token.scan text = lay 0 ls := h.scan 0

theorem Lexes.covers (h : Lexes text.toList ls) : Covers text (lay 0 ls) where
  nonempty := by
    intro t ht hempty
    have hpos := (lay_spaced h.ne_nil 0).nonempty t ht
    simp [Token.stop, hempty, Text.byteLength] at hpos
  joined := by rw [joined_lay, ← h.spelled, String.ofList_toList]
  offset := by
    intro before after t hsplit
    obtain ⟨as, bs, rfl, rfl, hrest⟩ := lay_split hsplit
    cases bs with
    | nil => cases hrest
    | cons l bs =>
      obtain ⟨rfl, _⟩ := List.cons.inj hrest
      rw [joined_lay, ← byteLength_eq, String.toList_ofList]
      exact Nat.zero_add _

theorem Lexes.taken {cs : List Char} {as bs : List Lexeme} {l : Lexeme} (h : Lexes cs (as ++ l :: bs)) :
    Taken l.kind l.chars (Proofs.spelled (l :: bs)) := by
  obtain ⟨rest, -, hl⟩ := h.after
  cases hl with
  | @cons c cs rest _ _ hlex hrest =>
    have htaken := obeys c (cs ++ rest)
    rw [Obeys, hlex, List.take_left' rfl] at htaken
    rwa [spelled_cons, ← hrest.spelled]

theorem Covers.cut {ts : List Token} (h : Covers text ts) : ∀ t ∈ ts, CutFrom text t := by
  intro t ht
  obtain ⟨before, after, rfl⟩ := List.append_of_mem ht
  let left := String.join (before.map Token.text)
  let right := String.join (after.map Token.text)
  have htext : text = left ++ t.text ++ right := by
    rw [← h.joined]
    simp [left, right, String.append_assoc]
  have hstart : t.offset = left.utf8ByteSize := h.offset rfl
  have hstop : t.stop = (left ++ t.text).utf8ByteSize := by
    rw [Token.stop, hstart, byteLength_eq, String.utf8ByteSize_append]
  constructor
  · rw [String.Pos.Raw.isValid_iff_exists_append]
    exact ⟨left, t.text ++ right, by rw [htext, String.append_assoc], by rw [hstart]; rfl⟩
  · rw [String.Pos.Raw.isValid_iff_exists_append]
    exact ⟨left ++ t.text, right, htext, by rw [hstop]; rfl⟩
  · rw [hstop, htext, String.utf8ByteSize_append (s := left ++ t.text)]
    exact Nat.le_add_right ..
  · have hcut := String.extract_of_valid left.toList t.text.toList right.toList
    simpa [htext, hstart, hstop, String.utf8Len_toList, String.append_assoc] using hcut
  · have hcut := slice_append left.toList t.text.toList right.toList
    rw [byteLength_eq, byteLength_eq, ← String.utf8ByteSize_append, ← hstart, ← hstop] at hcut
    simpa [htext] using hcut

end Covering

def AllTaken (ts : List Token) : Prop :=
  ∀ before t after, ts = before ++ t :: after →
    Taken t.kind t.text.toList (String.join ((t :: after).map Token.text)).toList

theorem scan_covers (text : String) : Covers text (Token.scan text) := by
  obtain ⟨ls, hls⟩ := exists_lexes text.toList
  exact hls.scanned ▸ hls.covers

theorem scan_taken (text : String) : AllTaken (Token.scan text) := by
  obtain ⟨ls, hls⟩ := exists_lexes text.toList
  intro before t after hsplit
  rw [hls.scanned] at hsplit
  obtain ⟨as, bs, rfl, -, hrest⟩ := lay_split hsplit
  cases bs with
  | nil => cases hrest
  | cons l bs =>
    rw [← hrest, joined_lay, String.toList_ofList]
    obtain ⟨rfl, _⟩ := List.cons.inj hrest
    simpa using hls.taken

/-- Scanning loses nothing: the tokens of a text, none of them empty, are the text cut into pieces, each at the place
that its offset says. Each is the longest piece that the rules allow where it starts, or an opening without its end. -/
theorem scan_lossless (text : String) :
    Covers text (Token.scan text) ∧ AllTaken (Token.scan text) ∧
    Token.tokenize text = (Token.scan text).filter (fun t => !t.kind.isTrivia) ∧
    ∀ t ∈ Token.scan text, CutFrom text t :=
  ⟨scan_covers text, scan_taken text, rfl, (scan_covers text).cut⟩

section Lexers
variable {text : String} {t : Token} {ts us : List Token}

theorem AllTaken.tail (h : AllTaken (t :: ts)) : AllTaken ts := fun before u after hsplit =>
  h (t :: before) u after (congrArg (t :: ·) hsplit)

theorem joined_cons (t : Token) (ts : List Token) :
    String.join ((t :: ts).map Token.text) = t.text ++ String.join (ts.map Token.text) := by
  simp

theorem join_eq_empty (hne : ∀ t ∈ ts, t.text ≠ "") (h : String.join (ts.map Token.text) = "") : ts = [] := by
  cases ts with
  | nil => rfl
  | cons t ts =>
    rw [joined_cons, String.append_eq_empty_iff] at h
    exact absurd h.1 (hne t List.mem_cons_self)

/-- Two ways to cut a text into pieces that the rules take have the same pieces. -/
theorem pieces_unique (hts : AllTaken ts) (hus : AllTaken us) (hnet : ∀ t ∈ ts, t.text ≠ "")
    (hneu : ∀ u ∈ us, u.text ≠ "") (h : String.join (ts.map Token.text) = String.join (us.map Token.text)) :
    ts.map (fun t => (t.kind, t.text)) = us.map fun t => (t.kind, t.text) := by
  induction ts generalizing us with
  | nil => rw [join_eq_empty hneu h.symm]
  | cons t ts ih =>
    cases us with
    | nil => exact absurd (join_eq_empty hnet h) (List.cons_ne_nil t ts)
    | cons u us =>
      have ht := hts [] t ts rfl
      have hu := hus [] u us rfl
      rw [h] at ht
      obtain ⟨hkind, htext⟩ := ht.unique hu
      have htext : u.text = t.text := String.toList_inj.mp htext
      rw [joined_cons, joined_cons, htext] at h
      have hrest := ih hts.tail hus.tail (fun v hv => hnet v (List.mem_cons_of_mem t hv))
        (fun v hv => hneu v (List.mem_cons_of_mem u hv)) (String.append_right_inj _ |>.mp h)
      rw [List.map_cons, List.map_cons, hkind, htext, hrest]

/-- Where a token stands is told by the pieces before it. -/
theorem Covers.eq_of_pieces (hts : Covers text ts) (hus : Covers text us)
    (h : ts.map (fun t => (t.kind, t.text)) = us.map fun t => (t.kind, t.text)) : ts = us := by
  have hlength : ts.length = us.length := by simpa using congrArg List.length h
  refine List.ext_getElem hlength fun i hi hi' => ?_
  have hpiece : (ts[i].kind, ts[i].text) = (us[i].kind, us[i].text) := by
    simpa [hi, hi'] using congrArg (·[i]?) h
  have hbefore : (ts.take i).map Token.text = (us.take i).map Token.text := by
    simpa [Function.comp_def] using congrArg (fun l => (l.take i).map Prod.snd) h
  have hsplit : ts = ts.take i ++ ts[i] :: ts.drop (i + 1) := by simp
  have hsplit' : us = us.take i ++ us[i] :: us.drop (i + 1) := by simp
  have hoffset : ts[i].offset = us[i].offset := by rw [hts.offset hsplit, hus.offset hsplit', hbefore]
  obtain ⟨hkind, htext⟩ := Prod.mk.inj hpiece
  calc ts[i] = ⟨ts[i].kind, ts[i].text, ts[i].offset⟩ := rfl
    _ = ⟨us[i].kind, us[i].text, us[i].offset⟩ := by rw [hkind, htext, hoffset]

/-- A lexer that cuts a text into pieces that the rules take gives the tokens of the scanner. -/
theorem scan_unique (hcovers : Covers text ts) (htaken : AllTaken ts) : ts = Token.scan text := by
  have hscan := scan_covers text
  exact hcovers.eq_of_pieces hscan (pieces_unique htaken (scan_taken text) hcovers.nonempty hscan.nonempty
    (hcovers.joined.trans hscan.joined.symm))

end Lexers

end Devicetree.Proofs
