import Devicetree.Proofs.ExprGrammar
import Devicetree.Proofs.Lexemes
import Devicetree.Proofs.Numerals

namespace Devicetree.Proofs

def isIdentifier (name : String) : Bool :=
  match name.toList with
  | [] => false
  | c :: cs => Token.isIdentStart c && cs.all Token.isIdentRest

/-- The expression has no part that the grammar cannot write. -/
def Writable : Expr → Prop
  | .lit (.num n) => 0 ≤ n
  | .lit (.char c) => c ≠ '\'' ∧ c ≠ '\\'
  | .ident name => isIdentifier name = true
  | .unary _ e => Writable e
  | .binary l _ r => Writable l ∧ Writable r
  | .cond c t e => Writable c ∧ Writable t ∧ Writable e

instance decidableWritable : (e : Expr) → Decidable (Writable e)
  | .lit (.num n) => inferInstanceAs (Decidable (0 ≤ n))
  | .lit (.char c) => inferInstanceAs (Decidable (c ≠ '\'' ∧ c ≠ '\\'))
  | .ident name => inferInstanceAs (Decidable (isIdentifier name = true))
  | .unary _ e => decidableWritable e
  | .binary l _ r =>
    have := decidableWritable l
    have := decidableWritable r
    inferInstanceAs (Decidable (Writable l ∧ Writable r))
  | .cond c t e =>
    have := decidableWritable c
    have := decidableWritable t
    have := decidableWritable e
    inferInstanceAs (Decidable (Writable c ∧ Writable t ∧ Writable e))

/-- What the text of an expression is scanned and parsed as. It starts with a character that can stand after a sign
or a blank, it is found again in front of any delimiter, and its tokens are a signed operand. -/
structure Rereads (e : Expr) (ls : List Lexeme) : Prop where
  start : ∃ c cs, e.render.toList = c :: cs ∧ Token.isSpace c = false ∧ c ≠ '='
  lexes {rest : List Char} {ms : List Lexeme} (ha : Apart rest) (hrest : Lexes rest ms) :
    Lexes (e.render.toList ++ rest) (ls ++ ms)
  derives {ts : List Token} (h : ts.map Lexeme.ofToken = ls.filter Lexeme.carries) :
    Derives .signed ts e

section Pieces

theorem apart_blank (rest : List Char) : Apart (' ' :: rest) := by simp [Apart]

theorem apart_rparen (rest : List Char) : Apart (')' :: rest) := by simp [Apart]

/-- An operator with a blank on both sides. -/
theorem between_lexes {symbol : List Char} {c : Char} {cs : List Char} {ls : List Lexeme}
    (hs : Formed .other symbol) (h : Lexes (c :: cs) ls) (hc : Token.isSpace c = false) :
    Lexes (' ' :: symbol ++ ' ' :: c :: cs) (gap :: ⟨.other, symbol⟩ :: gap :: ls) := by
  have hright := hs.lexes (hs.follows_apart (by simp) (apart_blank (c :: cs))) (gap_lexes h (by simpa using hc))
  have hfirst := (hs.edges (by simp)).1
  cases symbol with
  | nil => exact absurd rfl hs.ne_nil
  | cons d ds => exact gap_lexes hright hfirst

/-- Where the lexemes of tokens are known, the tokens fall apart as the lexemes do. -/
theorem split_tokens {ts : List Token} {a b : List Lexeme} {l : Lexeme}
    (h : ts.map Lexeme.ofToken = a ++ l :: b) :
    ∃ us t vs, ts = us ++ t :: vs ∧ us.map Lexeme.ofToken = a ∧ vs.map Lexeme.ofToken = b ∧
      t.kind = l.kind ∧ t.text.toList = l.chars := by
  obtain ⟨us, vs, rfl, hus, hvs⟩ := List.map_eq_append_iff.mp h
  obtain ⟨t, vs, rfl, ht, hvs⟩ := List.map_eq_cons_iff.mp hvs
  exact ⟨us, t, vs, rfl, hus, hvs, by rw [← ht]; rfl, by rw [← ht]; rfl⟩

theorem Plain.intro {c : Char} (h : (Token.isSpace c || Token.isIdentStart c || c.isDigit ||
    ['(', ')', ',', '\'', '"'].contains c) = false) : Plain c := by
  simp only [Bool.or_eq_false_iff, List.contains_eq_mem, decide_eq_false_iff_not] at h
  exact ⟨h.1.1.1, h.1.1.2, h.1.2, h.2⟩

theorem formed_symbol (op : BinaryOp) : Formed .other op.symbol.toList := by
  cases op <;> first | exact .single (.intro rfl) | exact .pair rfl

theorem formed_mark : Formed .other ['?'] := .single (.intro rfl)

theorem formed_colon : Formed .other [':'] := .single (.intro rfl)

/-- A sign goes on only with an equals sign. -/
theorem formed_sign (op : UnaryOp) : ∃ c, op.symbol.toList = [c] ∧ Plain c ∧ c ≠ '=' ∧ c ≠ '/' ∧
    (op.symbol, op) ∈ signs ∧ ∀ d, d ≠ '=' → Token.isPairOperator c d = false := by
  cases op with
  | neg => exact ⟨'-', rfl, .intro rfl, by decide, by decide, by decide, by simp [Token.isPairOperator]⟩
  | bitNot => exact ⟨'~', rfl, .intro rfl, by decide, by decide, by decide, by simp [Token.isPairOperator]⟩
  | logicalNot =>
    exact ⟨'!', rfl, .intro rfl, by decide, by decide, by decide, by simp [Token.isPairOperator]⟩

end Pieces

section Tokens
variable {e : Expr}

/-- A single token is scanned in front of any delimiter. -/
theorem Rereads.token {kind : Token.Kind} (h : Formed kind e.render.toList)
    (hkind : kind.isTrivia = false) (hstart : ∀ c ∈ e.render.toList.head?, c ≠ '=')
    (hd : ∀ t : Token, t.kind = kind → t.text = e.render → Derives .primary [t] e) :
    Rereads e [⟨kind, e.render.toList⟩] := by
  have hblank : kind ≠ .blank := by
    rintro rfl
    simp [Token.Kind.isTrivia] at hkind
  constructor
  · obtain ⟨c, cs, hcs⟩ := List.exists_cons_of_ne_nil h.ne_nil
    exact ⟨c, cs, hcs, (h.edges hblank).1 c (by simp [hcs]), hstart c (by simp [hcs])⟩
  · intro rest ms ha hrest
    exact h.lexes (h.follows_apart hblank ha) hrest
  · intro ts hts
    obtain ⟨t, rfl, ht⟩ : ∃ t, ts = [t] ∧ Lexeme.ofToken t = ⟨kind, e.render.toList⟩ := by
      simpa [Lexeme.carries, hkind] using hts
    obtain ⟨htkind, htext⟩ := Lexeme.mk.inj ht
    exact .bare (hd t htkind (String.toList_inj.mp htext))

theorem Rereads.number {n : Int64} (h : 0 ≤ n) :
    Rereads (.lit (.num n)) [⟨.number, (Expr.lit (.num n)).render.toList⟩] := by
  have hint : 0 ≤ n.toInt := by simpa using Int64.le_iff_toInt_le.mp h
  have hrender : (Expr.lit (.num n)).render = String.ofList (Nat.toDigits 10 n.toNatClampNeg) := by
    rw [Expr.render, ← Int.toNat_of_nonneg hint]
    rfl
  have hdigit : ∀ c ∈ Nat.toDigits 10 n.toNatClampNeg, c.isDigit = true :=
    fun c hc => Nat.isDigit_of_mem_toDigits (by omega) (by omega) hc
  apply Rereads.token
  · rw [hrender, String.toList_ofList]
    cases hd : Nat.toDigits 10 n.toNatClampNeg with
    | nil => exact absurd hd Nat.toDigits_ne_nil
    | cons c cs =>
      rw [hd] at hdigit
      exact .number (hdigit c List.mem_cons_self)
        fun d hmem => rest_of_digit (hdigit d (List.mem_cons_of_mem _ hmem))
  · rfl
  · intro c hc
    rw [hrender, String.toList_ofList] at hc
    rintro rfl
    simpa using hdigit '=' (List.mem_of_mem_head? hc)
  · intro t hkind htext
    have hsize : n.toNatClampNeg < UInt64.size := by
      have := n.toInt_lt
      simp only [Int64.toNatClampNeg, UInt64.size]
      omega
    refine .number hkind ?_
    rw [htext, hrender, literal_toDigits hsize, UInt64.toInt64_ofNat', Int64.ofNat_toNatClampNeg n h]

theorem Rereads.char {c : Char} (h : c ≠ '\'' ∧ c ≠ '\\') :
    Rereads (.lit (.char c)) [⟨.char, ['\'', c, '\'']⟩] := by
  have hrender : (Expr.lit (.char c)).render.toList = ['\'', c, '\''] := by simp [Expr.render]
  rw [← hrender]
  apply Rereads.token
  · rw [hrender]
    exact .char h.1 h.2
  · rfl
  · simp [hrender]
  · intro t hkind htext
    exact .char hkind (by rw [htext, hrender])

theorem identifier_cases {name : String} (h : isIdentifier name = true) : ∃ c cs, name.toList = c :: cs ∧
    Token.isIdentStart c = true ∧ ∀ d ∈ cs, Token.isIdentRest d = true := by
  unfold isIdentifier at h
  split at h
  · cases h
  · rename_i c cs hname
    rw [Bool.and_eq_true, List.all_eq_true] at h
    exact ⟨c, cs, hname, h⟩

theorem Rereads.ident {name : String} (h : isIdentifier name = true) :
    Rereads (.ident name) [⟨.ident, name.toList⟩] := by
  obtain ⟨c, cs, hname, hc, hcs⟩ := identifier_cases h
  apply Rereads.token (e := .ident name)
  · rw [Expr.render, hname]
    exact .ident hc hcs
  · rfl
  · intro d hd
    rw [Expr.render, hname] at hd
    cases hd
    rintro rfl
    revert hc
    decide
  · intro t hkind htext
    rw [show Expr.ident name = .ident t.text by rw [htext, Expr.render]]
    exact .ident hkind

theorem Rereads.unary {ls : List Lexeme} (op : UnaryOp) (h : Rereads e ls) :
    Rereads (.unary op e) (⟨.other, op.symbol.toList⟩ :: ls) := by
  obtain ⟨c, hsymbol, hplain, hequals, hslash, hsign, hpair⟩ := formed_sign op
  obtain ⟨d, ds, hstart, _, hne⟩ := h.start
  constructor
  · exact ⟨c, e.render.toList, by simp [Expr.render, hsymbol], hplain.space, hequals⟩
  · intro rest ms ha hrest
    have hfollows : Follows .other [c] (e.render.toList ++ rest) := by
      intro x hx a ha
      rw [hstart] at hx
      cases hx
      cases ha
      exact ⟨hpair d hne, fun hc => absurd hc hslash⟩
    simpa [Expr.render, hsymbol] using (Formed.single hplain).lexes hfollows (h.lexes ha hrest)
  · intro ts hts
    obtain ⟨t, us, rfl, ht, hus⟩ : ∃ t us, ts = t :: us ∧
        Lexeme.ofToken t = ⟨.other, op.symbol.toList⟩ ∧
        us.map Lexeme.ofToken = ls.filter Lexeme.carries := by
      simpa [Lexeme.carries, Token.Kind.isTrivia, List.map_eq_cons_iff] using hts
    obtain ⟨hkind, htext⟩ := Lexeme.mk.inj ht
    exact .sign hsign (isOperator_iff.mpr ⟨hkind, String.toList_inj.mp htext⟩) (h.derives hus)

end Tokens

section Parentheses
variable {e l r c a b : Expr} {ls rs cs as bs : List Lexeme}

def enclosed (ls : List Lexeme) : List Lexeme := ⟨.lparen, ['(']⟩ :: ls ++ [⟨.rparen, [')']⟩]

/-- Parentheses around anything that is scanned in front of the closing one and derived as a whole. -/
theorem Rereads.parens (inner : List Char) (hrender : e.render.toList = '(' :: inner ++ [')'])
    (hlexes : ∀ {rest ms}, Lexes (')' :: rest) ms → Lexes (inner ++ ')' :: rest) (ls ++ ms))
    (hd : ∀ {ts}, ts.map Lexeme.ofToken = ls.filter Lexeme.carries → Derives .conditional ts e) :
    Rereads e (enclosed ls) := by
  constructor
  · exact ⟨'(', inner ++ [')'], hrender, by decide, by decide⟩
  · intro rest ms _ hrest
    have hclose : Lexes (')' :: rest) (⟨.rparen, [')']⟩ :: ms) :=
      Formed.rparen.lexes (by simp [Follows]) hrest
    have hopen := Formed.lparen.lexes (by simp [Follows]) (hlexes hclose)
    simpa [hrender, enclosed] using hopen
  · intro ts hts
    obtain ⟨left, us, rfl, hleft, hus⟩ : ∃ left us, ts = left :: us ∧
        Lexeme.ofToken left = ⟨.lparen, ['(']⟩ ∧
        us.map Lexeme.ofToken = ls.filter Lexeme.carries ++ [⟨.rparen, [')']⟩] := by
      simpa [enclosed, Lexeme.carries, Token.Kind.isTrivia, List.map_eq_cons_iff] using hts
    obtain ⟨vs, right, ws, rfl, hvs, hws, hright, _⟩ := split_tokens hus
    obtain rfl : ws = [] := List.map_eq_nil_iff.mp hws
    exact .bare (.parens (Lexeme.mk.inj hleft).1 (hd hvs) hright)

theorem Rereads.binary (op : BinaryOp) (hl : Rereads l ls) (hr : Rereads r rs) :
    Rereads (.binary l op r) (enclosed (ls ++ gap :: ⟨.other, op.symbol.toList⟩ :: gap :: rs)) := by
  obtain ⟨d, ds, hstart, hspace, _⟩ := hr.start
  refine .parens (l.render.toList ++ (' ' :: op.symbol.toList ++ ' ' :: r.render.toList)) ?_ ?_ ?_
  · simp [Expr.render]
  · intro rest ms hrest
    have hright := hr.lexes (apart_rparen rest) hrest
    rw [hstart] at hright ⊢
    have hmiddle := between_lexes (formed_symbol op) hright hspace
    simpa using hl.lexes (apart_blank _) hmiddle
  · intro ts hts
    obtain ⟨us, t, vs, rfl, hus, hvs, hkind, htext⟩ :
        ∃ us t vs, ts = us ++ t :: vs ∧ us.map Lexeme.ofToken = ls.filter Lexeme.carries ∧
          vs.map Lexeme.ofToken = rs.filter Lexeme.carries ∧
          t.kind = .other ∧ t.text.toList = op.symbol.toList :=
      split_tokens (by simpa [Lexeme.carries, Token.Kind.isTrivia, gap] using hts)
    obtain ⟨hleast, hmost⟩ := power_bounds op
    have hlevel : (op.symbol, op) ∈ operatorLevels.getD (op.power - 1) [] :=
      mem_operatorLevels.mpr ⟨ofSymbol_symbol op, by omega⟩
    have hleft := (hl.derives hus).operand.looser (j := op.power - 1) (by omega)
    have hright := (hr.derives hvs).operand.looser (j := op.power - 1 + 1) (by omega)
    exact (hleft.operator hlevel (isOperator_iff.mpr ⟨hkind, String.toList_inj.mp htext⟩) hright).conditional

theorem Rereads.cond (hc : Rereads c cs) (ha : Rereads a as) (hb : Rereads b bs) :
    Rereads (.cond c a b)
      (enclosed (cs ++ gap :: ⟨.other, ['?']⟩ :: gap :: (as ++ gap :: ⟨.other, [':']⟩ :: gap :: bs))) := by
  obtain ⟨d, ds, hastart, haspace, _⟩ := ha.start
  obtain ⟨f, fs, hbstart, hbspace, _⟩ := hb.start
  refine .parens (c.render.toList ++
    (' ' :: ['?'] ++ ' ' :: (a.render.toList ++ (' ' :: [':'] ++ ' ' :: b.render.toList)))) ?_ ?_ ?_
  · simp [Expr.render]
  · intro rest ms hrest
    have helse := hb.lexes (apart_rparen rest) hrest
    rw [hbstart] at helse
    have hcolon := between_lexes formed_colon helse hbspace
    have hthen := ha.lexes (apart_blank _) hcolon
    rw [hastart] at hthen
    have hmark := between_lexes formed_mark hthen haspace
    simpa [hastart, hbstart] using hc.lexes (apart_blank _) hmark
  · intro ts hts
    obtain ⟨us, mark, vs, rfl, hus, hvs, hmark, hmarked⟩ :
        ∃ us t vs, ts = us ++ t :: vs ∧ us.map Lexeme.ofToken = cs.filter Lexeme.carries ∧
          vs.map Lexeme.ofToken =
            as.filter Lexeme.carries ++ ⟨.other, [':']⟩ :: bs.filter Lexeme.carries ∧
          t.kind = .other ∧ t.text.toList = ['?'] :=
      split_tokens (by simpa [Lexeme.carries, Token.Kind.isTrivia, gap] using hts)
    obtain ⟨vs, colon, ws, rfl, hvs, hws, hcolon, hcoloned⟩ := split_tokens hvs
    have hcond := (hc.derives hus).operand.looser (Nat.zero_le _)
    have hthen := (ha.derives hvs).conditional
    have helse := (hb.derives hws).conditional
    have hq : mark.isOperator "?" = true := isOperator_iff.mpr ⟨hmark, String.toList_inj.mp hmarked⟩
    have hcl : colon.isOperator ":" = true := isOperator_iff.mpr ⟨hcolon, String.toList_inj.mp hcoloned⟩
    simpa using hcond.choice hq hthen hcl helse

end Parentheses

theorem rereads {e : Expr} (h : Writable e) : ∃ ls, Rereads e ls := by
  induction e with
  | lit l =>
    cases l with
    | num n => exact ⟨_, Rereads.number h⟩
    | char c => exact ⟨_, Rereads.char h⟩
  | ident name => exact ⟨_, Rereads.ident h⟩
  | unary op e ih =>
    obtain ⟨ls, hls⟩ := ih h
    exact ⟨_, hls.unary op⟩
  | binary l op r ihl ihr =>
    obtain ⟨ls, hls⟩ := ihl h.1
    obtain ⟨rs, hrs⟩ := ihr h.2
    exact ⟨_, hls.binary op hrs⟩
  | cond c t e ihc iht ihe =>
    obtain ⟨cs, hcs⟩ := ihc h.1
    obtain ⟨ts, hts⟩ := iht h.2.1
    obtain ⟨es, hes⟩ := ihe h.2.2
    exact ⟨_, hcs.cond hts hes⟩

/-- The text of an expression is read back as that expression. -/
theorem parse_render {e : Expr} (h : Writable e) : Expr.parse? e.render = some e := by
  obtain ⟨ls, hls⟩ := rereads h
  have hscan : Lexes e.render.toList ls := by
    simpa using hls.lexes (by simp [Apart]) Lexes.nil
  have hread : Derives .signed (Token.tokenize e.render) e := by
    rw [hscan.tokenize]
    exact hls.derives (ofToken_tokensOf 0 ls)
  exact ofTokens_iff.mpr hread.conditional

def crowded : Expr :=
  .cond (.unary .neg (.unary .neg (.unary .logicalNot (.ident "_x1"))))
    (.binary (.lit (.char ' ')) .shl (.unary .bitNot (.binary (.num 9223372036854775807) .div (.num 0))))
    (.cond (.num 10) (.lit (.char '"')) (.binary (.ident "y") .le (.ident "z")))

theorem parse_render_crowded :
    crowded.render = "(--!_x1 ? (' ' << ~(9223372036854775807 / 0)) : (10 ? '\"' : (y <= z)))" ∧
      Expr.parse? crowded.render = some crowded := by
  exact ⟨by decide +kernel, parse_render (by decide +kernel)⟩

end Devicetree.Proofs
