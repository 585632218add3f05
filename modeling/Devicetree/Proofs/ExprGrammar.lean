import Devicetree.Expr.Parse

namespace Devicetree.Proofs

/-- The operators of two operands, a list a level, from the loosest to the tightest. -/
def operatorLevels : List (List (String × BinaryOp)) :=
  [[("||", .or)], [("&&", .and)], [("|", .bitOr)], [("^", .bitXor)], [("&", .bitAnd)],
    [("==", .eq), ("!=", .ne)],
    [("<", .lt), (">", .gt), ("<=", .le), (">=", .ge)],
    [("<<", .shl), (">>", .shr)],
    [("+", .add), ("-", .sub)],
    [("*", .mul), ("/", .div), ("%", .mod)]]

def signs : List (String × UnaryOp) := [("-", .neg), ("~", .bitNot), ("!", .logicalNot)]

inductive Phrase where
  | conditional
  | level (k : Nat)
  | signed
  | primary

inductive Derives : Phrase → List Token → Expr → Prop
  | plain {ts : List Token} {e : Expr} (h : Derives (.level 0) ts e) : Derives .conditional ts e
  | choice {cs as bs : List Token} {mark colon : Token} {c a b : Expr}
      (hc : Derives (.level 0) cs c) (hmark : mark.isOperator "?" = true)
      (ha : Derives .conditional as a) (hcolon : colon.isOperator ":" = true)
      (hb : Derives .conditional bs b) :
      Derives .conditional (cs ++ mark :: as ++ colon :: bs) (.cond c a b)
  | tighter {k : Nat} {ts : List Token} {e : Expr} (h : Derives (.level (k + 1)) ts e) :
      Derives (.level k) ts e
  | operator {k : Nat} {ls rs : List Token} {t : Token} {symbol : String} {op : BinaryOp} {l r : Expr}
      (hl : Derives (.level k) ls l) (hop : (symbol, op) ∈ operatorLevels.getD k [])
      (ht : t.isOperator symbol = true) (hr : Derives (.level (k + 1)) rs r) :
      Derives (.level k) (ls ++ t :: rs) (.binary l op r)
  | operand {ts : List Token} {e : Expr} (h : Derives .signed ts e) :
      Derives (.level operatorLevels.length) ts e
  | sign {ts : List Token} {t : Token} {symbol : String} {op : UnaryOp} {e : Expr}
      (hop : (symbol, op) ∈ signs) (ht : t.isOperator symbol = true) (h : Derives .signed ts e) :
      Derives .signed (t :: ts) (.unary op e)
  | plus {ts : List Token} {t : Token} {e : Expr} (ht : t.isOperator "+" = true)
      (h : Derives .signed ts e) : Derives .signed (t :: ts) e
  | bare {ts : List Token} {e : Expr} (h : Derives .primary ts e) : Derives .signed ts e
  | number {t : Token} {v : Int64} (ht : t.kind = .number) (hv : Numeral.literal? t.text = some v) :
      Derives .primary [t] (.lit (.num v))
  | char {t : Token} {c : Char} (ht : t.kind = .char) (hc : t.text.toList = ['\'', c, '\'']) :
      Derives .primary [t] (.lit (.char c))
  | ident {t : Token} (ht : t.kind = .ident) : Derives .primary [t] (.ident t.text)
  | parens {ts : List Token} {left right : Token} {e : Expr} (hl : left.kind = .lparen)
      (h : Derives .conditional ts e) (hr : right.kind = .rparen) :
      Derives .primary (left :: ts ++ [right]) e

section Operators

theorem isOperator_iff {t : Token} {symbol : String} :
    t.isOperator symbol = true ↔ t.kind = .other ∧ t.text = symbol := by
  simp [Token.isOperator]

theorem ofSymbol_symbol (op : BinaryOp) : BinaryOp.ofSymbol? op.symbol = some op := by
  cases op <;> decide

theorem symbol_of_ofSymbol {symbol : String} {op : BinaryOp}
    (h : BinaryOp.ofSymbol? symbol = some op) : op.symbol = symbol := by
  simpa using List.find?_some h

theorem power_bounds (op : BinaryOp) : 1 ≤ op.power ∧ op.power ≤ operatorLevels.length := by
  cases op <;> decide

/-- The level of an operator is one less than its power. -/
theorem mem_operatorLevels {k : Nat} {symbol : String} {op : BinaryOp} :
    (symbol, op) ∈ operatorLevels.getD k [] ↔
      BinaryOp.ofSymbol? symbol = some op ∧ op.power = k + 1 := by
  constructor
  · intro h
    have hk : k < 10 := by
      apply Nat.lt_of_not_le
      intro hk
      rw [List.getD_eq_getElem?_getD, List.getElem?_eq_none (by simpa [operatorLevels] using hk)] at h
      simp at h
    have hall : ∀ k < 10, ∀ entry ∈ operatorLevels.getD k [],
        BinaryOp.ofSymbol? entry.1 = some entry.2 ∧ entry.2.power = k + 1 := by decide
    exact hall k hk _ h
  · rintro ⟨hsymbol, hpower⟩
    obtain rfl := symbol_of_ofSymbol hsymbol
    obtain rfl : k = op.power - 1 := by omega
    cases op <;> decide

def Stops (power : Nat) (ts : List Token) : Prop :=
  ∀ t ∈ ts.head?, ∀ op, t.kind = .other → BinaryOp.ofSymbol? t.text = some op → op.power < power

structure Closed (ts : List Token) : Prop where
  stops : Stops 0 ts
  no_mark : ∀ t ∈ ts.head?, t.isOperator "?" = false

theorem Stops.mono {p q : Nat} {ts : List Token} (h : Stops p ts) (hpq : p ≤ q) : Stops q ts := by
  intro t ht op hkind hop
  have := h t ht op hkind hop
  omega

theorem stops_all (ts : List Token) : Stops (operatorLevels.length + 2) ts := by
  intro t _ op _ _
  have := (power_bounds op).2
  omega

theorem stops_of_no_operator {t : Token} {rest : List Token} (p : Nat)
    (h : t.kind = .other → BinaryOp.ofSymbol? t.text = none) : Stops p (t :: rest) := by
  intro u hu op hkind hop
  simp only [List.head?_cons, Option.mem_def, Option.some.injEq] at hu
  subst hu
  rw [h hkind] at hop
  cases hop

theorem Closed.nil : Closed [] := ⟨by simp [Stops], by simp⟩

theorem Closed.colon {t : Token} {rest : List Token} (h : t.isOperator ":" = true) :
    Closed (t :: rest) := by
  rw [isOperator_iff] at h
  constructor
  · apply stops_of_no_operator
    intro _
    rw [h.2]
    decide
  · simp [Token.isOperator, h.2]

theorem Closed.rparen {t : Token} {rest : List Token} (h : t.kind = .rparen) : Closed (t :: rest) := by
  constructor
  · apply stops_of_no_operator
    simp [h]
  · simp [Token.isOperator, h]

theorem stops_mark {t : Token} {rest : List Token} (p : Nat) (h : t.isOperator "?" = true) :
    Stops p (t :: rest) := by
  rw [isOperator_iff] at h
  apply stops_of_no_operator
  intro _
  rw [h.2]
  decide

end Operators

namespace Derives

theorem length_pos {phrase : Phrase} {ts : List Token} {e : Expr} (h : Derives phrase ts e) :
    0 < ts.length := by
  induction h <;> grind

/-- A phrase of one level is a phrase of every looser level. -/
theorem looser {j k : Nat} {ts : List Token} {e : Expr} (h : Derives (.level k) ts e) (hjk : j ≤ k) :
    Derives (.level j) ts e := by
  induction hjk with
  | refl => exact h
  | step _ ih => exact ih h.tighter

theorem conditional {phrase : Phrase} {ts : List Token} {e : Expr} (h : Derives phrase ts e) :
    Derives .conditional ts e := by
  cases phrase with
  | conditional => exact h
  | level k => exact .plain (h.looser (Nat.zero_le k))
  | signed => exact .plain (h.operand.looser (Nat.zero_le _))
  | primary => exact .plain (h.bare.operand.looser (Nat.zero_le _))

end Derives

section Soundness

/-- What each part of the parser reads with `n` units of fuel is derived. An operator chain is read from its left
end, so that the chain read so far is derived first at the tightest level and then at the level of the operator
read last. -/
structure Derived (n : Nat) : Prop where
  cond {ts rest : List Token} {e : Expr} (h : Expr.parseCond n ts = some (e, rest)) :
    ∃ taken, ts = taken ++ rest ∧ Derives .conditional taken e
  chain {power : Nat} {ts rest : List Token} {e : Expr}
    (h : Expr.parseChain n power ts = some (e, rest)) (hp : power ≤ operatorLevels.length + 1) :
    ∃ taken, ts = taken ++ rest ∧ Derives (.level (power - 1)) taken e ∧ Stops power rest
  operators {power k : Nat} {before ts rest : List Token} {l e : Expr}
    (h : Expr.parseOperators n power l ts = some (e, rest)) (hl : Derives (.level k) before l)
    (hp : power ≤ k + 1) (hs : Stops (k + 2) ts) :
    ∃ taken, ts = taken ++ rest ∧ Derives (.level (power - 1)) (before ++ taken) e ∧ Stops power rest
  signed {ts rest : List Token} {e : Expr} (h : Expr.parseSigned n ts = some (e, rest)) :
    ∃ taken, ts = taken ++ rest ∧ Derives .signed taken e
  primary {ts rest : List Token} {e : Expr} (h : Expr.parsePrimary n ts = some (e, rest)) :
    ∃ taken, ts = taken ++ rest ∧ Derives .primary taken e

variable {n : Nat} {ts rest : List Token} {e : Expr}

theorem charLiteral_eq {text : String} {c : Char} (h : Expr.charLiteral? text = some c) :
    text.toList = ['\'', c, '\''] := by
  unfold Expr.charLiteral? at h
  split at h
  · rename_i heq
    cases h
    exact heq
  · cases h

theorem Derived.primary_succ (hd : Derived n) (h : Expr.parsePrimary (n + 1) ts = some (e, rest)) :
    ∃ taken, ts = taken ++ rest ∧ Derives .primary taken e := by
  cases ts with
  | nil => simp [Expr.parsePrimary] at h
  | cons t ts =>
    simp only [Expr.parsePrimary] at h
    split at h
    · rename_i hkind
      obtain ⟨v, hv, he⟩ := Option.bind_eq_some_iff.mp h
      cases he
      exact ⟨[t], rfl, .number hkind hv⟩
    · rename_i hkind
      obtain ⟨c, hc, he⟩ := Option.bind_eq_some_iff.mp h
      cases he
      exact ⟨[t], rfl, .char hkind (charLiteral_eq hc)⟩
    · rename_i hkind
      cases h
      exact ⟨[t], rfl, .ident hkind⟩
    · rename_i hkind
      obtain ⟨⟨inner, after⟩, hinner, hclose⟩ := Option.bind_eq_some_iff.mp h
      obtain ⟨taken, rfl, hderived⟩ := hd.cond hinner
      cases after with
      | nil => cases hclose
      | cons close after =>
        simp only at hclose
        split at hclose
        · rename_i hright
          cases hclose
          exact ⟨t :: taken ++ [close], by simp, .parens hkind hderived hright⟩
        · cases hclose
    · cases h

theorem Derived.signed_succ (hd : Derived n) (h : Expr.parseSigned (n + 1) ts = some (e, rest)) :
    ∃ taken, ts = taken ++ rest ∧ Derives .signed taken e := by
  cases ts with
  | nil => simp [Expr.parseSigned] at h
  | cons t ts =>
    have hsign : ∀ (symbol : String) (op : UnaryOp), (symbol, op) ∈ signs →
        t.isOperator symbol = true →
        ((Expr.parseSigned n ts).bind fun p => some (Expr.unary op p.1, p.2)) = some (e, rest) →
        ∃ taken, t :: ts = taken ++ rest ∧ Derives .signed taken e := by
      intro symbol op hop ht hread
      obtain ⟨⟨inner, after⟩, hinner, he⟩ := Option.bind_eq_some_iff.mp hread
      obtain ⟨taken, rfl, hderived⟩ := hd.signed hinner
      cases he
      exact ⟨t :: taken, rfl, .sign hop ht hderived⟩
    simp only [Expr.parseSigned] at h
    split at h
    · exact hsign "-" .neg (by simp [signs]) ‹_› h
    · split at h
      · exact hsign "~" .bitNot (by simp [signs]) ‹_› h
      · split at h
        · exact hsign "!" .logicalNot (by simp [signs]) ‹_› h
        · split at h
          · obtain ⟨taken, rfl, hderived⟩ := hd.signed h
            exact ⟨t :: taken, rfl, .plus ‹_› hderived⟩
          · obtain ⟨taken, htaken, hderived⟩ := hd.primary h
            exact ⟨taken, htaken, .bare hderived⟩

theorem Derived.operators_succ (hd : Derived n) {power k : Nat} {before : List Token} {l : Expr}
    (h : Expr.parseOperators (n + 1) power l ts = some (e, rest)) (hl : Derives (.level k) before l)
    (hp : power ≤ k + 1) (hs : Stops (k + 2) ts) :
    ∃ taken, ts = taken ++ rest ∧ Derives (.level (power - 1)) (before ++ taken) e ∧ Stops power rest := by
  have hdone : Stops power ts → some (l, ts) = some (e, rest) →
      ∃ taken, ts = taken ++ rest ∧ Derives (.level (power - 1)) (before ++ taken) e ∧
        Stops power rest := by
    intro hstop he
    cases he
    exact ⟨[], rfl, by simpa using hl.looser (by omega), hstop⟩
  cases ts with
  | nil => exact hdone (by simp [Stops]) (by simpa [Expr.parseOperators] using h)
  | cons t ts =>
    simp only [Expr.parseOperators] at h
    split at h
    · rename_i hkind
      split at h
      · rename_i op hop
        split at h
        · rename_i hlow
          apply hdone _ h
          intro u hu other _ hother
          simp only [List.head?_cons, Option.mem_def, Option.some.injEq] at hu
          subst hu
          rw [hop] at hother
          cases hother
          exact hlow
        · rename_i hhigh
          obtain ⟨⟨r, after⟩, hright, hmore⟩ := Option.bind_eq_some_iff.mp h
          have hpower := power_bounds op
          have hlevel : op.power < k + 2 := hs t (by simp) op hkind hop
          obtain ⟨right, rfl, hr, hstop⟩ := hd.chain hright (by omega)
          have hl' : Derives (.level (op.power - 1)) before l := hl.looser (by omega)
          have hr' : Derives (.level (op.power - 1 + 1)) right r := by
            have hidx : op.power - 1 + 1 = op.power + 1 - 1 := by omega
            rw [hidx]
            exact hr
          have hmem : (t.text, op) ∈ operatorLevels.getD (op.power - 1) [] :=
            mem_operatorLevels.mpr ⟨hop, by omega⟩
          have hjoined := hl'.operator hmem (isOperator_iff.mpr ⟨hkind, rfl⟩) hr'
          obtain ⟨taken, rfl, hderived, hlast⟩ :=
            hd.operators hmore hjoined (by omega) (hstop.mono (by omega))
          exact ⟨t :: right ++ taken, by simp, by simpa using hderived, hlast⟩
      · rename_i hnone
        exact hdone (stops_of_no_operator power fun _ => hnone) h
    · rename_i hkind
      exact hdone (stops_of_no_operator power fun hother => absurd hother hkind) h

theorem Derived.chain_succ (hd : Derived n) {power : Nat}
    (h : Expr.parseChain (n + 1) power ts = some (e, rest)) (hp : power ≤ operatorLevels.length + 1) :
    ∃ taken, ts = taken ++ rest ∧ Derives (.level (power - 1)) taken e ∧ Stops power rest := by
  simp only [Expr.parseChain] at h
  obtain ⟨⟨l, after⟩, hleft, hmore⟩ := Option.bind_eq_some_iff.mp h
  obtain ⟨left, rfl, hl⟩ := hd.signed hleft
  obtain ⟨taken, rfl, hderived, hlast⟩ := hd.operators hmore hl.operand hp (stops_all _)
  exact ⟨left ++ taken, by simp, hderived, hlast⟩

theorem Derived.cond_succ (hd : Derived n) (h : Expr.parseCond (n + 1) ts = some (e, rest)) :
    ∃ taken, ts = taken ++ rest ∧ Derives .conditional taken e := by
  simp only [Expr.parseCond] at h
  obtain ⟨⟨c, after⟩, hchain, hmore⟩ := Option.bind_eq_some_iff.mp h
  obtain ⟨cs, rfl, hc, _⟩ := hd.chain hchain (Nat.zero_le _)
  cases after with
  | nil =>
    cases hmore
    exact ⟨cs, rfl, hc.plain⟩
  | cons mark after =>
    simp only at hmore
    split at hmore
    · rename_i hmark
      obtain ⟨⟨a, middle⟩, hthen, htail⟩ := Option.bind_eq_some_iff.mp hmore
      obtain ⟨as, rfl, ha⟩ := hd.cond hthen
      cases middle with
      | nil => cases htail
      | cons colon middle =>
        simp only at htail
        split at htail
        · rename_i hcolon
          obtain ⟨⟨b, last⟩, helse, he⟩ := Option.bind_eq_some_iff.mp htail
          obtain ⟨bs, rfl, hb⟩ := hd.cond helse
          cases he
          exact ⟨cs ++ mark :: as ++ colon :: bs, by simp, hc.choice hmark ha hcolon hb⟩
        · cases htail
    · cases hmore
      exact ⟨cs, rfl, hc.plain⟩

theorem derived (n : Nat) : Derived n := by
  induction n with
  | zero =>
    constructor <;> intros <;>
      simp_all [Expr.parseCond, Expr.parseChain, Expr.parseOperators, Expr.parseSigned, Expr.parsePrimary]
  | succ n hd =>
    exact ⟨hd.cond_succ, hd.chain_succ, hd.operators_succ, hd.signed_succ, hd.primary_succ⟩

end Soundness

section Completeness

/-- The parser reads the tokens as the expression, before any tokens that cannot go on with the phrase, as soon as
it has four units of fuel a token. The left operand of a chain is never read by a call of its own, so the
contract of a level is about what the operators after it make of the operand. -/
def Accepts : Phrase → List Token → Expr → Prop
  | .conditional, ts, e => ∀ {n : Nat} {rest : List Token}, Closed rest → 4 * ts.length ≤ n →
      Expr.parseCond n (ts ++ rest) = some (e, rest)
  | .level k, ts, e => ∀ {n m power : Nat} {rest : List Token} {result : Expr × List Token},
      power ≤ k + 1 → Stops (k + 2) rest → 1 ≤ m →
      (∀ i, m ≤ i → Expr.parseOperators i power e rest = some result) → m + 4 * ts.length ≤ n + 2 →
      Expr.parseChain n power (ts ++ rest) = some result
  | .signed, ts, e => ∀ {n : Nat} {rest : List Token}, 4 * ts.length ≤ n + 2 →
      Expr.parseSigned n (ts ++ rest) = some (e, rest)
  | .primary, ts, e => ∀ {n : Nat} {rest : List Token}, 4 * ts.length ≤ n + 3 →
      Expr.parsePrimary n (ts ++ rest) = some (e, rest)

variable {n power : Nat} {ts rest : List Token} {e l : Expr}

theorem parseOperators_stop (h : Stops power ts) (hn : 1 ≤ n) :
    Expr.parseOperators n power l ts = some (l, ts) := by
  obtain ⟨n, rfl⟩ : ∃ m, n = m + 1 := ⟨n - 1, by omega⟩
  cases ts with
  | nil => simp [Expr.parseOperators]
  | cons t ts =>
    simp only [Expr.parseOperators]
    split
    · rename_i hkind
      split
      · rename_i op hop
        rw [if_pos (h t (by simp) op hkind hop)]
      · rfl
    · rfl

theorem parseOperators_step {t : Token} {op : BinaryOp} {r : Expr} (hkind : t.kind = .other)
    (hop : BinaryOp.ofSymbol? t.text = some op) (hp : power ≤ op.power)
    (hr : Expr.parseChain n (op.power + 1) ts = some (r, rest)) :
    Expr.parseOperators (n + 1) power l (t :: ts) =
      Expr.parseOperators n power (.binary l op r) rest := by
  simp [Expr.parseOperators, hkind, hop, Nat.not_lt.mpr hp, hr]

/-- A chain that nothing goes on with. -/
theorem Accepts.chain {k : Nat} (h : Accepts (.level k) ts e) (hp : power ≤ k + 1)
    (hs : Stops power rest) (hn : 4 * ts.length ≤ n + 1) :
    Expr.parseChain n power (ts ++ rest) = some (e, rest) :=
  h hp (hs.mono (by omega)) (Nat.le_refl 1) (fun _ hi => parseOperators_stop hs hi) (by omega)

theorem Accepts.plain (h : Accepts (.level 0) ts e) (hpos : 0 < ts.length) :
    Accepts .conditional ts e := by
  intro n rest hclosed hn
  obtain ⟨n, rfl⟩ : ∃ i, n = i + 1 := ⟨n - 1, by omega⟩
  have hread : Expr.parseChain n 0 (ts ++ rest) = some (e, rest) :=
    h.chain (Nat.zero_le _) hclosed.stops (by omega)
  cases rest with
  | nil =>
    rw [List.append_nil] at hread ⊢
    simp [Expr.parseCond, hread]
  | cons t rest => simp [Expr.parseCond, hread, hclosed.no_mark t (by simp)]

theorem Accepts.choice {cs as bs : List Token} {mark colon : Token} {c a b : Expr}
    (hc : Accepts (.level 0) cs c) (hmark : mark.isOperator "?" = true)
    (ha : Accepts .conditional as a) (hcolon : colon.isOperator ":" = true)
    (hb : Accepts .conditional bs b) :
    Accepts .conditional (cs ++ mark :: as ++ colon :: bs) (.cond c a b) := by
  intro n rest hclosed hn
  simp only [List.length_append, List.length_cons] at hn
  obtain ⟨n, rfl⟩ : ∃ i, n = i + 1 := ⟨n - 1, by omega⟩
  have hcond : Expr.parseChain n 0 (cs ++ mark :: (as ++ colon :: (bs ++ rest))) =
      some (c, mark :: (as ++ colon :: (bs ++ rest))) :=
    hc.chain (Nat.zero_le _) (stops_mark 0 hmark) (by omega)
  have hthen : Expr.parseCond n (as ++ colon :: (bs ++ rest)) = some (a, colon :: (bs ++ rest)) :=
    ha (Closed.colon hcolon) (by omega)
  have helse : Expr.parseCond n (bs ++ rest) = some (b, rest) := hb hclosed (by omega)
  simp [Expr.parseCond, hcond, hmark, hthen, hcolon, helse]

theorem Accepts.operator {k : Nat} {ls rs : List Token} {t : Token} {symbol : String} {op : BinaryOp}
    {r : Expr} (hl : Accepts (.level k) ls l) (hop : (symbol, op) ∈ operatorLevels.getD k [])
    (ht : t.isOperator symbol = true) (hr : Accepts (.level (k + 1)) rs r) :
    Accepts (.level k) (ls ++ t :: rs) (.binary l op r) := by
  intro n m power rest result hp hs hm hmore hn
  rw [isOperator_iff] at ht
  obtain ⟨hsymbol, hpower⟩ := mem_operatorLevels.mp hop
  rw [← ht.2] at hsymbol
  have hend : Stops (k + 2) (t :: rs ++ rest) := by
    intro u hu other _ hother
    simp only [List.cons_append, List.head?_cons, Option.mem_def, Option.some.injEq] at hu
    subst hu
    rw [hsymbol] at hother
    cases hother
    omega
  have hnext : ∀ i, m + 4 * rs.length + 1 ≤ i →
      Expr.parseOperators i power l (t :: rs ++ rest) = some result := by
    intro i hi
    obtain ⟨i, rfl⟩ : ∃ j, i = j + 1 := ⟨i - 1, by omega⟩
    have hright : Expr.parseChain i (op.power + 1) (rs ++ rest) = some (r, rest) :=
      hr.chain (by omega) (hs.mono (by omega)) (by omega)
    rw [List.cons_append, parseOperators_step ht.1 hsymbol (by omega) hright]
    exact hmore i (by omega)
  rw [List.append_assoc]
  simp only [List.length_append, List.length_cons] at hn
  exact hl hp hend (by omega) hnext (by omega)

theorem Accepts.operand (h : Accepts .signed ts e) (hpos : 0 < ts.length) :
    Accepts (.level operatorLevels.length) ts e := by
  intro n m power rest result hp hs hm hmore hn
  obtain ⟨n, rfl⟩ : ∃ i, n = i + 1 := ⟨n - 1, by omega⟩
  have hread : Expr.parseSigned n (ts ++ rest) = some (e, rest) := h (by omega)
  simp [Expr.parseChain, hread, hmore n (by omega)]

theorem Accepts.sign {t : Token} {symbol : String} {op : UnaryOp} (hop : (symbol, op) ∈ signs)
    (ht : t.isOperator symbol = true) (h : Accepts .signed ts e) :
    Accepts .signed (t :: ts) (.unary op e) := by
  intro n rest hn
  simp only [List.length_cons] at hn
  obtain ⟨n, rfl⟩ : ∃ i, n = i + 1 := ⟨n - 1, by omega⟩
  have hread : Expr.parseSigned n (ts ++ rest) = some (e, rest) := h (by omega)
  rw [isOperator_iff] at ht
  simp only [signs, List.mem_cons, Prod.mk.injEq, List.not_mem_nil, or_false] at hop
  rcases hop with ⟨rfl, rfl⟩ | ⟨rfl, rfl⟩ | ⟨rfl, rfl⟩ <;>
    simp [Expr.parseSigned, Token.isOperator, ht, hread]

theorem Accepts.plus {t : Token} (ht : t.isOperator "+" = true) (h : Accepts .signed ts e) :
    Accepts .signed (t :: ts) e := by
  intro n rest hn
  simp only [List.length_cons] at hn
  obtain ⟨n, rfl⟩ : ∃ i, n = i + 1 := ⟨n - 1, by omega⟩
  have hread : Expr.parseSigned n (ts ++ rest) = some (e, rest) := h (by omega)
  rw [isOperator_iff] at ht
  simp [Expr.parseSigned, Token.isOperator, ht, hread]

/-- No primary starts with a sign. -/
theorem Derives.primary_head (h : Derives .primary ts e) : ∃ t more, ts = t :: more ∧ t.kind ≠ .other := by
  cases h with
  | number ht _ | char ht _ | ident ht => exact ⟨_, [], rfl, by simp [ht]⟩
  | parens hl _ _ => exact ⟨_, _, rfl, by simp [hl]⟩

theorem Accepts.bare (h : Accepts .primary ts e) (hp : Derives .primary ts e) : Accepts .signed ts e := by
  intro n rest hn
  obtain ⟨t, more, rfl, hkind⟩ := hp.primary_head
  simp only [List.length_cons] at hn
  obtain ⟨n, rfl⟩ : ∃ i, n = i + 1 := ⟨n - 1, by omega⟩
  have hread : Expr.parsePrimary n (t :: more ++ rest) = some (e, rest) :=
    h (by simp only [List.length_cons]; omega)
  simpa [Expr.parseSigned, Token.isOperator, hkind] using hread

/-- A primary of a single token is read from any positive amount of fuel on. -/
theorem accepts_token {t : Token}
    (h : ∀ n rest, Expr.parsePrimary (n + 1) (t :: rest) = some (e, rest)) :
    Accepts .primary [t] e := by
  intro n rest hn
  simp only [List.length_cons, List.length_nil] at hn
  obtain ⟨n, rfl⟩ : ∃ i, n = i + 1 := ⟨n - 1, by omega⟩
  exact h n rest

theorem Accepts.parens {left right : Token} (hl : left.kind = .lparen)
    (h : Accepts .conditional ts e) (hr : right.kind = .rparen) :
    Accepts .primary (left :: ts ++ [right]) e := by
  intro n rest hn
  simp only [List.length_append, List.length_cons, List.length_nil] at hn
  obtain ⟨n, rfl⟩ : ∃ i, n = i + 1 := ⟨n - 1, by omega⟩
  have hread : Expr.parseCond n (ts ++ right :: rest) = some (e, right :: rest) :=
    h (Closed.rparen hr) (by omega)
  simp [Expr.parsePrimary, hl, hr, hread]

theorem Derives.accepts {phrase : Phrase} (h : Derives phrase ts e) : Accepts phrase ts e := by
  induction h with
  | plain h ih => exact ih.plain h.length_pos
  | choice _ hmark _ hcolon _ hc ha hb => exact hc.choice hmark ha hcolon hb
  | tighter _ ih =>
    intro n m power rest result hp hs hm hmore hn
    exact ih (by omega) (hs.mono (by omega)) hm hmore hn
  | operator _ hop ht _ hl hr => exact hl.operator hop ht hr
  | operand h ih => exact ih.operand h.length_pos
  | sign hop ht _ ih => exact ih.sign hop ht
  | plus ht _ ih => exact ih.plus ht
  | bare h ih => exact ih.bare h
  | number ht hv =>
    apply accepts_token
    intro n rest
    simp [Expr.parsePrimary, ht, hv, Expr.num]
  | char ht hc =>
    apply accepts_token
    intro n rest
    simp [Expr.parsePrimary, ht, Expr.charLiteral?, hc]
  | ident ht =>
    apply accepts_token
    intro n rest
    simp [Expr.parsePrimary, ht]
  | parens hl _ hr ih => exact ih.parens hl hr

end Completeness

theorem ofTokens_iff {ts : List Token} {e : Expr} :
    Expr.ofTokens? ts = some e ↔ Derives .conditional ts e := by
  constructor
  · intro h
    unfold Expr.ofTokens? at h
    split at h
    · rename_i read hread
      cases h
      obtain ⟨taken, rfl, hderived⟩ := (derived _).cond hread
      simpa using hderived
    · cases h
  · intro h
    have hread : Expr.parseCond (4 * ts.length + 4) (ts ++ []) = some (e, []) :=
      h.accepts Closed.nil (by omega)
    rw [List.append_nil] at hread
    simp [Expr.ofTokens?, hread]

/-- A text is read as an expression exactly when the grammar derives the expression from the tokens of the text,
and of any tokens, a phrase of the grammar stands for one expression at most. -/
theorem parse_iff_derives :
    (∀ text e, Expr.parse? text = some e ↔ Derives .conditional (Token.tokenize text) e) ∧
      ∀ phrase ts e e', Derives phrase ts e → Derives phrase ts e' → e = e' := by
  constructor
  · intro text e
    exact ofTokens_iff
  · intro phrase ts e e' h h'
    have hread := ofTokens_iff.mpr h.conditional
    rw [ofTokens_iff.mpr h'.conditional] at hread
    cases hread
    rfl

def mixed : String := "a | b & 1 << 2 - -+3 == 4 ? ~x : !'c'"

def mixedTree : Expr :=
  .cond
    (.binary (.ident "a") .bitOr
      (.binary (.ident "b") .bitAnd
        (.binary
          (.binary (.num 1) .shl (.binary (.num 2) .sub (.unary .neg (.num 3))))
          .eq (.num 4))))
    (.unary .bitNot (.ident "x"))
    (.unary .logicalNot (.lit (.char 'c')))

theorem parse_iff_derives_mixed :
    Derives .conditional (Token.tokenize mixed) mixedTree ∧
      ∀ e, Derives .conditional (Token.tokenize mixed) e → e = mixedTree := by
  have hread : Expr.parse? mixed = some mixedTree := by decide +kernel
  have hderived := (parse_iff_derives.1 mixed mixedTree).mp hread
  exact ⟨hderived, fun e he => parse_iff_derives.2 _ _ _ _ he hderived⟩

end Devicetree.Proofs
