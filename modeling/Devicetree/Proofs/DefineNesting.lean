import Devicetree.Proofs.ExprMeaning

namespace Devicetree.Proofs

/-- A derivation of the value of an expression. It derives both operands of an operator but one branch of a
conditional, and an identifier has the value of its body. Nothing bounds how deep lookups nest. -/
inductive Derivation (d : Defines) : Expr → Int64 → Type
  | literal (l : Literal) : Derivation d (.lit l) l.value
  | define {name body : String} {e : Expr} {v : Int64} (hbody : d.object? name = some body)
      (hparse : Expr.parse? body = some e) (E : Derivation d e v) : Derivation d (.ident name) v
  | unary {op : UnaryOp} {e : Expr} {a v : Int64} (A : Derivation d e a) (hv : op.apply a = some v) :
      Derivation d (.unary op e) v
  | binary {op : BinaryOp} {l r : Expr} {a b v : Int64} (A : Derivation d l a) (B : Derivation d r b)
      (hv : op.apply a b = some v) : Derivation d (.binary l op r) v
  | choice {c t f : Expr} {a v : Int64} (A : Derivation d c a)
      (B : Derivation d (if a ≠ 0 then t else f) v) : Derivation d (.cond c t f) v

def Derivation.nesting {d : Defines} : {e : Expr} → {v : Int64} → Derivation d e v → Nat
  | _, _, .literal _ => 0
  | _, _, .define _ _ E => E.nesting + 1
  | _, _, .unary A _ => A.nesting
  | _, _, .binary A B _ => max A.nesting B.nesting
  | _, _, .choice A B => max A.nesting B.nesting

/-- The value of the first expression asks for that of the second under so many nested lookups: operands and tests
of conditionals are always asked for, a branch only if it is chosen. -/
inductive Demands (d : Defines) : Nat → Expr → Expr → Prop
  | itself (e : Expr) : Demands d 0 e e
  | define {k : Nat} {name body : String} {e x : Expr} (hbody : d.object? name = some body)
      (hparse : Expr.parse? body = some e) (h : Demands d k e x) : Demands d (k + 1) (.ident name) x
  | operand {k : Nat} {op : UnaryOp} {e x : Expr} (h : Demands d k e x) : Demands d k (.unary op e) x
  | left {k : Nat} {op : BinaryOp} {l r x : Expr} (h : Demands d k l x) : Demands d k (.binary l op r) x
  | right {k : Nat} {op : BinaryOp} {l r x : Expr} (h : Demands d k r x) : Demands d k (.binary l op r) x
  | test {k : Nat} {c t f x : Expr} (h : Demands d k c x) : Demands d k (.cond c t f) x
  | branch {k : Nat} {c t f x : Expr} {a : Int64} (A : Derivation d c a)
      (h : Demands d k (if a ≠ 0 then t else f) x) : Demands d k (.cond c t f) x

/-- So many defines in a row, each of which stands for the next one. The last stands for an expression that needs no
lookup for its value. -/
inductive Chain (d : Defines) : Nat → String → Int64 → Prop
  | last {name body : String} {e : Expr} {v : Int64} (hbody : d.object? name = some body)
      (hparse : Expr.parse? body = some e) (E : Derivation d e v) (hplain : E.nesting = 0) : Chain d 1 name v
  | link {k : Nat} {name next body : String} {v : Int64} (hbody : d.object? name = some body)
      (hparse : Expr.parse? body = some (.ident next)) (h : Chain d k next v) : Chain d (k + 1) name v

variable {d : Defines} {n k : Nat} {e x : Expr} {v w : Int64}

section Values

/-- Where lookups may nest as deep as a derivation nests them, evaluation finds its value. -/
theorem Derivation.value (D : Derivation d e v) (hn : D.nesting ≤ n) : valueAt d n e = some v := by
  induction D generalizing n with
  | literal l => rfl
  | define hbody hparse E ih =>
    obtain ⟨m, rfl⟩ : ∃ m, n = m + 1 := ⟨n - 1, by simp only [nesting] at hn; omega⟩
    rw [value_ident hbody hparse]
    exact ih (Nat.le_of_succ_le_succ hn)
  | unary A hv ih => exact value_unary.mpr ⟨_, ih hn, hv⟩
  | binary A B hv iha ihb =>
    obtain ⟨ha, hb⟩ := Nat.max_le.mp hn
    exact value_binary.mpr ⟨_, iha ha, _, ihb hb, hv⟩
  | choice A B iha ihb =>
    obtain ⟨ha, hb⟩ := Nat.max_le.mp hn
    exact value_cond.mpr ⟨_, iha ha, ihb hb⟩

/-- One level of lookups: what evaluation finds is derived, if it is for identifiers. -/
theorem derivation_of_lookup (hlookup : ∀ {name v}, valueAt d n (.ident name) = some v →
      ∃ D : Derivation d (.ident name) v, D.nesting ≤ n) :
    ∀ {v}, valueAt d n e = some v → ∃ D : Derivation d e v, D.nesting ≤ n := by
  induction e with
  | lit l =>
    intro v hv
    obtain rfl := Option.some.inj hv
    exact ⟨.literal l, Nat.zero_le n⟩
  | ident name => exact hlookup
  | unary op e ih =>
    intro v hv
    obtain ⟨a, ha, hv⟩ := value_unary.mp hv
    obtain ⟨A, hA⟩ := ih ha
    exact ⟨.unary A hv, hA⟩
  | binary l op r ihl ihr =>
    intro v hv
    obtain ⟨a, ha, b, hb, hv⟩ := value_binary.mp hv
    obtain ⟨A, hA⟩ := ihl ha
    obtain ⟨B, hB⟩ := ihr hb
    exact ⟨.binary A B hv, Nat.max_le.mpr ⟨hA, hB⟩⟩
  | cond c t f ihc iht ihf =>
    intro v hv
    obtain ⟨a, ha, hv⟩ := value_cond.mp hv
    obtain ⟨A, hA⟩ := ihc ha
    obtain ⟨B, hB⟩ : ∃ B : Derivation d (if a ≠ 0 then t else f) v, B.nesting ≤ n := by
      split at hv <;> rename_i hzero
      · rw [if_pos hzero]
        exact iht hv
      · rw [if_neg hzero]
        exact ihf hv
    exact ⟨.choice A B, Nat.max_le.mpr ⟨hA, hB⟩⟩

theorem exists_derivation : ∀ {n : Nat} {e : Expr} {v : Int64}, valueAt d n e = some v →
    ∃ D : Derivation d e v, D.nesting ≤ n := by
  intro n
  induction n with
  | zero =>
    intro e v
    refine derivation_of_lookup ?_
    intro name v hv
    cases hv
  | succ n ih =>
    intro e v
    refine derivation_of_lookup ?_
    intro name v hv
    cases hbody : d.object? name with
    | none => simp [valueAt, Expr.evalWith, Defines.valueWithin, hbody] at hv
    | some body =>
      cases hparse : Expr.parse? body with
      | none => simp [valueAt, Expr.evalWith, Defines.valueWithin, hbody, hparse] at hv
      | some e =>
        rw [value_ident hbody hparse] at hv
        obtain ⟨E, hE⟩ := ih hv
        exact ⟨.define hbody hparse E, Nat.succ_le_succ hE⟩

/-- With lookups nested to a depth, evaluation finds what derivations of that depth derive. -/
theorem value_iff_derivation : valueAt d n e = some v ↔ ∃ D : Derivation d e v, D.nesting ≤ n := by
  constructor
  · exact exists_derivation
  · rintro ⟨D, hD⟩
    exact D.value hD

/-- An expression has one value, and its derivations nest lookups equally deep. -/
theorem Derivation.unique (D : Derivation d e v) : ∀ {w} (E : Derivation d e w), v = w ∧ D.nesting = E.nesting := by
  induction D with
  | literal l =>
    intro w E
    cases E
    exact ⟨rfl, rfl⟩
  | define hbody hparse _ ih =>
    intro w E
    cases E with
    | define hbody' hparse' E =>
      obtain rfl := Option.some.inj (hbody.symm.trans hbody')
      obtain rfl := Option.some.inj (hparse.symm.trans hparse')
      obtain ⟨hvalue, hnesting⟩ := ih E
      exact ⟨hvalue, congrArg (· + 1) hnesting⟩
  | unary _ hv ih =>
    intro w E
    cases E with
    | unary A hw =>
      obtain ⟨rfl, hnesting⟩ := ih A
      exact ⟨Option.some.inj (hv.symm.trans hw), hnesting⟩
  | binary _ _ hv iha ihb =>
    intro w E
    cases E with
    | binary A B hw =>
      obtain ⟨rfl, hleft⟩ := iha A
      obtain ⟨rfl, hright⟩ := ihb B
      exact ⟨Option.some.inj (hv.symm.trans hw), congrArg₂ max hleft hright⟩
  | choice _ _ iha ihb =>
    intro w E
    cases E with
    | choice A B =>
      obtain ⟨rfl, htest⟩ := iha A
      obtain ⟨hvalue, hbranch⟩ := ihb B
      exact ⟨hvalue, congrArg₂ max htest hbranch⟩

/-- What has a derivation has its value exactly where lookups may nest as deep as the derivation nests them. -/
theorem Derivation.value_eq (D : Derivation d e v) (n : Nat) :
    valueAt d n e = if D.nesting ≤ n then some v else none := by
  split
  · rename_i hn
    exact D.value hn
  · rename_i hn
    rw [Option.eq_none_iff_forall_ne_some]
    intro w hw
    obtain ⟨E, hE⟩ := value_iff_derivation.mp hw
    exact hn ((D.unique E).2 ▸ hE)

end Values

section Demanded

/-- A derivation holds one of all that is asked for, less deep by the lookups in between. -/
theorem Demands.derivation (h : Demands d k e x) :
    ∀ {v} (D : Derivation d e v), ∃ w, ∃ X : Derivation d x w, X.nesting + k ≤ D.nesting := by
  induction h with
  | itself e => exact fun D => ⟨_, D, Nat.le_refl _⟩
  | define hbody hparse _ ih =>
    intro v D
    cases D with
    | define hbody' hparse' E =>
      obtain rfl := Option.some.inj (hbody.symm.trans hbody')
      obtain rfl := Option.some.inj (hparse.symm.trans hparse')
      obtain ⟨w, X, hX⟩ := ih E
      exact ⟨w, X, Nat.succ_le_succ hX⟩
  | operand _ ih =>
    intro v D
    cases D with
    | unary A _ => exact ih A
  | left _ ih =>
    intro v D
    cases D with
    | binary A B _ =>
      obtain ⟨w, X, hX⟩ := ih A
      exact ⟨w, X, Nat.le_trans hX (Nat.le_max_left ..)⟩
  | right _ ih =>
    intro v D
    cases D with
    | binary A B _ =>
      obtain ⟨w, X, hX⟩ := ih B
      exact ⟨w, X, Nat.le_trans hX (Nat.le_max_right ..)⟩
  | test _ ih =>
    intro v D
    cases D with
    | choice A B =>
      obtain ⟨w, X, hX⟩ := ih A
      exact ⟨w, X, Nat.le_trans hX (Nat.le_max_left ..)⟩
  | branch C _ ih =>
    intro v D
    cases D with
    | choice A B =>
      obtain ⟨rfl, _⟩ := C.unique A
      obtain ⟨w, X, hX⟩ := ih B
      exact ⟨w, X, Nat.le_trans hX (Nat.le_max_right ..)⟩

/-- Nothing is derived for what asks for itself under a lookup, at any depth. -/
theorem Demands.no_derivation (h : Demands d (k + 1) e e) : IsEmpty (Derivation d e v) := by
  refine ⟨fun D => ?_⟩
  obtain ⟨w, E, hE⟩ := h.derivation D
  have hnesting := (D.unique E).2
  omega

theorem Chain.derivation (h : Chain d k name v) : ∃ D : Derivation d (.ident name) v, D.nesting = k := by
  induction h with
  | last hbody hparse E hplain => exact ⟨.define hbody hparse E, congrArg (· + 1) hplain⟩
  | link hbody hparse _ ih =>
    obtain ⟨E, hE⟩ := ih
    exact ⟨.define hbody hparse E, congrArg (· + 1) hE⟩

end Demanded

/-- The bound on lookups takes values away and changes none: a value is found if and only if a derivation nests at
most sixteen lookups for it. So a define that asks for itself is worth nothing wherever it is asked for, and a chain
of defines has its value up to a length of sixteen. -/
theorem evaluate_within_nesting (d : Defines) :
    (∀ e v, d.evaluate e = some v ↔ ∃ D : Derivation d e v, D.nesting ≤ 16) ∧
    (∀ e v (D : Derivation d e v), d.evaluate e = if D.nesting ≤ 16 then some v else none) ∧
    (∀ e j k name, Demands d j e (.ident name) → Demands d (k + 1) (.ident name) (.ident name) →
      d.evaluate e = none) ∧
    (∀ k name v, Chain d k name v → d.evaluate (.ident name) = if k ≤ 16 then some v else none) := by
  refine ⟨fun e v => value_iff_derivation, fun e v D => D.value_eq 16, ?_, ?_⟩
  · intro e j k name hasked hself
    rw [Option.eq_none_iff_forall_ne_some]
    intro v hv
    obtain ⟨D, _⟩ := value_iff_derivation.mp hv
    obtain ⟨w, X, _⟩ := hasked.derivation D
    exact hself.no_derivation.false X
  · intro k name v hchain
    obtain ⟨D, rfl⟩ := hchain.derivation
    exact D.value_eq 16

def rung (k : Nat) : String := String.ofList (List.replicate k 'N')

/-- Defines that lead from one to the next, seventeen in a row, and one that asks for itself. -/
def ladder : Defines :=
  (List.range 16).foldl (fun d k => d.define (rung (k + 2)) (rung (k + 1)))
    ((Defines.define {} "LOOP" "1 + LOOP").define (rung 1) "7")

theorem ladder_reads :
    (ladder.object? (rung 1) = some "7" ∧ Expr.parse? "7" = some (.num 7)) ∧
    (ladder.object? "LOOP" = some "1 + LOOP" ∧
      Expr.parse? "1 + LOOP" = some (.binary (.num 1) .add (.ident "LOOP"))) ∧
    ∀ k < 16, ladder.object? (rung (k + 2)) = some (rung (k + 1)) ∧
      Expr.parse? (rung (k + 1)) = some (.ident (rung (k + 1))) := by
  decide +kernel

theorem ladder_chain : ∀ {k : Nat}, k < 17 → Chain ladder (k + 1) (rung (k + 1)) 7 := by
  intro k hk
  induction k with
  | zero => exact .last ladder_reads.1.1 ladder_reads.1.2 (.literal (.num 7)) rfl
  | succ k ih =>
    obtain ⟨hbody, hparse⟩ := ladder_reads.2.2 k (by omega)
    exact .link hbody hparse (ih (by omega))

theorem ladder_loops : Demands ladder 1 (.ident "LOOP") (.ident "LOOP") :=
  .define ladder_reads.2.1.1 ladder_reads.2.1.2 (.right (.itself _))

theorem evaluate_within_nesting_ladder :
    ladder.evaluate (.ident (rung 16)) = some 7 ∧
    ladder.evaluate (.ident (rung 17)) = none ∧
    ladder.evaluate (.unary .neg (.ident "LOOP")) = none ∧
    ladder.evaluate (.cond (.ident (rung 16)) (.num 3) (.ident "LOOP")) = some 3 := by
  obtain ⟨hvalue, hexact, hloop, hchain⟩ := evaluate_within_nesting ladder
  refine ⟨hchain 16 _ 7 (ladder_chain (by omega)), hchain 17 _ 7 (ladder_chain (by omega)),
    hloop _ 0 0 "LOOP" (.operand (.itself _)) ladder_loops, ?_⟩
  obtain ⟨D, hD⟩ := (ladder_chain (k := 15) (by omega)).derivation
  exact (hvalue _ 3).mpr ⟨.choice D (.literal (.num 3)), by simp [Derivation.nesting, hD]⟩

end Devicetree.Proofs
