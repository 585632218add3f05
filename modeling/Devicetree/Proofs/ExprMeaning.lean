import Mathlib.Algebra.Ring.Int.Defs
import Mathlib.Algebra.Ring.Nat
import Devicetree.Expr.Eval

namespace Devicetree.Proofs

section Words

theorem ofInt_eq_some_iff {n : Int} {v : Int64} : Word.ofInt? n = some v ↔ v.toInt = n := by
  have hmin : Int64.minValue.toInt = -2 ^ 63 := by decide
  have hmax : Int64.maxValue.toInt = 2 ^ 63 - 1 := by decide
  unfold Word.ofInt?
  constructor
  · intro h
    split at h
    · rename_i hn
      rw [← Option.some.inj h]
      exact Int64.toInt_ofInt_of_le (by omega) (by omega)
    · cases h
  · rintro rfl
    have hle := v.le_toInt
    have hlt := v.toInt_lt
    rw [if_pos (by omega), Int64.ofInt_toInt]

def FitsWord (n : Int) : Prop := -2 ^ 63 ≤ n ∧ n < 2 ^ 63

theorem fitsWord_toInt (v : Int64) : FitsWord v.toInt := ⟨v.le_toInt, v.toInt_lt⟩

theorem FitsWord.ofInt {n : Int} (h : FitsWord n) : ∃ v, Word.ofInt? n = some v :=
  ⟨Int64.ofInt n, ofInt_eq_some_iff.mpr (Int64.toInt_ofInt_of_le h.1 h.2)⟩

/-- The only quotient of words outside their range is that of the least word and minus one. -/
theorem fitsWord_tdiv {a b : Int64} (h : ¬ (a = Int64.minValue ∧ b = -1)) :
    FitsWord (a.toInt.tdiv b.toInt) := by
  have hle := a.le_toInt
  have hlt := a.toInt_lt
  have hmin : a = Int64.minValue ↔ a.toInt = -2 ^ 63 := Int64.toInt_inj.symm
  have hone : b = -1 ↔ b.toInt = -1 := Int64.toInt_inj.symm
  have habs : (a.toInt.tdiv b.toInt).natAbs = a.toInt.natAbs / b.toInt.natAbs := Int.natAbs_tdiv ..
  rw [hmin, hone] at h
  unfold FitsWord
  by_cases hb : b.toInt.natAbs ≤ 1
  · rcases (by omega : b.toInt = 0 ∨ b.toInt = 1 ∨ b.toInt = -1) with hb | hb | hb
    · rw [hb, Int.tdiv_zero]
      omega
    · rw [hb, Int.tdiv_one]
      omega
    · rw [hb, Int.tdiv_neg, Int.tdiv_one]
      omega
  -- Any other divisor at least halves the dividend, which leaves room for either sign.
  · have hhalf : a.toInt.natAbs / b.toInt.natAbs ≤ a.toInt.natAbs / 2 :=
      Nat.div_le_div_left (by omega) (by omega)
    omega

theorem smod_of_toInt {b : Int64} {k : Nat} (hb : b.toInt = k) (hk : k < 64) :
    (b.toBitVec.smod 64).toNat = k := by
  have hmsb : b.toBitVec.msb = false := by
    rw [BitVec.msb_eq_toInt, Int64.toInt_toBitVec, hb]
    simp
  have hnat : b.toBitVec.toNat = k := by
    have hint := BitVec.toInt_eq_toNat_of_msb hmsb
    rw [Int64.toInt_toBitVec, hb] at hint
    exact_mod_cast hint.symm
  have hwidth : (64 : BitVec 64).msb = false := by decide
  rw [BitVec.smod_eq, hmsb, hwidth]
  simp only [BitVec.umod_eq, BitVec.toNat_umod, hnat]
  exact Nat.mod_eq_of_lt hk

theorem toInt_shiftLeft {a b : Int64} {k : Nat} (hb : b.toInt = k) (hk : k < 64) :
    (a <<< b).toInt = (a.toInt * 2 ^ k).bmod (2 ^ 64) := by
  rw [← Int64.toInt_toBitVec, Int64.toBitVec_shiftLeft, BitVec.shiftLeft_eq', smod_of_toInt hb hk,
    BitVec.toInt_shiftLeft, Nat.shiftLeft_eq, ← Int64.toInt_toBitVec a, BitVec.toInt_eq_toNat_bmod]
  push_cast
  rw [Int.bmod_mul_bmod]

theorem toInt_shiftRight {a b : Int64} {k : Nat} (hb : b.toInt = k) (hk : k < 64) :
    (a >>> b).toInt = a.toInt / 2 ^ k := by
  rw [← Int64.toInt_toBitVec, Int64.toBitVec_shiftRight, BitVec.sshiftRight', smod_of_toInt hb hk,
    BitVec.toInt_sshiftRight, Int64.toInt_toBitVec, Int.shiftRight_eq_div_pow]
  push_cast
  rfl

theorem isShift_iff {b : Int64} : Word.isShift b = true ↔ ∃ k : Nat, k < 64 ∧ b.toInt = k := by
  simp only [Word.isShift, decide_eq_true_eq]
  constructor
  · rintro ⟨hle, hlt⟩
    exact ⟨b.toInt.toNat, by omega, by omega⟩
  · rintro ⟨k, hk, hb⟩
    omega

end Words

section Operators

def ExactUnary : UnaryOp → Int64 → Int64 → Prop
  | .neg, a, v => v.toInt = -a.toInt
  | .bitNot, a, v => v = ~~~a
  | .logicalNot, a, v => v = if a = 0 then 1 else 0

/-- The result that a binary operator has in C: no bits get lost, quotients are rounded toward zero, a shift goes
by 0 to 63 places, and one to the right keeps the sign. -/
def Exact : BinaryOp → Int64 → Int64 → Int64 → Prop
  | .add, a, b, v => v.toInt = a.toInt + b.toInt
  | .sub, a, b, v => v.toInt = a.toInt - b.toInt
  | .mul, a, b, v => v.toInt = a.toInt * b.toInt
  | .div, a, b, v => b ≠ 0 ∧ v.toInt = a.toInt.tdiv b.toInt
  | .mod, a, b, v => b ≠ 0 ∧ v.toInt = a.toInt.tmod b.toInt
  | .bitAnd, a, b, v => v = a &&& b
  | .bitOr, a, b, v => v = a ||| b
  | .bitXor, a, b, v => v = a ^^^ b
  | .shl, a, b, v => ∃ k : Nat, k < 64 ∧ b.toInt = k ∧ v.toInt = a.toInt * 2 ^ k
  | .shr, a, b, v => ∃ k : Nat, k < 64 ∧ b.toInt = k ∧ v.toInt = a.toInt / 2 ^ k
  | .and, a, b, v => v = if a ≠ 0 ∧ b ≠ 0 then 1 else 0
  | .or, a, b, v => v = if a ≠ 0 ∨ b ≠ 0 then 1 else 0
  | .eq, a, b, v => v = if a = b then 1 else 0
  | .ne, a, b, v => v = if a ≠ b then 1 else 0
  | .lt, a, b, v => v = if a.toInt < b.toInt then 1 else 0
  | .gt, a, b, v => v = if a.toInt > b.toInt then 1 else 0
  | .le, a, b, v => v = if a.toInt ≤ b.toInt then 1 else 0
  | .ge, a, b, v => v = if a.toInt ≥ b.toInt then 1 else 0

def decided? : BinaryOp → Int64 → Option Int64
  | .and, a => if a = 0 then some 0 else none
  | .or, a => if a = 0 then none else some 1
  | _, _ => none

def Overflows (a b : Int64) : Prop := ∃ k : Nat, k < 64 ∧ b.toInt = k ∧ ¬ FitsWord (a.toInt * 2 ^ k)

variable {op : BinaryOp} {a b v w : Int64}

theorem apply_unary_iff {op : UnaryOp} : op.apply a = some v ↔ ExactUnary op a v := by
  cases op with
  | neg => exact ofInt_eq_some_iff
  | bitNot => simp [UnaryOp.apply, ExactUnary, eq_comm]
  | logicalNot => simp [UnaryOp.apply, ExactUnary, Word.ofBool, eq_comm]

theorem ExactUnary.unique {op : UnaryOp} (hv : ExactUnary op a v) (hw : ExactUnary op a w) : v = w :=
  Option.some.inj ((apply_unary_iff.mpr hv).symm.trans (apply_unary_iff.mpr hw))

/-- Remainders and left shifts apart, operators have their exact results and no others. -/
theorem apply_iff (hmod : op ≠ .mod) (hshl : op ≠ .shl) : op.apply a b = some v ↔ Exact op a b v := by
  cases op with
  | add | sub | mul => exact ofInt_eq_some_iff
  | div =>
    simp only [BinaryOp.apply, Word.quotient?, Exact]
    split <;> simp_all [ofInt_eq_some_iff]
  | shr =>
    simp only [BinaryOp.apply, Exact]
    split
    · rename_i hshift
      obtain ⟨k, hk, hb⟩ := isShift_iff.mp hshift
      rw [Option.some.injEq, ← Int64.toInt_inj, toInt_shiftRight hb hk]
      constructor
      · exact fun hv => ⟨k, hk, hb, hv.symm⟩
      · rintro ⟨j, _, hj, hv⟩
        obtain rfl : j = k := by omega
        exact hv.symm
    · rename_i hshift
      constructor
      · nofun
      · rintro ⟨k, hk, hb, _⟩
        exact absurd (isShift_iff.mpr ⟨k, hk, hb⟩) hshift
  | mod => exact absurd rfl hmod
  | shl => exact absurd rfl hshl
  | _ => simp [BinaryOp.apply, Exact, Word.ofBool, @eq_comm _ v]

/-- There is a remainder where there is a quotient. -/
theorem apply_mod_iff : BinaryOp.mod.apply a b = some v ↔
    Exact .mod a b v ∧ ¬ (a = Int64.minValue ∧ b = -1) := by
  simp only [BinaryOp.apply, Word.remainder?, Word.quotient?, Exact]
  by_cases hb : b = 0
  · simp [hb]
  · by_cases hleast : a = Int64.minValue ∧ b = -1
    · obtain ⟨rfl, rfl⟩ := hleast
      have hnone : Word.ofInt? (Int64.minValue.toInt.tdiv (-1 : Int64).toInt) = none := by decide
      rw [if_neg hb, hnone]
      simp
    · obtain ⟨q, hq⟩ := (fitsWord_tdiv hleast).ofInt
      simp [hb, hleast, hq, ofInt_eq_some_iff]

/-- A left shift is exact if its result fits. -/
theorem apply_shl_iff : BinaryOp.shl.apply a b = some v ∧ ¬ Overflows a b ↔ Exact .shl a b v := by
  simp only [BinaryOp.apply, Exact]
  constructor
  · rintro ⟨h, hfits⟩
    split at h
    · rename_i hshift
      obtain ⟨k, hk, hb⟩ := isShift_iff.mp hshift
      have hword : FitsWord (a.toInt * 2 ^ k) :=
        Classical.byContradiction fun hover => hfits ⟨k, hk, hb, hover⟩
      refine ⟨k, hk, hb, ?_⟩
      rw [← Option.some.inj h, toInt_shiftLeft hb hk]
      exact Int.bmod_eq_of_le (by exact_mod_cast hword.1) (by exact_mod_cast hword.2)
    · cases h
  · rintro ⟨k, hk, hb, hv⟩
    have hword : FitsWord (a.toInt * 2 ^ k) := hv ▸ fitsWord_toInt v
    refine ⟨?_, ?_⟩
    · rw [if_pos (isShift_iff.mpr ⟨k, hk, hb⟩), Option.some.injEq, ← Int64.toInt_inj, toInt_shiftLeft hb hk, hv]
      exact Int.bmod_eq_of_le (by exact_mod_cast hword.1) (by exact_mod_cast hword.2)
    · rintro ⟨j, _, hj, hover⟩
      obtain rfl : j = k := by omega
      exact hover hword

/-- An exact result is computed, unless it is the remainder of the least word and minus one. -/
theorem Exact.apply (h : Exact op a b v) (hleast : ¬ (op = .mod ∧ a = Int64.minValue ∧ b = -1)) :
    op.apply a b = some v := by
  by_cases hmod : op = .mod
  · subst hmod
    exact apply_mod_iff.mpr ⟨h, fun hab => hleast ⟨rfl, hab⟩⟩
  · by_cases hshl : op = .shl
    · subst hshl
      exact (apply_shl_iff.mpr h).1
    · exact (apply_iff hmod hshl).mpr h

/-- What is computed is the exact result, unless a left shift overflows. -/
theorem exact_of_apply (h : op.apply a b = some v) (hover : ¬ (op = .shl ∧ Overflows a b)) :
    Exact op a b v := by
  by_cases hmod : op = .mod
  · subst hmod
    exact (apply_mod_iff.mp h).1
  · by_cases hshl : op = .shl
    · subst hshl
      exact apply_shl_iff.mp ⟨h, fun hab => hover ⟨rfl, hab⟩⟩
    · exact (apply_iff hmod hshl).mp h

theorem Exact.unique (hv : Exact op a b v) (hw : Exact op a b w) : v = w := by
  by_cases hmod : op = .mod
  · subst hmod
    exact Int64.toInt_inj.mp (hv.2.trans hw.2.symm)
  · have hleast : ¬ (op = .mod ∧ a = Int64.minValue ∧ b = -1) := fun h => hmod h.1
    exact Option.some.inj ((hv.apply hleast).symm.trans (hw.apply hleast))

theorem Exact.eq_of_apply (hw : Exact op a b w) (hv : op.apply a b = some v) : v = w := by
  by_cases hleast : op = .mod ∧ a = Int64.minValue ∧ b = -1
  · obtain ⟨rfl, hab⟩ := hleast
    exact absurd hab (apply_mod_iff.mp hv).2
  · exact Option.some.inj (hv.symm.trans (hw.apply hleast))

/-- Asked for both operands, an operator whose left one decides has the result that was decided. -/
theorem apply_of_decided (h : decided? op a = some v) (b : Int64) : op.apply a b = some v := by
  cases op with
  | and =>
    simp only [decided?] at h
    split at h
    · rename_i ha
      simp [BinaryOp.apply, Word.ofBool, ha, ← Option.some.inj h]
    · cases h
  | or =>
    simp only [decided?] at h
    split at h
    · cases h
    · rename_i ha
      simp [BinaryOp.apply, Word.ofBool, ha, ← Option.some.inj h]
  | _ => cases h

end Operators

/-- What an expression means in C while lookups of defines may nest to the given depth. -/
inductive Means (d : Defines) : Nat → Expr → Int64 → Prop
  | literal (n : Nat) (l : Literal) : Means d n (.lit l) l.value
  | define {n : Nat} {name body : String} {e : Expr} {v : Int64} (hbody : d.object? name = some body)
      (hparse : Expr.parse? body = some e) (hv : Means d n e v) : Means d (n + 1) (.ident name) v
  | unary {n : Nat} {op : UnaryOp} {e : Expr} {a v : Int64} (ha : Means d n e a) (hv : ExactUnary op a v) :
      Means d n (.unary op e) v
  | decided {n : Nat} {op : BinaryOp} {l r : Expr} {a v : Int64} (ha : Means d n l a)
      (hv : decided? op a = some v) : Means d n (.binary l op r) v
  | both {n : Nat} {op : BinaryOp} {l r : Expr} {a b v : Int64} (ha : Means d n l a)
      (hopen : decided? op a = none) (hb : Means d n r b) (hv : Exact op a b v) : Means d n (.binary l op r) v
  | choice {n : Nat} {c t e : Expr} {a v : Int64} (ha : Means d n c a)
      (hv : Means d n (if a ≠ 0 then t else e) v) : Means d n (.cond c t e) v

/-- The expressions, with the depth left for their lookups, that C asks for in order to tell what the first one
means. -/
inductive Asks (d : Defines) : Nat → Expr → Nat → Expr → Prop
  | itself (n : Nat) (e : Expr) : Asks d n e n e
  | define {n m : Nat} {name body : String} {e x : Expr} (hbody : d.object? name = some body)
      (hparse : Expr.parse? body = some e) (h : Asks d n e m x) : Asks d (n + 1) (.ident name) m x
  | operand {n m : Nat} {op : UnaryOp} {e x : Expr} (h : Asks d n e m x) : Asks d n (.unary op e) m x
  | left {n m : Nat} {op : BinaryOp} {l r x : Expr} (h : Asks d n l m x) : Asks d n (.binary l op r) m x
  | right {n m : Nat} {op : BinaryOp} {l r x : Expr} {a : Int64} (ha : Means d n l a)
      (hopen : decided? op a = none) (h : Asks d n r m x) : Asks d n (.binary l op r) m x
  | test {n m : Nat} {c t e x : Expr} (h : Asks d n c m x) : Asks d n (.cond c t e) m x
  | branch {n m : Nat} {c t e x : Expr} {a : Int64} (ha : Means d n c a)
      (h : Asks d n (if a ≠ 0 then t else e) m x) : Asks d n (.cond c t e) m x

def valueAt (d : Defines) (n : Nat) (e : Expr) : Option Int64 := e.evalWith (d.valueWithin n)

/-- Among what C asks for there is an operator that evaluation stops at: a right operand without a value that the
left one makes idle, or the remainder of the least word and minus one. -/
def Hampered (d : Defines) (n : Nat) (e : Expr) : Prop :=
  ∃ m l op r a, Asks d n e m (.binary l op r) ∧ Means d m l a ∧
    ((decided? op a).isSome ∧ valueAt d m r = none ∨ op = .mod ∧ a = Int64.minValue ∧ Means d m r (-1))

def Spills (d : Defines) (n : Nat) (e : Expr) : Prop :=
  ∃ m l r a b, Asks d n e m (.binary l .shl r) ∧ Means d m l a ∧ Means d m r b ∧ Overflows a b

variable {d : Defines} {n m : Nat} {e x : Expr} {a b v w : Int64}

section Values

theorem value_ident {name body : String} (hbody : d.object? name = some body)
    (hparse : Expr.parse? body = some e) : valueAt d (n + 1) (.ident name) = valueAt d n e := by
  simp [valueAt, Expr.evalWith, Defines.valueWithin, hbody, hparse]

theorem value_unary {op : UnaryOp} : valueAt d n (.unary op e) = some v ↔
    ∃ a, valueAt d n e = some a ∧ op.apply a = some v := by
  simp [valueAt, Expr.evalWith, Option.bind_eq_some_iff]

theorem value_binary {l r : Expr} {op : BinaryOp} : valueAt d n (.binary l op r) = some v ↔
    ∃ a, valueAt d n l = some a ∧ ∃ b, valueAt d n r = some b ∧ op.apply a b = some v := by
  simp [valueAt, Expr.evalWith, Option.bind_eq_some_iff]

theorem value_cond {c t f : Expr} : valueAt d n (.cond c t f) = some v ↔
    ∃ a, valueAt d n c = some a ∧ valueAt d n (if a ≠ 0 then t else f) = some v := by
  simp only [valueAt, Expr.evalWith, Option.bind_eq_bind, Option.bind_eq_some_iff]
  refine exists_congr fun a => and_congr_right fun _ => ?_
  split <;> rfl

end Values

/-- An expression means at most one number. -/
theorem Means.unique (hv : Means d n e v) : ∀ {w}, Means d n e w → v = w := by
  induction hv with
  | literal n l =>
    intro w hw
    cases hw
    rfl
  | define hbody hparse _ ih =>
    intro w hw
    obtain _ | ⟨hbody', hparse', hw⟩ := hw
    obtain rfl := Option.some.inj (hbody.symm.trans hbody')
    obtain rfl := Option.some.inj (hparse.symm.trans hparse')
    exact ih hw
  | unary _ hv ih =>
    intro w hw
    obtain _ | _ | ⟨ha, hw⟩ := hw
    obtain rfl := ih ha
    exact hv.unique hw
  | decided _ hv ih =>
    intro w hw
    cases hw with
    | decided ha hw =>
      obtain rfl := ih ha
      exact Option.some.inj (hv.symm.trans hw)
    | both ha hopen _ _ =>
      obtain rfl := ih ha
      simp [hv] at hopen
  | both _ hopen _ hv iha ihb =>
    intro w hw
    cases hw with
    | decided ha hw =>
      obtain rfl := iha ha
      simp [hw] at hopen
    | both ha _ hb hw =>
      obtain rfl := iha ha
      obtain rfl := ihb hb
      exact hv.unique hw
  | choice _ _ iha ihv =>
    intro w hw
    cases hw with
    | choice ha hw =>
      obtain rfl := iha ha
      exact ihv hw

/-- Evaluation never gives another number than C. -/
theorem Means.value (hw : Means d n e w) : ∀ {v}, valueAt d n e = some v → v = w := by
  induction hw with
  | literal n l =>
    intro v hv
    exact (Option.some.inj hv).symm
  | define hbody hparse _ ih =>
    intro v hv
    rw [value_ident hbody hparse] at hv
    exact ih hv
  | unary _ hw ih =>
    intro v hv
    obtain ⟨a, ha, hv⟩ := value_unary.mp hv
    obtain rfl := ih ha
    exact (apply_unary_iff.mp hv).unique hw
  | decided _ hw ih =>
    intro v hv
    obtain ⟨a, ha, b, _, hv⟩ := value_binary.mp hv
    obtain rfl := ih ha
    exact Option.some.inj (hv.symm.trans (apply_of_decided hw b))
  | both _ _ _ hw iha ihb =>
    intro v hv
    obtain ⟨a, ha, b, hb, hv⟩ := value_binary.mp hv
    obtain rfl := iha ha
    obtain rfl := ihb hb
    exact hw.eq_of_apply hv
  | choice _ _ iha ihv =>
    intro v hv
    obtain ⟨a, ha, hv⟩ := value_cond.mp hv
    obtain rfl := iha ha
    exact ihv hv

section Hampered

/-- What has no value leaves everything without one that asks for it. -/
theorem Asks.no_value (h : Asks d n e m x) (hx : valueAt d m x = none) : valueAt d n e = none := by
  induction h with
  | itself => exact hx
  | define hbody hparse _ ih => rw [value_ident hbody hparse, ih hx]
  | operand _ ih | left _ ih | test _ ih =>
    rw [Option.eq_none_iff_forall_ne_some]
    intro v hv
    simp [value_unary, value_binary, value_cond, ih hx] at hv
  | right _ _ _ ih =>
    rw [Option.eq_none_iff_forall_ne_some]
    intro v hv
    simp [value_binary, ih hx] at hv
  | branch ha _ ih =>
    rw [Option.eq_none_iff_forall_ne_some]
    intro v hv
    obtain ⟨a, hvalue, hv⟩ := value_cond.mp hv
    obtain rfl := ha.value hvalue
    cases (ih hx).symm.trans hv

theorem Hampered.no_value (h : Hampered d n e) : valueAt d n e = none := by
  obtain ⟨m, l, op, r, a, hasks, ha, hstop⟩ := h
  refine hasks.no_value ?_
  rw [Option.eq_none_iff_forall_ne_some]
  intro v hv
  obtain ⟨a', hvalue, b, hb, hv⟩ := value_binary.mp hv
  obtain rfl := ha.value hvalue
  obtain ⟨_, hnone⟩ | ⟨rfl, rfl, hone⟩ := hstop
  · cases hnone.symm.trans hb
  · obtain rfl := hone.value hb
    exact (apply_mod_iff.mp hv).2 ⟨rfl, rfl⟩

/-- To be hampered at an operator that is asked for is to be hampered. -/
theorem Hampered.of_asks (h : ∀ {m' x'}, Asks d m x m' x' → Asks d n e m' x') (hx : Hampered d m x) :
    Hampered d n e := by
  obtain ⟨m', l, op, r, a, hasks, rest⟩ := hx
  exact ⟨m', l, op, r, a, h hasks, rest⟩

/-- Evaluation gives what C gives, as long as nothing hampers it. -/
theorem Means.value_eq (h : Means d n e v) : ¬ Hampered d n e → valueAt d n e = some v := by
  induction h with
  | literal n l =>
    intro _
    rfl
  | define hbody hparse _ ih =>
    intro hfree
    rw [value_ident hbody hparse]
    exact ih fun hx => hfree (hx.of_asks (.define hbody hparse))
  | unary _ hv ih =>
    intro hfree
    exact value_unary.mpr ⟨_, ih fun hx => hfree (hx.of_asks .operand), apply_unary_iff.mpr hv⟩
  | @decided n op l r a v ha hv ih =>
    intro hfree
    have hl := ih fun hx => hfree (hx.of_asks .left)
    cases hr : valueAt d n r with
    | none => exact absurd ⟨n, l, op, r, a, .itself .., ha, .inl ⟨by simp [hv], hr⟩⟩ hfree
    | some b => exact value_binary.mpr ⟨a, hl, b, hr, apply_of_decided hv b⟩
  | @both n op l r a b v ha hopen hb hv iha ihb =>
    intro hfree
    have hl := iha fun hx => hfree (hx.of_asks .left)
    have hr := ihb fun hx => hfree (hx.of_asks (.right ha hopen))
    refine value_binary.mpr ⟨a, hl, b, hr, hv.apply ?_⟩
    rintro ⟨rfl, rfl, rfl⟩
    exact hfree ⟨n, l, .mod, r, _, .itself .., ha, .inr ⟨rfl, rfl, hb⟩⟩
  | choice ha _ iha ihv =>
    intro hfree
    exact value_cond.mpr ⟨_, iha fun hx => hfree (hx.of_asks .test),
      ihv fun hx => hfree (hx.of_asks (.branch ha))⟩

end Hampered

section Spilled

/-- What C asks for has a meaning where the whole has one. -/
theorem Asks.has_meaning (h : Asks d n e m x) : ∀ {v}, Means d n e v → ∃ w, Means d m x w := by
  induction h with
  | itself => exact fun hv => ⟨_, hv⟩
  | define hbody hparse _ ih =>
    intro v hv
    obtain _ | ⟨hbody', hparse', hv⟩ := hv
    obtain rfl := Option.some.inj (hbody.symm.trans hbody')
    obtain rfl := Option.some.inj (hparse.symm.trans hparse')
    exact ih hv
  | operand _ ih =>
    intro v hv
    cases hv with
    | unary ha _ => exact ih ha
  | left _ ih =>
    intro v hv
    cases hv with
    | decided ha _ | both ha _ _ _ => exact ih ha
  | right ha hopen _ ih =>
    intro v hv
    cases hv with
    | decided ha' hv =>
      obtain rfl := ha.unique ha'
      simp [hv] at hopen
    | both _ _ hb _ => exact ih hb
  | test _ ih =>
    intro v hv
    cases hv with
    | choice ha _ => exact ih ha
  | branch ha _ ih =>
    intro v hv
    cases hv with
    | choice ha' hv =>
      obtain rfl := ha.unique ha'
      exact ih hv

theorem Spills.no_meaning (h : Spills d n e) : ¬ ∃ v, Means d n e v := by
  rintro ⟨v, hv⟩
  obtain ⟨m, l, r, a, b, hasks, ha, hb, hover⟩ := h
  obtain ⟨w, hw⟩ := hasks.has_meaning hv
  cases hw with
  | decided _ hw => cases hw
  | both ha' _ hb' hw =>
    obtain rfl := ha.unique ha'
    obtain rfl := hb.unique hb'
    exact (apply_shl_iff.mpr hw).2 hover

theorem Spills.of_asks (h : ∀ {m' x'}, Asks d m x m' x' → Asks d n e m' x') (hx : Spills d m x) :
    Spills d n e := by
  obtain ⟨m', l, r, a, b, hasks, rest⟩ := hx
  exact ⟨m', l, r, a, b, h hasks, rest⟩

/-- One level of defines: evaluation gives what C gives, if lookups do. -/
theorem means_of_value_within
    (hlookup : ∀ {name v}, valueAt d n (.ident name) = some v → ¬ Spills d n (.ident name) →
      Means d n (.ident name) v) :
    ∀ {v}, valueAt d n e = some v → ¬ Spills d n e → Means d n e v := by
  induction e with
  | lit l =>
    intro v hv _
    rw [← Option.some.inj hv]
    exact .literal n l
  | ident name => exact hlookup
  | unary op e ih =>
    intro v hv hdry
    obtain ⟨a, ha, hv⟩ := value_unary.mp hv
    exact .unary (ih ha fun hx => hdry (hx.of_asks .operand)) (apply_unary_iff.mp hv)
  | binary l op r ihl ihr =>
    intro v hv hdry
    obtain ⟨a, ha, b, hb, hv⟩ := value_binary.mp hv
    have hl := ihl ha fun hx => hdry (hx.of_asks .left)
    cases hopen : decided? op a with
    | some w =>
      obtain rfl := Option.some.inj (hv.symm.trans (apply_of_decided hopen b))
      exact .decided hl hopen
    | none =>
      have hr := ihr hb fun hx => hdry (hx.of_asks (.right hl hopen))
      refine .both hl hopen hr (exact_of_apply hv ?_)
      rintro ⟨rfl, hover⟩
      exact hdry ⟨n, l, r, a, b, .itself .., hl, hr, hover⟩
  | cond c t f ihc iht ihf =>
    intro v hv hdry
    obtain ⟨a, ha, hv⟩ := value_cond.mp hv
    have hc := ihc ha fun hx => hdry (hx.of_asks .test)
    refine .choice hc ?_
    have hbranch : ¬ Spills d n (if a ≠ 0 then t else f) := fun hx => hdry (hx.of_asks (.branch hc))
    split at hv <;> rename_i hzero
    · rw [if_pos hzero] at hbranch ⊢
      exact iht hv hbranch
    · rw [if_neg hzero] at hbranch ⊢
      exact ihf hv hbranch

/-- C gives what evaluation gives, as long as no left shift overflows. -/
theorem means_of_value : ∀ {n : Nat} {e : Expr} {v : Int64}, valueAt d n e = some v → ¬ Spills d n e →
    Means d n e v := by
  intro n
  induction n with
  | zero =>
    intro e v
    refine means_of_value_within ?_
    intro name v hv _
    cases hv
  | succ n ih =>
    intro e v
    refine means_of_value_within ?_
    intro name v hv hdry
    cases hbody : d.object? name with
    | none => simp [valueAt, Expr.evalWith, Defines.valueWithin, hbody] at hv
    | some body =>
      cases hparse : Expr.parse? body with
      | none => simp [valueAt, Expr.evalWith, Defines.valueWithin, hbody, hparse] at hv
      | some e =>
        rw [value_ident hbody hparse] at hv
        exact .define hbody hparse (ih hv fun hx => hdry (hx.of_asks (.define hbody hparse)))

end Spilled

/-- Evaluation and C never give two different numbers. What means a number in C has no value only where evaluation
is hampered, and what has a value means nothing in C only where a left shift overflows. -/
theorem evaluate_means (d : Defines) (e : Expr) :
    (∀ v w, d.evaluate e = some v → Means d Defines.maxNesting e w → v = w) ∧
    (∀ v, Means d Defines.maxNesting e v →
      (d.evaluate e = none ↔ Hampered d Defines.maxNesting e)) ∧
    (∀ v, d.evaluate e = some v →
      ((¬ ∃ w, Means d Defines.maxNesting e w) ↔ Spills d Defines.maxNesting e)) := by
  refine ⟨fun v w hv hw => hw.value hv, ?_, ?_⟩
  · intro v hv
    refine ⟨fun hnone => ?_, Hampered.no_value⟩
    apply Classical.byContradiction
    intro hfree
    cases hnone.symm.trans (hv.value_eq hfree)
  · intro v hv
    refine ⟨fun hnone => ?_, Spills.no_meaning⟩
    apply Classical.byContradiction
    intro hdry
    exact hnone ⟨v, means_of_value hv hdry⟩

theorem means_num (k : Int64) : Means d n (.num k) k := .literal n (.num k)

theorem overflows_one_by_63 : Overflows 1 63 := by
  refine ⟨63, by decide, by decide, ?_⟩
  unfold FitsWord
  decide

theorem evaluate_means_hampered_and_spilled :
    Hampered {} Defines.maxNesting (.binary (.num 0) .and (.ident "MISSING")) ∧
    Spills {} Defines.maxNesting (.binary (.num 1) .shl (.num 63)) := by
  refine ⟨((evaluate_means {} _).2.1 0 (.decided (means_num 0) rfl)).mp (by decide),
    ((evaluate_means {} _).2.2 Int64.minValue (by decide)).mp ?_⟩
  rintro ⟨w, hw⟩
  cases hw with
  | decided _ hw => cases hw
  | both ha _ hb hw =>
    obtain rfl := (means_num 1).unique ha
    obtain rfl := (means_num 63).unique hb
    exact (apply_shl_iff.mpr hw).2 overflows_one_by_63

/-- The three ways in which evaluation and C part: `0 && MISSING` is 0 in C, `1 << 63` fits no word, and the
remainder of the least word and minus one is 0. -/
theorem evaluate_parts_from_meaning :
    (Means {} Defines.maxNesting (.binary (.num 0) .and (.ident "MISSING")) 0 ∧
      Defines.evaluate {} (.binary (.num 0) .and (.ident "MISSING")) = none) ∧
    ((¬ ∃ v, Means {} Defines.maxNesting (.binary (.num 1) .shl (.num 63)) v) ∧
      Defines.evaluate {} (.binary (.num 1) .shl (.num 63)) = some Int64.minValue) ∧
    (Means {} Defines.maxNesting (.binary (.num Int64.minValue) .mod (.num (-1))) 0 ∧
      Defines.evaluate {} (.binary (.num Int64.minValue) .mod (.num (-1))) = none) := by
  refine ⟨⟨.decided (means_num 0) rfl, by decide⟩, ⟨?_, by decide⟩,
    ⟨.both (means_num _) rfl (means_num _) ?_, by decide⟩⟩
  · exact Spills.no_meaning ⟨_, _, _, 1, 63, .itself .., means_num 1, means_num 63, overflows_one_by_63⟩
  · exact ⟨by decide, by decide⟩

end Devicetree.Proofs
