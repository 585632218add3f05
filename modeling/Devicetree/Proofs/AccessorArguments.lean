import Devicetree.Proofs.NodeIdentifiers

namespace Devicetree.Proofs

def selectorArity : Selector → Nat
  | .first => 0
  | .index i | .name i => i + 1

/-- How many arguments a form reads. A path reads all that it is given. -/
def formArity : Form → Option Nat
  | .path => none
  | .root => some 0
  | .aliasNode | .nodeLabel | .parent | .grandparent | .driverInst | .anyOkay | .chosen | .bus | .nodeExists
  | .hasChosen | .isOkay | .hasOkay | .countOkay | .childCount | .okayChildCount | .fullName _ | .nodePath
  | .regCount | .irqCount => some 1
  | .child | .inst | .sameNode | .onBus | .hasProperty | .hasCompatible | .hasStatus | .property | .lastElement
  | .length | .enumIndex | .hasReg | .hasIrq => some 2
  | .propertyOr | .element | .lengthOr | .hasElement | .hasGroup | .enumIndexOr | .enumIndexAt | .cell
  | .propertyThrough => some 3
  | .enumIndexAtOr | .cellOr | .cellAt | .cellNamed | .propertyThroughAt => some 4
  | .cellAtOr | .cellNamedOr | .propertyThroughAtOr => some 5
  | .text _ byIndex hasFallback => some (2 + byIndex.toNat + hasFallback.toNat)
  | .phandle pick => some (max 2 (selectorArity pick))
  | .reg _ pick => some (max 1 (selectorArity pick))
  | .irq pick arg => some (max (max 1 (selectorArity pick)) ((arg.map (· + 1)).getD 0))

def Consults (form : Form) (i : Nat) : Prop := ∀ n ∈ formArity form, i < n

def rawText? : CallExpr → Option String
  | .leaf .str text _ => some (unquote text)
  | .leaf _ text _ => some text
  | .call _ _ _ => none

def identText? (e : CallExpr) : Option String := (rawText? e).map Identifier.ofName

/-- The token that an argument stands for if it means nothing: an identifier or raw text. -/
def bareToken? : CallExpr → Option Resolved
  | .leaf .ident text _ | .leaf .raw text _ => some (.ofValue (.token text))
  | _ => none

structure AlikeAt (a b : Accessor.Args) (i : Nat) : Prop where
  expr : a.exprs[i]?.map unranged = b.exprs[i]?.map unranged
  meaning : a.resolve? i = b.resolve? i

section Arguments
variable {a b : Accessor.Args} {i : Nat} {g : Graph}

theorem rawText_unranged (e : CallExpr) : rawText? (unranged e) = rawText? e := by
  cases e with
  | call => rfl
  | leaf kind => cases kind <;> rfl

theorem bareToken_unranged (e : CallExpr) : bareToken? (unranged e) = bareToken? e := by
  cases e with
  | call => rfl
  | leaf kind => cases kind <;> rfl

theorem raw_eq (a : Accessor.Args) (i : Nat) : a.raw? i = a.exprs[i]?.bind rawText? := by
  rw [Accessor.Args.raw?]
  cases a.exprs[i]? with
  | none => rfl
  | some e =>
    cases e with
    | call => rfl
    | leaf kind => cases kind <;> rfl

theorem ident_eq (a : Accessor.Args) (i : Nat) : a.ident? i = a.exprs[i]?.bind identText? := by
  rw [Accessor.Args.ident?, raw_eq]
  cases a.exprs[i]? <;> rfl

theorem fallback_eq (a : Accessor.Args) (i : Nat) :
    a.fallback? i = (a.resolve? i <|> a.exprs[i]?.bind bareToken?) := by
  rw [Accessor.Args.fallback?]
  cases a.exprs[i]? with
  | none => rfl
  | some e =>
    cases e with
    | call => rfl
    | leaf kind => cases kind <;> rfl

/-- What does not see ranges finds the same in both arguments. -/
theorem AlikeAt.bind {α : Type} (h : AlikeAt a b i) {f : CallExpr → Option α} (hf : ∀ e, f (unranged e) = f e) :
    a.exprs[i]?.bind f = b.exprs[i]?.bind f := by
  have hall : ∀ x : Option CallExpr, (x.map unranged).bind f = x.bind f := by
    intro x
    cases x with
    | none => rfl
    | some e => exact hf e
  rw [← hall, h.expr, hall]

theorem AlikeAt.raw (h : AlikeAt a b i) : a.raw? i = b.raw? i := by
  rw [raw_eq, raw_eq, h.bind rawText_unranged]

theorem AlikeAt.ident (h : AlikeAt a b i) : a.ident? i = b.ident? i := by
  rw [Accessor.Args.ident?, Accessor.Args.ident?, h.raw]

theorem AlikeAt.node (h : AlikeAt a b i) : a.node? i = b.node? i := by
  rw [Accessor.Args.node?, Accessor.Args.node?, h.meaning]

theorem AlikeAt.index (h : AlikeAt a b i) : a.index? i = b.index? i := by
  rw [Accessor.Args.index?, Accessor.Args.index?, h.meaning]

theorem AlikeAt.fallback (h : AlikeAt a b i) : a.fallback? i = b.fallback? i := by
  rw [fallback_eq, fallback_eq, h.meaning, h.bind bareToken_unranged]

theorem property_alike (h₀ : AlikeAt a b 0) (h₁ : AlikeAt a b 1) (g : Graph) : a.property? g = b.property? g := by
  rw [Accessor.Args.property?, Accessor.Args.property?, h₀.node, h₁.ident]

theorem select_alike (pick : Selector) (h : ∀ i < selectorArity pick, AlikeAt a b i)
    (indexOf : String → Option Nat) : a.select? indexOf pick = b.select? indexOf pick := by
  cases pick with
  | first => rfl
  | index i => exact (h i (Nat.lt_succ_self i)).index
  | name i => exact congrArg (·.bind indexOf) (h i (Nat.lt_succ_self i)).raw

theorem target_alike (pick : Selector) (h : ∀ i < max 2 (selectorArity pick), AlikeAt a b i) (g : Graph) :
    Accessor.groupTarget? g a pick = Accessor.groupTarget? g b pick := by
  have hselect := select_alike pick fun i hi => h i (by omega)
  rw [Accessor.groupTarget?, Accessor.groupTarget?, property_alike (h 0 (by simp)) (h 1 (by simp)) g]
  simp only [hselect]

theorem named_alike (h₀ : AlikeAt a b 0) (h₁ : AlikeAt a b 1) (g : Graph) :
    Accessor.namedProperty? g a = Accessor.namedProperty? g b := by
  rw [Accessor.namedProperty?, Accessor.namedProperty?, h₀.node, h₁.ident]

theorem text_alike (h₀ : AlikeAt a b 0) (h₁ : AlikeAt a b 1) (g : Graph) (style : TextStyle) (byIndex : Bool)
    (h₂ : byIndex = true → AlikeAt a b 2) : Accessor.text? g a style byIndex = Accessor.text? g b style byIndex := by
  rw [Accessor.text?, Accessor.text?, property_alike h₀ h₁]
  cases byIndex with
  | false => rfl
  | true => rw [(h₂ rfl).index]

theorem enum_alike (h₀ : AlikeAt a b 0) (h₁ : AlikeAt a b 1) (g : Graph) :
    Accessor.enumIndex? g a = Accessor.enumIndex? g b := by
  funext i
  rw [Accessor.enumIndex?, Accessor.enumIndex?, h₀.node, property_alike h₀ h₁]

theorem cell_alike {cell : Nat} (h₀ : AlikeAt a b 0) (h₁ : AlikeAt a b 1) (hcell : AlikeAt a b cell) (g : Graph)
    (group : Option Nat) : Accessor.cell? g a group cell = Accessor.cell? g b group cell := by
  rw [Accessor.cell?, Accessor.cell?, property_alike h₀ h₁, hcell.raw]

theorem cellNamed_alike (h : ∀ i < 4, AlikeAt a b i) (g : Graph) :
    Accessor.cellNamed? g a = Accessor.cellNamed? g b := by
  rw [Accessor.cellNamed?, Accessor.cellNamed?, property_alike (h 0 (by decide)) (h 1 (by decide)),
    (h 2 (by decide)).raw, (h 3 (by decide)).raw]

theorem through_alike {name : Nat} (h₀ : AlikeAt a b 0) (h₁ : AlikeAt a b 1) (hname : AlikeAt a b name) (g : Graph)
    (group : Option Nat) : Accessor.propertyThrough? g a group name = Accessor.propertyThrough? g b group name := by
  rw [Accessor.propertyThrough?, Accessor.propertyThrough?, property_alike h₀ h₁, hname.ident]

theorem length_alike (h : ∀ i, AlikeAt a b i) : a.exprs.length = b.exprs.length := by
  have hsame : a.exprs.map unranged = b.exprs.map unranged := by
    apply List.ext_getElem?
    intro i
    rw [List.getElem?_map, List.getElem?_map, (h i).expr]
  simpa using congrArg List.length hsame

end Arguments

section Forms
variable {a b : Accessor.Args} {g : Graph} {env : Accessor.Surroundings}

/-- A form depends only on the arguments that it reads. -/
theorem form_congr (form : Form) (h : ∀ i, Consults form i → AlikeAt a b i) :
    Accessor.form? g env a form = Accessor.form? g env b form := by
  have hread : ∀ {n}, formArity form = some n → ∀ i < n, AlikeAt a b i :=
    fun hn i hi => h i fun m hm => Option.some.inj (hn.symm.trans hm) ▸ hi
  cases form with
  | root => rfl
  | path =>
    have hall : ∀ i, AlikeAt a b i := fun i => h i nofun
    have hident : a.ident? = b.ident? := funext fun i => (hall i).ident
    simp only [Accessor.form?, length_alike hall, hident]
  | aliasNode | nodeLabel | chosen | hasChosen => simp only [Accessor.form?, (hread rfl 0 (by decide)).raw]
  | anyOkay | hasOkay | countOkay => simp only [Accessor.form?, (hread rfl 0 (by decide)).ident]
  | driverInst => simp only [Accessor.form?, (hread rfl 0 (by decide)).index]
  | parent | grandparent | bus | nodeExists | isOkay | childCount | okayChildCount | fullName | nodePath | regCount
  | irqCount => simp only [Accessor.form?, (hread rfl 0 (by decide)).node]
  | child | onBus | hasProperty | hasCompatible =>
    simp only [Accessor.form?, (hread rfl 0 (by decide)).node, (hread rfl 1 (by decide)).ident]
  | inst => simp only [Accessor.form?, (hread rfl 0 (by decide)).index, (hread rfl 1 (by decide)).ident]
  | sameNode => simp only [Accessor.form?, (hread rfl 0 (by decide)).node, (hread rfl 1 (by decide)).node]
  | hasStatus => simp only [Accessor.form?, (hread rfl 0 (by decide)).node, (hread rfl 1 (by decide)).raw]
  | hasReg | hasIrq => simp only [Accessor.form?, (hread rfl 0 (by decide)).node, (hread rfl 1 (by decide)).index]
  | property => exact named_alike (hread rfl 0 (by decide)) (hread rfl 1 (by decide)) g
  | propertyOr =>
    simp only [Accessor.form?, named_alike (hread rfl 0 (by decide)) (hread rfl 1 (by decide)) g,
      (hread rfl 2 (by decide)).fallback]
  | lastElement | length =>
    simp only [Accessor.form?, property_alike (hread rfl 0 (by decide)) (hread rfl 1 (by decide)) g]
  | lengthOr =>
    simp only [Accessor.form?, property_alike (hread rfl 0 (by decide)) (hread rfl 1 (by decide)) g,
      (hread rfl 2 (by decide)).fallback]
  | element | hasElement =>
    simp only [Accessor.form?, property_alike (hread rfl 0 (by decide)) (hread rfl 1 (by decide)) g,
      (hread rfl 2 (by decide)).index]
  | hasGroup =>
    simp only [Accessor.form?, (hread rfl 0 (by decide)).node, (hread rfl 1 (by decide)).ident,
      (hread rfl 2 (by decide)).raw]
  | phandle pick => simp only [Accessor.form?, target_alike pick (hread rfl) g]
  | text style byIndex hasFallback =>
    have hfound := text_alike (hread rfl 0 (by omega)) (hread rfl 1 (by omega)) g style byIndex fun hby =>
      hread rfl 2 (by rw [hby]; simp; omega)
    cases hasFallback with
    | false => exact hfound
    | true => simp only [Accessor.form?, hfound, (hread rfl (2 + byIndex.toNat) (by simp)).fallback]
  | enumIndex => simp only [Accessor.form?, enum_alike (hread rfl 0 (by decide)) (hread rfl 1 (by decide)) g]
  | enumIndexOr =>
    simp only [Accessor.form?, enum_alike (hread rfl 0 (by decide)) (hread rfl 1 (by decide)) g,
      (hread rfl 2 (by decide)).fallback]
  | enumIndexAt =>
    simp only [Accessor.form?, enum_alike (hread rfl 0 (by decide)) (hread rfl 1 (by decide)) g,
      (hread rfl 2 (by decide)).index]
  | enumIndexAtOr =>
    simp only [Accessor.form?, enum_alike (hread rfl 0 (by decide)) (hread rfl 1 (by decide)) g,
      (hread rfl 2 (by decide)).index, (hread rfl 3 (by decide)).fallback]
  | cell => exact cell_alike (hread rfl 0 (by decide)) (hread rfl 1 (by decide)) (hread rfl 2 (by decide)) g _
  | cellOr =>
    have hcell := cell_alike (hread rfl 0 (by decide)) (hread rfl 1 (by decide)) (hread rfl 2 (by decide)) g
    simp only [Accessor.form?, hcell, (hread rfl 3 (by decide)).fallback]
  | cellAt =>
    have hcell := cell_alike (hread rfl 0 (by decide)) (hread rfl 1 (by decide)) (hread rfl 3 (by decide)) g
    simp only [Accessor.form?, hcell, (hread rfl 2 (by decide)).index]
  | cellAtOr =>
    have hcell := cell_alike (hread rfl 0 (by decide)) (hread rfl 1 (by decide)) (hread rfl 3 (by decide)) g
    simp only [Accessor.form?, hcell, (hread rfl 2 (by decide)).index, (hread rfl 4 (by decide)).fallback]
  | cellNamed => exact cellNamed_alike (hread rfl) g
  | cellNamedOr =>
    have hnamed := cellNamed_alike (fun i hi => hread rfl i (by omega)) g
    simp only [Accessor.form?, hnamed, (hread rfl 4 (by decide)).fallback]
  | propertyThrough =>
    exact through_alike (hread rfl 0 (by decide)) (hread rfl 1 (by decide)) (hread rfl 2 (by decide)) g _
  | propertyThroughAt =>
    have hthrough := through_alike (hread rfl 0 (by decide)) (hread rfl 1 (by decide)) (hread rfl 3 (by decide)) g
    simp only [Accessor.form?, hthrough, (hread rfl 2 (by decide)).index]
  | propertyThroughAtOr =>
    have hthrough := through_alike (hread rfl 0 (by decide)) (hread rfl 1 (by decide)) (hread rfl 3 (by decide)) g
    simp only [Accessor.form?, hthrough, (hread rfl 2 (by decide)).index, (hread rfl 4 (by decide)).fallback]
  | reg part pick =>
    have hselect := select_alike pick fun i hi => hread rfl i (by omega)
    simp only [Accessor.form?, (hread rfl 0 (by omega)).node, hselect]
  | irq pick arg =>
    have hselect := select_alike pick fun i hi => hread rfl i (by omega)
    cases arg with
    | none => simp only [Accessor.form?, (hread rfl 0 (by simp)).node, hselect]
    | some arg => simp only [Accessor.form?, (hread rfl 0 (by simp)).node, hselect, (hread rfl arg (by simp)).raw]

end Forms

section Places
variable {g : Graph} {env : Accessor.Surroundings} {deeper : CallExpr → Option Resolved}

/-- Related parts are expanded to the same, whatever expressions they are parts of. -/
def ExpandsAlike (env : Accessor.Surroundings) (R : CallExpr → CallExpr → Prop) : Prop :=
  ∀ {e e' p p' : CallExpr} {i i' : Nat}, e.part? i = some p → e'.part? i' = some p' → R p p' →
    env.expand? e' i' = env.expand? e i

/-- What a part of an expression is expanded to depends on the part alone, neither on the expression that it is a part
of nor on where in a text it stands. -/
def BlindToPlaces (env : Accessor.Surroundings) : Prop := ExpandsAlike env fun p p' => unranged p' = unranged p

/-- Related expressions are alike but for ranges, and their arguments are related, too. -/
structure Kinship (R : CallExpr → CallExpr → Prop) : Prop where
  plain {p p' : CallExpr} (h : R p p') : unranged p' = unranged p
  arg {p p' a a' : CallExpr} {k : Nat} (h : R p p') (ha : (argsOf p)[k]? = some a) (ha' : (argsOf p')[k]? = some a') :
    R a a'

theorem kinship_eq : Kinship Eq where
  plain h := congrArg unranged h.symm
  arg h ha ha' := by
    subst h
    exact Option.some.inj (ha.symm.trans ha')

theorem kinship_unranged : Kinship fun p p' => unranged p' = unranged p where
  plain h := h
  arg {p p' a a' k} h ha ha' := by
    have hargs : (argsOf p').map unranged = (argsOf p).map unranged := by
      rw [← unrangedArgs_eq_map, ← unrangedArgs_eq_map, ← argsOf_unranged, ← argsOf_unranged, h]
    simpa [ha, ha'] using congrArg (·[k]?) hargs

theorem texts_eq_of_unranged {xs ys : List CallExpr} (h : unrangedArgs xs = unrangedArgs ys) :
    CallExpr.texts xs = CallExpr.texts ys := by
  rw [← texts_unranged xs, h, texts_unranged]

theorem length_eq_of_unranged {xs ys : List CallExpr} (h : unrangedArgs xs = unrangedArgs ys) :
    xs.length = ys.length := by
  simpa [unrangedArgs_eq_map] using congrArg List.length h

theorem expand_unranged (d : Defines) {p p' : CallExpr} (h : unranged p' = unranged p) :
    CallExpr.expand? d p' = CallExpr.expand? d p := by
  cases p with
  | leaf kind text range =>
    cases p' with
    | call => cases h
    | leaf kind' text' range' =>
      simp only [unranged, CallExpr.leaf.injEq, and_true] at h
      obtain ⟨rfl, rfl⟩ := h
      cases kind' <;> rfl
  | call name args range =>
    cases p' with
    | leaf => cases h
    | call name' args' range' =>
      simp only [unranged, CallExpr.call.injEq, and_true] at h
      obtain ⟨rfl, hargs⟩ := h
      simp only [CallExpr.expand?, texts_eq_of_unranged hargs, length_eq_of_unranged hargs]

theorem defines_blind (d : Defines) : BlindToPlaces d := by
  intro e e' p p' i i' hp hp' h
  simp only [Accessor.Surroundings.ofDefines, hp, hp', Option.bind_some, expand_unranged d h]

theorem instanceForm_congr {name : String} {args args' : List CallExpr}
    (h : unrangedArgs args' = unrangedArgs args) :
    Accessor.instanceForm? name args' = Accessor.instanceForm? name args := by
  rw [Accessor.instanceForm?, Accessor.instanceForm?, texts_eq_of_unranged h]

theorem PartAt.part {e p : CallExpr} {i j : Nat} {parent : Option Nat} (h : PartAt e i parent j p) :
    e.part? i = some p := by
  rw [CallExpr.part?, h.get, Option.map_some]

/-- The part means the same as every part that is related to it, whatever expressions they are parts of. -/
def MeansAlike (g : Graph) (env : Accessor.Surroundings) (deeper : CallExpr → Option Resolved)
    (R : CallExpr → CallExpr → Prop) (p : CallExpr) : Prop :=
  ∀ ⦃e e' p' : CallExpr⦄ ⦃i i' j j' : Nat⦄ ⦃parent parent' : Option Nat⦄, PartAt e i parent j p →
    PartAt e' i' parent' j' p' → R p p' →
    Accessor.resolveWith g env deeper e' i' p' = Accessor.resolveWith g env deeper e i p

variable {R : CallExpr → CallExpr → Prop}

/-- The arguments of related calls are alike if each of them means the same as what is related to it. -/
theorem args_alike (hR : Kinship R) {e e' : CallExpr} {i i' j j' : Nat} {parent parent' : Option Nat}
    {name name' : String} {args args' : List CallExpr} {range range' : Range}
    (h : PartAt e i parent j (.call name args range)) (h' : PartAt e' i' parent' j' (.call name' args' range'))
    (hkin : R (.call name args range) (.call name' args' range')) (hsame : unrangedArgs args' = unrangedArgs args)
    (hargs : ∀ a ∈ args, MeansAlike g env deeper R a) (k : Nat) :
    AlikeAt ⟨args', fun k => Accessor.resolveArg g env deeper e' (i' + 1) args' k⟩
      ⟨args, fun k => Accessor.resolveArg g env deeper e (i + 1) args k⟩ k := by
  refine ⟨by simpa [unrangedArgs_eq_map] using congrArg (·[k]?) hsame, ?_⟩
  cases ha : args[k]? with
  | none =>
    have ha' : args'[k]? = none := by
      rw [List.getElem?_eq_none_iff] at ha ⊢
      rwa [length_eq_of_unranged hsame]
    exact (resolveArg_eq_none g env deeper e' ha').trans (resolveArg_eq_none g env deeper e ha).symm
  | some a =>
    obtain ⟨a', ha', -⟩ := exists_arg (by simpa [unrangedArgs_eq_map] using hsame) ha
    obtain ⟨m, hm⟩ := exists_argNumber (i + 1) ha
    obtain ⟨m', hm'⟩ := exists_argNumber (i' + 1) ha'
    have hmeans := hargs a (List.mem_of_getElem? ha) (h.arg ha hm) (h'.arg ha' hm') (hR.arg hkin ha ha')
    exact (resolveArg_eq g env deeper e' ha' hm').trans (hmeans.trans (resolveArg_eq g env deeper e ha hm).symm)

mutual

/-- The meaning of a part depends on the part alone if expansions do. -/
theorem means_alike (hR : Kinship R) (henv : ExpandsAlike env R) : (p : CallExpr) → MeansAlike g env deeper R p
  | .leaf kind text range => by
    intro e e' p' i i' j j' parent parent' h h' hkin
    have hexpand := henv h.part h'.part hkin
    have hplain := hR.plain hkin
    cases p' with
    | call => cases hplain
    | leaf kind' text' range' =>
      simp only [unranged, CallExpr.leaf.injEq, and_true] at hplain
      obtain ⟨rfl, rfl⟩ := hplain
      cases kind' with
      | ident => simp only [Accessor.resolveWith, hexpand]
      | number | str | raw => simp only [Accessor.resolveWith]
  | .call name args range => by
    intro e e' p' i i' j j' parent parent' h h' hkin
    have hexpand := henv h.part h'.part hkin
    have hplain := hR.plain hkin
    cases p' with
    | leaf => cases hplain
    | call name' args' range' =>
      simp only [unranged, CallExpr.call.injEq, and_true] at hplain
      obtain ⟨rfl, hsame⟩ := hplain
      have halike := args_alike hR h h' hkin hsame (args_mean_alike hR henv args)
      simp only [Accessor.resolveWith, Accessor.call?, length_eq_of_unranged hsame, instanceForm_congr hsame, hexpand]
      cases Form.ofCall? name' args.length with
      | none => rfl
      | some form => exact form_congr form fun k _ => halike k

theorem args_mean_alike (hR : Kinship R) (henv : ExpandsAlike env R) :
    (args : List CallExpr) → ∀ a ∈ args, MeansAlike g env deeper R a
  | [] => nofun
  | a :: as => List.forall_mem_cons.mpr ⟨means_alike hR henv a, args_mean_alike hR henv as⟩

end

/-- An expression means the same wherever in a text it stands. -/
theorem resolveWithin_congr (henv : BlindToPlaces env) {e e' : CallExpr} (h : unranged e' = unranged e) (n : Nat) :
    Accessor.resolveWithin g env n e' = Accessor.resolveWithin g env n e := by
  cases n with
  | zero => rfl
  | succ n => exact means_alike kinship_unranged henv e .outermost .outermost h

end Places

section Given
variable {g : Graph} {env : Accessor.Surroundings} {depth : Nat} {xs ys : List CallExpr} {i : Nat}

def given (g : Graph) (env : Accessor.Surroundings) (depth : Nat) (args : List CallExpr) : Accessor.Args :=
  ⟨args, fun i => args[i]?.bind (Accessor.resolve? g env depth)⟩

/-- Words are read from the arguments as they stand. -/
theorem given_ident {word : CallExpr} {ident : String} (hword : xs[i]? = some word)
    (hident : identText? word = some ident) : (given g env depth xs).ident? i = some ident := by
  have hexpr : (given g env depth xs).exprs[i]? = some word := hword
  rw [ident_eq, hexpr, Option.bind_some, hident]

/-- Lists that share an argument give it alike. -/
theorem given_alike (h : xs[i]? = ys[i]?) : AlikeAt (given g env depth xs) (given g env depth ys) i :=
  ⟨congrArg (·.map unranged) h, congrArg (·.bind (Accessor.resolve? g env depth)) h⟩

/-- More arguments than a form reads change nothing. -/
theorem form_append {form : Form} (hform : formArity form = some xs.length) (ys : List CallExpr) :
    Accessor.form? g env (given g env depth (xs ++ ys)) form = Accessor.form? g env (given g env depth xs) form := by
  apply form_congr
  intro i hi
  exact given_alike (List.getElem?_append_left (hi _ hform))

end Given

section Calls
variable {g : Graph} {env : Accessor.Environment} {depth : Nat} {xs : List CallExpr} {i : Nat}

/-- A part of an expression means what it means by itself. -/
theorem resolveWith_part {e p : CallExpr} {j : Nat} {parent : Option Nat} (h : PartAt e i parent j p) :
    Accessor.resolveWith g env (Accessor.resolveWithin g env depth) e i p = Accessor.resolve? g env depth p := by
  have henv : ExpandsAlike env Eq := by
    rintro e e' p p' i i' hp hp' rfl
    exact env.expand_part hp' hp
  exact means_alike kinship_eq henv p .outermost h rfl

/-- A call of the vocabulary means what its form makes of the arguments, each by itself. -/
theorem resolve_call {name : String} {form : Form} (hform : Form.ofCall? name xs.length = some form)
    (range : Range) :
    Accessor.resolve? g env depth (.call name xs range) = Accessor.form? g env (given g env depth xs) form := by
  have hgiven : (fun k => Accessor.resolveArg g env (Accessor.resolveWithin g env depth) (.call name xs range) 1 xs k) =
      (given g env depth xs).resolve? := by
    funext k
    cases hx : xs[k]? with
    | none => simp only [given, hx, Option.bind_none, resolveArg_eq_none g _ _ _ hx]
    | some x =>
      obtain ⟨m, hm⟩ := exists_argNumber 1 hx
      have hat : PartAt (.call name xs range) m (some 0) k x := .arg .outermost hx hm
      simp only [given, hx, Option.bind_some, resolveArg_eq g _ _ _ hx hm, resolveWith_part hat]
  rw [Accessor.resolve?, Accessor.resolveWithin, Accessor.resolveWith, hgiven, Accessor.call?]
  simp only [hform]
  rfl

end Calls

end Devicetree.Proofs
