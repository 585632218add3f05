import Devicetree.Proofs.AccessorArguments
import Devicetree.Proofs.SpecifierGroups

namespace Devicetree.Proofs

/-- What a shorthand is short for: the accessor with the same suffix of the instance itself. -/
def longForm (suffix : String) (inst : CallExpr) (others : List CallExpr) : CallExpr :=
  .call ("DT_" ++ suffix) (.call "DT_DRV_INST" [inst] ⟨0, 0⟩ :: others) ⟨0, 0⟩

section Names
variable {suffix : String}

theorem formed_long (h : Formed .ident ("DT_INST_" ++ suffix).toList) : Formed .ident ("DT_" ++ suffix).toList := by
  have hshort : ("DT_INST_" ++ suffix).toList = 'D' :: ("T_INST_".toList ++ suffix.toList) := by simp
  have hlong : ("DT_" ++ suffix).toList = 'D' :: ("T_".toList ++ suffix.toList) := by simp
  rw [hshort] at h
  rw [hlong]
  cases h with
  | ident hstart hrest =>
    refine .ident hstart ?_
    intro c hc
    rcases List.mem_append.mp hc with hc | hc
    · have hmark : "T_".toList.all Token.isIdentRest = true := by decide
      exact List.all_eq_true.mp hmark c hc
    · exact hrest c (List.mem_append_right _ hc)

/-- No name of the vocabulary looks like a shorthand. -/
theorem ofCall_shorthand (suffix : String) (arity : Nat) : Form.ofCall? ("DT_INST_" ++ suffix) arity = none := by
  have hnames : ∀ e ∈ Form.vocabulary, ¬ "DT_INST_".toList <+: e.1.1.toList := by decide +kernel
  have hprefix : "DT_INST_".toList <+: ("DT_INST_" ++ suffix).toList := by simp
  have hpath : "DT_INST_" ++ suffix ≠ "DT_PATH" := by
    intro heq
    rw [heq] at hprefix
    revert hprefix
    decide
  have hstring : Text.dropFront? "DT_STRING_".toList ("DT_INST_" ++ suffix).toList = none := by
    rw [Option.eq_none_iff_forall_ne_some]
    intro rest hrest
    have hsame := List.prefix_of_prefix_length_le hprefix ⟨rest, (dropFront?_eq_some_iff.mp hrest).symm⟩ (by decide)
    revert hsame
    decide
  rw [Form.ofCall?, if_neg hpath, hstring, Option.map_eq_none_iff, List.find?_eq_none]
  intro e he heq
  have hname : e.1.1 = "DT_INST_" ++ suffix := congrArg Prod.fst (of_decide_eq_true heq)
  exact hnames e he (hname ▸ hprefix)

theorem instanceForm_eq (suffix : String) (inst : CallExpr) (others : List CallExpr) :
    Accessor.instanceForm? ("DT_INST_" ++ suffix) (inst :: others) =
      CallExpr.parse? (longForm suffix inst others).text := by
  have hrest : Text.dropFront? "DT_INST_".toList ("DT_INST_" ++ suffix).toList = some suffix.toList :=
    dropFront?_eq_some_iff.mpr String.toList_append
  have hinst : "DT_DRV_INST(" ++ inst.text ++ ")" = (CallExpr.call "DT_DRV_INST" [inst] ⟨0, 0⟩).text := by
    simp [CallExpr.text, CallExpr.texts, String.append_assoc]
  rw [Accessor.instanceForm?, hrest]
  simp only [CallExpr.texts, hinst]
  simp [longForm, CallExpr.text, CallExpr.texts]

end Names

section Rewriting
variable {source : String} {ls : List Lexeme} {ts us : List Token} {close next : Token} {e inst : CallExpr}
  {es others : List CallExpr} {name suffix : String}

/-- Arguments that can be read again can be read again in a call. -/
theorem Rewrites.named (h : Rewrites (.args ⟨.rparen, ")", 0⟩ es) ts) (hne : ts ≠ [])
    (hname : Formed .ident name.toList) (range : Range) : Spellable (.call name es range) :=
  ⟨_, _, by simp, .call (.of_name hname) hne h, rfl⟩

/-- It does not matter what ends an argument. -/
theorem Rewrites.before (h : Rewrites (.arg next e) ts) (close : Token) : Rewrites (.arg close e) ts := h

/-- Only an empty argument has no tokens. -/
theorem Spells.ne_nil (h : Spells source.toList (.arg next e) ts) (htext : e.text ≠ "") : ts ≠ [] := by
  rintro rfl
  cases h with
  | whole h => cases h
  | raw => exact htext (text_of_unranged (rawLeaf_nil source.toList next))

/-- The first of several arguments can be read again by itself, and the others can be read again after any other
expression. -/
theorem Spells.first_argument (hs : Tidy source) (hl : Lexes source.toList ls)
    (h : Spells source.toList (.args close (inst :: others)) ts) (hin : ts <:+: tokensOf 0 ls) :
    (∃ us, Rewrites (.args close [inst]) us ∧ (inst.text ≠ "" → us ≠ [])) ∧
      ∀ e us, us ≠ [] → Rewrites (.expr e) us → ∃ vs, vs ≠ [] ∧ Rewrites (.args close (e :: others)) vs := by
  cases h with
  | last h =>
    exact ⟨⟨ts, (h.rewrites hs hl hin).last, h.ne_nil⟩, fun e us hne he => ⟨us, hne, he.whole.last⟩⟩
  | @more ts us _ comma _ _ h hcomma hus =>
    have hfirst : ts <:+: ts ++ comma :: us := (List.prefix_append _ _).isInfix
    have hrest : us <:+: ts ++ comma :: us := ⟨ts ++ [comma], [], by simp⟩
    refine ⟨⟨ts, ?_, h.ne_nil⟩, ?_⟩
    · exact ((h.rewrites hs hl (hfirst.trans hin)).before close).last
    · intro e vs hne he
      have hformed := hs.token hl (hin.subset (by simp : comma ∈ ts ++ comma :: us))
      exact ⟨vs ++ comma :: us, by simp,
        .more hus.args_ne_nil he.whole (hus.rewrites hs hl (hrest.trans hin)) hformed hcomma⟩

/-- The long form of a shorthand in a tidy source can be read again. -/
theorem Spells.long_form (hs : Tidy source) (hl : Lexes source.toList ls) {range : Range}
    (h : Spells source.toList (.expr (.call ("DT_INST_" ++ suffix) (inst :: others) range)) ts)
    (hin : ts <:+: tokensOf 0 ls) (hinst : inst.text ≠ "") :
    Spellable (longForm suffix inst others) := by
  generalize hname : "DT_INST_" ++ suffix = name at h
  cases h with
  | @call us t left right _ ht _ hne hargs _ =>
    have hinner : us <:+: t :: left :: us ++ [right] := ⟨[t, left], [right], rfl⟩
    have hformed := hs.token hl (hin.subset (by simp : t ∈ t :: left :: us ++ [right]))
    rw [ht, ← hname] at hformed
    obtain ⟨⟨vs, hvs, hne⟩, hothers⟩ := hargs.first_argument hs hl (hinner.trans hin)
    have hdriver : isIdentifier "DT_DRV_INST" = true := by decide
    obtain ⟨driver, ws, hws, hrewrites, hplain⟩ := hvs.named (hne hinst) (formed_of_identifier hdriver) ⟨0, 0⟩
    obtain ⟨xs, hxs, hall⟩ := hothers driver ws hws hrewrites
    obtain ⟨long, ys, hys, hlong, hsame⟩ := hall.named hxs (formed_long hformed) ⟨0, 0⟩
    exact ⟨long, ys, hys, hlong, by rw [hsame, longForm, unranged, unranged, unrangedArgs, unrangedArgs, hplain]⟩

end Rewriting

section Resolution
variable {g : Graph} {d : Defines} {suffix : String} {inst : CallExpr} {others : List CallExpr}

/-- A shorthand that is no define means what the text of its long form means one level deeper. -/
theorem resolve_shorthand (hfunction : d.function? ("DT_INST_" ++ suffix) = none) (range : Range) (m : Nat) :
    Accessor.resolve? g d (m + 1) (.call ("DT_INST_" ++ suffix) (inst :: others) range) =
      Accessor.resolveText? g d m (longForm suffix inst others).text := by
  have hexpand : (Accessor.Surroundings.ofDefines d).expand?
      (.call ("DT_INST_" ++ suffix) (inst :: others) range) 0 = none := by
    simp [Accessor.Surroundings.ofDefines, CallExpr.expand?, hfunction]
  rw [Accessor.resolve?, Accessor.resolveWithin, Accessor.resolveWith, Accessor.call?]
  simp only [ofCall_shorthand, instanceForm_eq, hexpand]
  rw [Option.bind_none, Option.orElse_eq_orElse, Option.orElse_eq_or, Option.or_none]
  rfl

end Resolution

/-- A shorthand for an instance that no define has the name of, anywhere in a tidy source, means with one more
expansion what the accessor of the instance means, given as an expression or as a text. -/
theorem shorthand_resolves {source : String} {e : CallExpr} {i : Nat} {q : CallExpr.Part} (hs : Tidy source)
    (h : CallExpr.parse? source = some e) (hq : e.parts[i]? = some q) {suffix : String} {inst : CallExpr}
    {others : List CallExpr} {range : Range}
    (hcall : q.expr = .call ("DT_INST_" ++ suffix) (inst :: others) range) (hinst : inst.text ≠ "") {d : Defines}
    (hfunction : d.function? ("DT_INST_" ++ suffix) = none) (g : Graph) (m : Nat) :
    Accessor.resolve? g d (m + 1) q.expr = Accessor.resolveText? g d m (longForm suffix inst others).text ∧
      ∀ long, unranged long = unranged (longForm suffix inst others) →
        Accessor.resolve? g d (m + 1) q.expr = Accessor.resolve? g d m long := by
  obtain ⟨ls, hl⟩ := exists_lexes source.toList
  obtain ⟨⟨e, rest⟩, hread, rfl⟩ := Option.map_eq_some_iff.mp h
  obtain ⟨ts, htokens, hspells, -⟩ := parseTokens_iff.mp hread
  rw [hl.tokenize] at htokens
  have hprefix : ts <:+: tokensOf 0 ls := ⟨[], rest, by simp [htokens]⟩
  have hlong : Spellable (longForm suffix inst others) := by
    rcases hspells.part (partAt_of_get hq) with ⟨us, hus, hpart⟩ | ⟨text, range, hraw⟩
    · exact (hcall ▸ hpart).long_form hs hl (hus.trans hprefix) hinst
    · rw [hcall] at hraw
      cases hraw
  have htext : Accessor.resolve? g d (m + 1) q.expr =
      Accessor.resolveText? g d m (longForm suffix inst others).text := by
    rw [hcall, resolve_shorthand hfunction]
  refine ⟨htext, ?_⟩
  intro long hsame
  obtain ⟨e', hparse, hplain⟩ := hlong.parse_text
  rw [htext, Accessor.resolveText?, hparse]
  exact resolveWithin_congr (defines_blind d) (hplain.trans hsame.symm) (m + 1)

def driven : List Fragment :=
  [⟨⟨0⟩, .root []
    [.child { name := .parse "led0" } [.property { name := "compatible", values := [.str "vnd,led"] }],
      .child { name := .parse "led1" }
        [.property { name := "compatible", values := [.str "vnd,led"] },
          .property { name := "pins", values := [.cells [number 5, number 7]] }]] {}⟩]

def drivenDefines : Defines := Defines.define {} "DT_DRV_COMPAT" "vnd_led"

def drivenText : String := "F(DT_INST_PROP_BY_IDX( 2 -\t1 ,\n pins , 1 ))"

def drivenOthers : List CallExpr := [.leaf .ident "pins" ⟨32, 36⟩, .leaf .number "1" ⟨39, 40⟩]

def drivenCall : CallExpr :=
  .call ("DT_INST_" ++ "PROP_BY_IDX") (.leaf .raw "2 -\t1" ⟨23, 28⟩ :: drivenOthers) ⟨2, 42⟩

/-- At every depth the shorthand means the same as its long form one level above, and its value is the second pin of
the second instance. -/
theorem shorthand_resolves_driven :
    ∃ g, Build.build {} driven (fun _ => false) = .ok g ∧ Tidy drivenText ∧
      CallExpr.parse? drivenText = some (.call "F" [drivenCall] ⟨0, 43⟩) ∧
      drivenDefines.function? ("DT_INST_" ++ "PROP_BY_IDX") = none ∧
      (∀ m, Accessor.resolve? g drivenDefines (m + 1) drivenCall =
        Accessor.resolveText? g drivenDefines m "DT_PROP_BY_IDX(DT_DRV_INST(2 -\t1), pins, 1)") ∧
      (Accessor.resolve? g drivenDefines 1 drivenCall).bind Resolved.int? = some 7 := by
  obtain ⟨g, h, hvalue⟩ : ∃ g, Build.build {} driven (fun _ => false) = .ok g ∧
      (Accessor.resolveText? g drivenDefines 0 "DT_PROP_BY_IDX(DT_DRV_INST(2 -\t1), pins, 1)").bind Resolved.int? =
        some 7 := exists_built (by decide +kernel)
  have htidy : Tidy drivenText := by decide +kernel
  have hparse : CallExpr.parse? drivenText = some (.call "F" [drivenCall] ⟨0, 43⟩) := by decide +kernel
  have hfunction : drivenDefines.function? ("DT_INST_" ++ "PROP_BY_IDX") = none := by decide
  have htext : (longForm "PROP_BY_IDX" (.leaf .raw "2 -\t1" ⟨23, 28⟩) drivenOthers).text =
      "DT_PROP_BY_IDX(DT_DRV_INST(2 -\t1), pins, 1)" := by decide
  have hsame : ∀ m, Accessor.resolve? g drivenDefines (m + 1) drivenCall =
      Accessor.resolveText? g drivenDefines m "DT_PROP_BY_IDX(DT_DRV_INST(2 -\t1), pins, 1)" := fun m =>
    htext ▸ (shorthand_resolves (i := 1) htidy hparse rfl rfl (by decide) hfunction g m).1
  exact ⟨g, h, htidy, hparse, hfunction, hsame, hsame 0 ▸ hvalue⟩

end Devicetree.Proofs
