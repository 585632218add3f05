import Devicetree.Proofs.CallText

namespace Devicetree.Proofs

/-- Every name is an identifier and every leaf is one token. -/
inductive Legible : CallExpr → Prop
  | leaf {kind : LeafKind} {text : String} (range : Range) (token : Token.Kind)
      (isLeaf : CallExpr.leafKind? token = some kind) (formed : Formed token text.toList) :
      Legible (.leaf kind text range)
  | call {name : String} {args : List CallExpr} (range : Range) (formed : Formed .ident name.toList)
      (each : ∀ a ∈ args, Legible a) : Legible (.call name args range)

mutual

theorem text_unranged : (e : CallExpr) → (unranged e).text = e.text
  | .leaf _ _ _ => rfl
  | .call _ args _ => by rw [unranged, CallExpr.text, CallExpr.text, texts_unranged args]

theorem texts_unranged : (es : List CallExpr) → CallExpr.texts (unrangedArgs es) = CallExpr.texts es
  | [] => rfl
  | a :: as => by rw [unrangedArgs, CallExpr.texts, CallExpr.texts, text_unranged a, texts_unranged as]

end

theorem unrangedArgs_eq_map (es : List CallExpr) : unrangedArgs es = es.map unranged := by
  induction es with
  | nil => rfl
  | cons a as ih => rw [unrangedArgs, ih, List.map_cons]

/-- What can be read again is read from its text. -/
theorem Rewrites.parse {e : CallExpr} {ts : List Token} (h : Rewrites (.expr e) ts) :
    ∃ e', CallExpr.parse? e.text = some e' ∧ unranged e' = unranged e := by
  obtain ⟨ms, hms, hagain⟩ := h
  obtain ⟨e', he', hplain⟩ := hagain [] []
  have hscan : Lexes e.text.toList ms := by simpa [textOf] using hms.lexes .nil .nil
  have hall : CallExpr.parseTokens? e.text.toList (Token.tokenize e.text) = some (e', []) := by
    rw [hscan.tokenize, parseTokens_iff]
    exact ⟨tokensOf 0 ms, by simp, by simpa [textOf, Text.byteLength] using he', by simp [Unopened]⟩
  exact ⟨e', by rw [CallExpr.parse?, hall]; rfl, hplain⟩

/-- Any identifier is the name of calls. -/
theorem Brackets.of_name {name : String} (h : Formed .ident name.toList) :
    Brackets ⟨.ident, name, 0⟩ ⟨.lparen, "(", 0⟩ ⟨.rparen, ")", 0⟩ := by
  refine ⟨rfl, rfl, rfl, ?_⟩
  intro u hu
  simp only [List.mem_cons, List.not_mem_nil, or_false] at hu
  rcases hu with rfl | rfl | rfl
  · exact h
  · simpa using Formed.lparen
  · simpa using Formed.rparen

/-- Some tokens spell the expression but for ranges, and are read again from its text. -/
def Spellable (e : CallExpr) : Prop :=
  ∃ e' ts, ts ≠ [] ∧ Rewrites (.expr e') ts ∧ unranged e' = unranged e

theorem Spellable.args {es : List CallExpr} (hne : es ≠ []) (h : ∀ e ∈ es, Spellable e) (close : Token) :
    ∃ es' ts, ts ≠ [] ∧ es' ≠ [] ∧ Rewrites (.args close es') ts ∧ unrangedArgs es' = unrangedArgs es := by
  induction es with
  | nil => contradiction
  | cons e es ih =>
    obtain ⟨e', ts, hts, hrewrites, hplain⟩ := h e (by simp)
    by_cases hes : es = []
    · subst hes
      exact ⟨[e'], ts, hts, by simp, hrewrites.whole.last, by simp [unrangedArgs, hplain]⟩
    · obtain ⟨es', us, -, hes', hrest, hplains⟩ := ih hes fun a ha => h a (by simp [ha])
      let comma : Token := ⟨.comma, ",", 0⟩
      have hcomma : Formed comma.kind comma.text.toList := by simpa [comma] using Formed.comma
      exact ⟨e' :: es', ts ++ comma :: us, by simp, by simp, .more hes' hrewrites.whole hrest hcomma rfl,
        by simp [unrangedArgs, hplain, hplains]⟩

theorem Legible.spellable {e : CallExpr} (h : Legible e) : Spellable e := by
  induction h with
  | @leaf kind text range token hleaf hformed =>
    let t : Token := ⟨token, text, 0⟩
    exact ⟨_, [t], by simp, Rewrites.leaf (t := t) hleaf hformed, rfl⟩
  | @call name args range hformed _ ih =>
    have hbrackets := Brackets.of_name hformed
    by_cases hargs : args = []
    · subst hargs
      exact ⟨_, _, by simp, .empty hbrackets, rfl⟩
    · obtain ⟨args', ts, hts, -, hrewrites, hplain⟩ := Spellable.args hargs ih ⟨.rparen, ")", 0⟩
      exact ⟨_, _, by simp, .call hbrackets hts hrewrites, by simp [unranged, hplain]⟩

/-- The text of what some tokens spell is read as that. -/
theorem Spellable.parse_text {e : CallExpr} (h : Spellable e) :
    ∃ e', CallExpr.parse? e.text = some e' ∧ unranged e' = unranged e := by
  obtain ⟨r, ts, -, hrewrites, hplain⟩ := h
  obtain ⟨e', hparse, hplain'⟩ := hrewrites.parse
  refine ⟨e', ?_, hplain'.trans hplain⟩
  rw [← text_unranged e, ← hplain, text_unranged, hparse]

/-- The text of a legible expression is read as the expression. -/
theorem Legible.parse_text {e : CallExpr} (h : Legible e) :
    ∃ e', CallExpr.parse? e.text = some e' ∧ unranged e' = unranged e :=
  h.spellable.parse_text

end Devicetree.Proofs
