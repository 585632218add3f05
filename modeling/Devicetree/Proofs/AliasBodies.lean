import Devicetree.Proofs.CallGrammar
import Devicetree.Proofs.DefineNesting
import Devicetree.Proofs.NodeIdentifiers

namespace Devicetree.Proofs

/-- A plain define, named by an identifier as defines are, that can only be resolved by expanding it. -/
structure Alias (g : Graph) (d : Defines) (name body : String) : Prop where
  named : isIdentifier name = true
  defined : d.object? name = some body
  unplaced : Accessor.nodeToken? g name = none
  unvalued : d.evaluateText body = none

/-- The tokens of the body begin with those of the expression, and the others are left over. -/
def BeginsWith (body : String) (e : CallExpr) (left : List Token) : Prop :=
  ∃ ts, Token.tokenize body = ts ++ left ∧ Spells body.toList (.expr e) ts ∧ Unopened ts left

/-- A chain of aliases, each but the last with another one at the front of its body, leads to the expression at the
front of the last body. The lists are the tokens left over of each body. -/
inductive Unfolds (g : Graph) (d : Defines) : String → List (List Token) → CallExpr → Prop
  | last {name body : String} {e : CallExpr} {left : List Token} (h : Alias g d name body)
      (hbegins : BeginsWith body e left) : Unfolds g d name [left] e
  | link {name body next : String} {range : Range} {e : CallExpr} {left : List Token} {lefts : List (List Token)}
      (h : Alias g d name body) (hbegins : BeginsWith body (.leaf .ident next range) left)
      (hnext : Unfolds g d next lefts e) : Unfolds g d name (left :: lefts) e

def Unaliased (g : Graph) (d : Defines) (e : CallExpr) : Prop :=
  ∀ name range body, e = .leaf .ident name range → ¬ Alias g d name body

section Names
variable {name : String}

theorem tokenize_name (h : isIdentifier name = true) :
    ∃ t, Token.tokenize name = [t] ∧ t.kind = .ident ∧ t.text = name := by
  have hformed := formed_of_identifier h
  have hfollows : Follows .ident name.toList [] := hformed.follows_apart (by simp) (by simp [Apart])
  have hscan : Lexes name.toList [⟨.ident, name.toList⟩] := by simpa using hformed.lexes hfollows .nil
  exact ⟨⟨.ident, name, 0⟩, by rw [hscan.tokenize]; simp [tokensOf, lay, Token.Kind.isTrivia], rfl, rfl⟩

theorem expr_of_name (h : isIdentifier name = true) : Expr.parse? name = some (.ident name) := by
  obtain ⟨t, ht, hkind, rfl⟩ := tokenize_name h
  have hread : Derives .signed (Token.tokenize t.text) (.ident t.text) := by
    rw [ht]
    exact .bare (.ident hkind)
  exact ofTokens_iff.mpr hread.conditional

theorem call_of_name (h : isIdentifier name = true) :
    ∃ range, CallExpr.parse? name = some (.leaf .ident name range) := by
  obtain ⟨t, ht, hkind, rfl⟩ := tokenize_name h
  have hread : CallExpr.parseTokens? t.text.toList [t] = some (.leaf .ident t.text ⟨t.offset, t.stop⟩, []) :=
    parseTokens_iff.mpr ⟨[t], rfl, .leaf (by rw [hkind]; rfl), by simp [Unopened]⟩
  exact ⟨_, by rw [CallExpr.parse?, ht, hread]; rfl⟩

end Names

section Resolution
variable {g : Graph} {d : Defines} {name body : String} {e : CallExpr} {left : List Token}
  {lefts : List (List Token)} {depth n : Nat} {r : Resolved}

theorem begins_iff : BeginsWith body e left ↔
    CallExpr.parseTokens? body.toList (Token.tokenize body) = some (e, left) := parseTokens_iff.symm

/-- The front of a body can be read as an expression in one way only. -/
theorem parse_iff_begins : CallExpr.parse? body = some e ↔ ∃ left, BeginsWith body e left := by
  simp [CallExpr.parse?, begins_iff]

/-- The name of an alias is no number either: its body has one more lookup to nest. -/
theorem Alias.name_unvalued (h : Alias g d name body) : d.evaluateText name = none := by
  rw [Defines.evaluateText, expr_of_name h.named, Option.bind_some, Option.eq_none_iff_forall_ne_some]
  intro v hv
  obtain ⟨D, hnesting⟩ := value_iff_derivation.mp hv
  cases D with
  | define hbody hparse E =>
    obtain rfl := Option.some.inj (h.defined.symm.trans hbody)
    have hvalue : d.evaluateText body = some v := by
      rw [Defines.evaluateText, hparse]
      exact E.value (Nat.le_of_succ_le hnesting)
    rw [h.unvalued] at hvalue
    cases hvalue

/-- An alias means what its body starts with, one level of expansion deeper. -/
theorem Alias.step (h : Alias g d name body) (range : Range) :
    Accessor.resolveWithin g d (n + 1) (.leaf .ident name range) =
      (CallExpr.parse? body).bind (Accessor.resolveWithin g d n) := by
  have hunvalued : (Accessor.Surroundings.ofDefines d).evaluate? name = none := h.name_unvalued
  have hexpand : (Accessor.Surroundings.ofDefines d).expand? (.leaf .ident name range) 0 = CallExpr.parse? body := by
    simp [Accessor.Surroundings.ofDefines, CallExpr.expand?, h.defined]
  simp [Accessor.resolveWithin, Accessor.resolveWith, h.unplaced, hunvalued, hexpand]

theorem Alias.resolve_text (h : Alias g d name body) :
    Accessor.resolveText? g d depth name = (CallExpr.parse? body).bind (Accessor.resolveWithin g d depth) := by
  obtain ⟨range, hread⟩ := call_of_name h.named
  rw [Accessor.resolveText?, hread, Option.bind_some, Accessor.resolve?, h.step]

theorem Alias.step_begins (h : Alias g d name body) (hbegins : BeginsWith body e left) (range : Range) :
    Accessor.resolveWithin g d (n + 1) (.leaf .ident name range) = Accessor.resolveWithin g d n e := by
  rw [h.step, parse_iff_begins.mpr ⟨left, hbegins⟩, Option.bind_some]

/-- A chain of aliases means what it leads to, less deep by its length. -/
theorem Unfolds.resolve (h : Unfolds g d name lefts e) (range : Range) :
    Accessor.resolveWithin g d (n + lefts.length) (.leaf .ident name range) = Accessor.resolveWithin g d n e := by
  induction h generalizing range with
  | last h hbegins => exact h.step_begins hbegins range
  | link h hbegins _ ih => exact (h.step_begins hbegins range).trans (ih _)

/-- Whatever an alias means comes from the end of a chain. -/
theorem Alias.exists_unfolds (h : Alias g d name body) {range : Range}
    (hr : Accessor.resolveWithin g d n (.leaf .ident name range) = some r) :
    ∃ m lefts e, n = m + lefts.length ∧ Unfolds g d name lefts e ∧ Unaliased g d e ∧
      Accessor.resolveWithin g d m e = some r := by
  induction n generalizing name body range with
  | zero => cases hr
  | succ n ih =>
    rw [h.step] at hr
    obtain ⟨e, hread, hr⟩ := Option.bind_eq_some_iff.mp hr
    obtain ⟨left, hbegins⟩ := parse_iff_begins.mp hread
    by_cases hend : Unaliased g d e
    · exact ⟨n, [left], e, rfl, .last h hbegins, hend, hr⟩
    · simp only [Unaliased, not_forall, not_not] at hend
      obtain ⟨next, range', body', rfl, hnext⟩ := hend
      obtain ⟨m, lefts, e, rfl, hchain, hend, hr⟩ := ih hnext hr
      exact ⟨m, left :: lefts, e, rfl, .link h hbegins hchain, hend, hr⟩

theorem BeginsWith.unique {e' : CallExpr} {left' : List Token} (h : BeginsWith body e left)
    (h' : BeginsWith body e' left') : e = e' ∧ left = left' := by
  have hsame := (begins_iff.mp h).symm.trans (begins_iff.mp h')
  exact Prod.mk.inj (Option.some.inj hsame)

/-- An alias has a meaning from a body with tokens left over exactly if the expression in front of these has one. -/
theorem Alias.consumed_iff (h : Alias g d name body) (depth : Nat) :
    (∀ r, Accessor.resolveText? g d depth name = some r → ∃ e, BeginsWith body e []) ↔
      ∀ n e left, depth = n + 1 → BeginsWith body e left → left ≠ [] → Accessor.resolve? g d n e = none := by
  rw [h.resolve_text]
  constructor
  · rintro hconsumed n e left rfl hbegins hne
    rw [Option.eq_none_iff_forall_ne_some]
    intro r hr
    obtain ⟨e', hall⟩ := hconsumed r (by rw [parse_iff_begins.mpr ⟨left, hbegins⟩]; exact hr)
    exact hne (hbegins.unique hall).2
  · intro hnone r hr
    obtain ⟨e, hread, hr⟩ := Option.bind_eq_some_iff.mp hr
    obtain ⟨left, hbegins⟩ := parse_iff_begins.mp hread
    by_cases hleft : left = []
    · exact ⟨e, hleft ▸ hbegins⟩
    · cases depth with
      | zero => cases hr
      | succ n =>
        have hsome : Accessor.resolve? g d n e = some r := hr
        rw [hnone n e left rfl hbegins hleft] at hsome
        cases hsome

end Resolution

/-- An alias means what the expression at the front of its body means, one level of expansion less deep, whatever is
left over of the body. So it means what the chain of aliases that starts with it leads to. -/
theorem alias_means {g : Graph} {d : Defines} {name body : String} (h : Alias g d name body) :
    (∀ n lefts e, Unfolds g d name lefts e →
      Accessor.resolveText? g d (n + lefts.length) name = Accessor.resolve? g d n e) ∧
    (∀ depth r, Accessor.resolveText? g d depth name = some r ↔ ∃ n lefts e, depth = n + lefts.length ∧
      Unfolds g d name lefts e ∧ Unaliased g d e ∧ Accessor.resolve? g d n e = some r) ∧
    (∀ depth, (∀ r, Accessor.resolveText? g d depth name = some r → ∃ e, BeginsWith body e []) ↔
      ∀ n e left, depth = n + 1 → BeginsWith body e left → left ≠ [] → Accessor.resolve? g d n e = none) := by
  have hchain : ∀ n lefts e, Unfolds g d name lefts e →
      Accessor.resolveText? g d (n + lefts.length) name = Accessor.resolve? g d n e := by
    intro n lefts e hunfolds
    obtain ⟨range, hread⟩ := call_of_name h.named
    rw [Accessor.resolveText?, hread, Option.bind_some, Accessor.resolve?, Accessor.resolve?,
      ← hunfolds.resolve range, Nat.add_right_comm]
  refine ⟨hchain, fun depth r => ⟨fun hr => ?_, ?_⟩, h.consumed_iff⟩
  · obtain ⟨range, hread⟩ := call_of_name h.named
    rw [Accessor.resolveText?, hread, Option.bind_some] at hr
    obtain ⟨m, lefts, e, hdepth, hunfolds, hend, hr⟩ := h.exists_unfolds hr
    cases m with
    | zero => cases hr
    | succ n => exact ⟨n, lefts, e, by omega, hunfolds, hend, hr⟩
  · rintro ⟨n, lefts, e, rfl, hunfolds, -, hr⟩
    rw [hchain n lefts e hunfolds, hr]

def serial : List Fragment :=
  [⟨⟨0⟩, .root []
    [.child { name := .parse "uart", labels := [{ name := "uart0" }] }
      [.property { name := "current-speed", values := [.cells [.expr (.num 115200)]] }]] {}⟩]

def speedBody : String := "DT_PROP(DT_NODELABEL(uart0), current_speed)"

def doubleBody : String := speedBody ++ " * 2"

def speeds : Defines :=
  ((Defines.define {} "SPEED" speedBody).define "TWICE" "SPEED * 2").define "DOUBLE" doubleBody

def speedCall : CallExpr :=
  .call "DT_PROP"
    [.call "DT_NODELABEL" [.leaf .ident "uart0" ⟨21, 26⟩] ⟨8, 27⟩, .leaf .ident "current_speed" ⟨29, 42⟩] ⟨0, 43⟩

/-- All three names are aliases, and the call has its value at the depths that their expansions leave. -/
theorem exists_serial :
    ∃ g, Build.build {} serial (fun _ => false) = .ok g ∧
      (Alias g speeds "SPEED" speedBody ∧ Alias g speeds "TWICE" "SPEED * 2" ∧ Alias g speeds "DOUBLE" doubleBody) ∧
      (Accessor.resolve? g speeds 0 speedCall).bind Resolved.int? = some 115200 ∧
      (Accessor.resolve? g speeds 31 speedCall).bind Resolved.int? = some 115200 := by
  obtain ⟨g, h, ⟨hspeed, htwice, hdouble⟩, hvalues⟩ : ∃ g, Build.build {} serial (fun _ => false) = .ok g ∧
      (Accessor.nodeToken? g "SPEED" = none ∧ Accessor.nodeToken? g "TWICE" = none ∧
        Accessor.nodeToken? g "DOUBLE" = none) ∧
      (Accessor.resolve? g speeds 0 speedCall).bind Resolved.int? = some 115200 ∧
      (Accessor.resolve? g speeds 31 speedCall).bind Resolved.int? = some 115200 := exists_built (by decide +kernel)
  have halias : ∀ {name body : String}, Accessor.nodeToken? g name = none →
      (isIdentifier name = true ∧ speeds.object? name = some body ∧ speeds.evaluateText body = none) →
      Alias g speeds name body :=
    fun hunplaced ⟨hnamed, hdefined, hunvalued⟩ => ⟨hnamed, hdefined, hunplaced, hunvalued⟩
  exact ⟨g, h, ⟨halias hspeed (by decide +kernel), halias htwice (by decide +kernel),
    halias hdouble (by decide +kernel)⟩, hvalues⟩

/-- The speed and twice the speed have the same meaning. -/
theorem alias_means_twice :
    ∃ g, Build.build {} serial (fun _ => false) = .ok g ∧ Alias g speeds "TWICE" "SPEED * 2" ∧
      Unfolds g speeds "TWICE" [[⟨.other, "*", 6⟩, ⟨.number, "2", 8⟩], []] speedCall ∧
      Accessor.resolveText? g speeds 2 "TWICE" = Accessor.resolve? g speeds 0 speedCall ∧
      (Accessor.resolveText? g speeds 2 "TWICE").bind Resolved.int? = some 115200 := by
  obtain ⟨g, h, ⟨hplain, htwice, -⟩, hspeed, -⟩ := exists_serial
  have hfront : BeginsWith "SPEED * 2" (.leaf .ident "SPEED" ⟨0, 5⟩) [⟨.other, "*", 6⟩, ⟨.number, "2", 8⟩] :=
    begins_iff.mpr (by decide +kernel)
  have hchain : Unfolds g speeds "TWICE" [[⟨.other, "*", 6⟩, ⟨.number, "2", 8⟩], []] speedCall :=
    .link htwice hfront (.last hplain (begins_iff.mpr (by decide +kernel)))
  have hsame := (alias_means htwice).1 0 _ _ hchain
  exact ⟨g, h, htwice, hchain, hsame, hsame ▸ hspeed⟩

/-- A body with tokens left over has the meaning of what is in front of these. -/
theorem alias_means_doubled :
    ∃ g r, Build.build {} serial (fun _ => false) = .ok g ∧
      Alias g speeds "DOUBLE" doubleBody ∧
      BeginsWith doubleBody speedCall [⟨.other, "*", 44⟩, ⟨.number, "2", 46⟩] ∧
      Accessor.resolveText? g speeds 32 "DOUBLE" = some r ∧ Accessor.resolve? g speeds 31 speedCall = some r ∧
      r.int? = some 115200 ∧ ¬ ∃ e, BeginsWith doubleBody e [] := by
  obtain ⟨g, h, ⟨-, -, hdouble⟩, -, hspeed⟩ := exists_serial
  obtain ⟨r, hr, hint⟩ := Option.bind_eq_some_iff.mp hspeed
  have hbegins : BeginsWith doubleBody speedCall [⟨.other, "*", 44⟩, ⟨.number, "2", 46⟩] :=
    begins_iff.mpr (by decide +kernel)
  have hsame : Accessor.resolveText? g speeds 32 "DOUBLE" = Accessor.resolve? g speeds 31 speedCall := by
    rw [hdouble.resolve_text, parse_iff_begins.mpr ⟨_, hbegins⟩]
    rfl
  refine ⟨g, r, h, hdouble, hbegins, hsame.trans hr, hr, hint, ?_⟩
  rintro ⟨e, hall⟩
  cases (hbegins.unique hall).2

end Devicetree.Proofs
