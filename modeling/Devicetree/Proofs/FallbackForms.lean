import Devicetree.Proofs.AccessorArguments
import Devicetree.Proofs.SpecifierGroups

namespace Devicetree.Proofs

def fallible : List (String × Nat) :=
  [("DT_PROP", 2), ("DT_PROP_LEN", 2),
    ("DT_STRING_TOKEN", 2), ("DT_STRING_TOKEN_BY_IDX", 3),
    ("DT_STRING_UPPER_TOKEN", 2), ("DT_STRING_UPPER_TOKEN_BY_IDX", 3),
    ("DT_STRING_UNQUOTED", 2), ("DT_STRING_UNQUOTED_BY_IDX", 3),
    ("DT_ENUM_IDX", 2), ("DT_ENUM_IDX_BY_IDX", 3),
    ("DT_PHA", 3), ("DT_PHA_BY_IDX", 4), ("DT_PHA_BY_NAME", 4),
    ("DT_PROP_BY_PHANDLE_IDX", 4)]

/-- The variant of a form that has one more argument to fall back on. -/
def variant? : Form → Option Form
  | .property => some .propertyOr
  | .length => some .lengthOr
  | .text style byIndex false => some (.text style byIndex true)
  | .enumIndex => some .enumIndexOr
  | .enumIndexAt => some .enumIndexAtOr
  | .cell => some .cellOr
  | .cellAt => some .cellAtOr
  | .cellNamed => some .cellNamedOr
  | .propertyThroughAt => some .propertyThroughAtOr
  | _ => none

/-- The accessor with the longer name stands for the variant. -/
theorem fallible_variant : ∀ e ∈ fallible, ∃ form ∈ Form.ofCall? e.1 e.2, ∃ variant ∈ variant? form,
    Form.ofCall? (e.1 ++ "_OR") (e.2 + 1) = some variant ∧ formArity form = some e.2 := by
  decide +kernel

section Variants
variable {g : Graph} {a : Accessor.Args} {env : Accessor.Surroundings}

/-- A length is always found where there is a property. -/
theorem length_variant : Accessor.form? g env a .lengthOr = (Accessor.form? g env a .length <|> a.fallback? 2) := by
  rw [Accessor.form?, Accessor.form?]
  cases a.property? g <;> rfl

/-- An index without a value leaves nothing to look up. -/
theorem enum_variant :
    Accessor.form? g env a .enumIndexAtOr = (Accessor.form? g env a .enumIndexAt <|> a.fallback? 3) := by
  rw [Accessor.form?, Accessor.form?]
  rfl

/-- Each variant, whichever way it looks for what its form finds, falls back on its last argument exactly where the form
finds nothing. -/
theorem variant_falls_back {form variant : Form} {n : Nat} (h : variant? form = some variant)
    (hn : formArity form = some n) :
    Accessor.form? g env a variant = (Accessor.form? g env a form <|> a.fallback? n) := by
  cases form with
  | length =>
    cases h
    cases hn
    exact length_variant
  | enumIndexAt =>
    cases h
    cases hn
    exact enum_variant
  | text style byIndex hasFallback =>
    cases hasFallback with
    | true => cases h
    | false =>
      cases h
      cases hn
      rfl
  | property | enumIndex | cell | cellAt | cellNamed | propertyThroughAt =>
    cases h
    cases hn
    rfl
  | _ => cases h

end Variants

def BlindToPlaces.environment {env : Accessor.Surroundings} (h : BlindToPlaces env) : Accessor.Environment where
  toSurroundings := env
  expand_part hp hp' := h hp' hp rfl

/-- Let what a part of an expression is expanded to depend on the part alone. Then an accessor with a fallback means what
the plain one means of the other arguments, from the same property, wherever either of them stands. Where that means
nothing it means what the fallback means, and where that means nothing either, the fallback itself if it is an
identifier or raw text. -/
theorem fallback_resolves {name : String} {arity : Nat} (h : (name, arity) ∈ fallible) (g : Graph)
    {env : Accessor.Surroundings} (henv : BlindToPlaces env) (depth : Nat) {args args' : List CallExpr}
    (hargs : args.length = arity) (hsame : unrangedArgs args' = unrangedArgs args) {fallback fallback' : CallExpr}
    (hfallback : unranged fallback' = unranged fallback) (range range' : Range) :
    Accessor.resolve? g env depth (.call (name ++ "_OR") (args' ++ [fallback']) range') =
      (Accessor.resolve? g env depth (.call name args range) <|>
        Accessor.resolve? g env depth fallback <|> bareToken? fallback) := by
  subst hargs
  obtain ⟨form, hform, variant, hvariant, hcall, harity⟩ := fallible_variant _ h
  have hplain : unranged (.call (name ++ "_OR") (args' ++ [fallback']) range') =
      unranged (.call (name ++ "_OR") (args ++ [fallback]) range) := by
    simp only [unranged, unrangedArgs_eq_map, List.map_append] at hsame ⊢
    rw [hsame, List.map_singleton, List.map_singleton, hfallback]
  have hlast : (args ++ [fallback])[args.length]? = some fallback := by simp
  have hdefault : (given g env depth (args ++ [fallback])).fallback? args.length =
      (Accessor.resolve? g env depth fallback <|> bareToken? fallback) := by
    rw [fallback_eq]
    simp only [given, hlast, Option.bind_some]
  have hlong : Accessor.resolve? g henv.environment depth (.call (name ++ "_OR") (args ++ [fallback]) range) =
      Accessor.form? g env (given g env depth (args ++ [fallback])) variant :=
    resolve_call (by rw [List.length_append]; exact hcall) range
  have hshort : Accessor.resolve? g henv.environment depth (.call name args range) =
      Accessor.form? g env (given g env depth args) form :=
    resolve_call hform range
  calc Accessor.resolve? g env depth (.call (name ++ "_OR") (args' ++ [fallback']) range')
    _ = Accessor.form? g env (given g env depth (args ++ [fallback])) variant :=
        (resolveWithin_congr henv hplain _).trans hlong
    _ = (Accessor.form? g env (given g env depth (args ++ [fallback])) form <|>
          Accessor.resolve? g env depth fallback <|> bareToken? fallback) := by
        rw [variant_falls_back hvariant harity, hdefault]
    _ = _ := by rw [form_append harity, ← hshort]; rfl

def pinned : List Fragment :=
  [⟨⟨0⟩, .root []
    [.child { name := .parse "gpio", labels := [{ name := "gpio0" }] }
        [.property { name := "ngpios", values := [.cells [number 32]] }],
      .child { name := .parse "mux", labels := [{ name := "mux0" }] } [],
      .child { name := .parse "dev" }
        [.property { name := "cs-gpios", values := [.label "gpio0", .label "mux0"] }]] {}⟩]

def pinsArgs (index : String) (moved : Nat) : List CallExpr :=
  [.call "DT_PATH" [wordLeaf "dev"] ⟨moved, moved + 12⟩, wordLeaf "cs_gpios", wordLeaf index, wordLeaf "ngpios"]

def pins (g : Graph) (index : String) : Option Resolved :=
  Accessor.resolve? g (.ofDefines {}) 32 (.call "DT_PROP_BY_PHANDLE_IDX" (pinsArgs index 23) ⟨0, 60⟩)

def pinsOr (g : Graph) (index : String) (fallback : CallExpr) : Option Resolved :=
  Accessor.resolve? g (.ofDefines {}) 32
    (.call ("DT_PROP_BY_PHANDLE_IDX" ++ "_OR") (pinsArgs index 26 ++ [fallback]) ⟨0, 69⟩)

/-- The plain accessor has a meaning; it has none but the fallback has one; the index has no value and the fallback is
a token; neither has a meaning and the fallback is no token. -/
theorem fallback_resolves_pinned :
    ∃ g, Build.build {} pinned (fun _ => false) = .ok g ∧ ("DT_PROP_BY_PHANDLE_IDX", 4) ∈ fallible ∧
      BlindToPlaces (.ofDefines {}) ∧ (pinsArgs "0" 23).length = 4 ∧
      unrangedArgs (pinsArgs "0" 26) = unrangedArgs (pinsArgs "0" 23) ∧
      (pinsOr g "0" (wordLeaf "9")).map (fun r => (r.int?, r.source?)) = some (some 32, some ⟨0⟩) ∧
      (pinsOr g "1" (wordLeaf "9")).map (fun r => (r.int?, r.source?)) = some (some 9, none) ∧
      pinsOr g "MISSING" (wordLeaf "NONE") = some (.ofValue (.token "NONE")) ∧
      pinsOr g "7" (.call "NONE" [] ⟨0, 0⟩) = none := by
  obtain ⟨g, h, ⟨hfound, hlacks, hmissing, hbeyond⟩, hnine, hname, hcall⟩ :
      ∃ g, Build.build {} pinned (fun _ => false) = .ok g ∧
        ((pins g "0").map (fun r => (r.int?, r.source?)) = some (some 32, some ⟨0⟩) ∧
          pins g "1" = none ∧ pins g "MISSING" = none ∧ pins g "7" = none) ∧
        (Accessor.resolve? g (.ofDefines {}) 32 (wordLeaf "9")).map (fun r => (r.int?, r.source?)) =
          some (some 9, none) ∧
        Accessor.resolve? g (.ofDefines {}) 32 (wordLeaf "NONE") = none ∧
        Accessor.resolve? g (.ofDefines {}) 32 (.call "NONE" [] ⟨0, 0⟩) = none := exists_built (by decide +kernel)
  have hfallible : ("DT_PROP_BY_PHANDLE_IDX", 4) ∈ fallible := by decide
  have hblind : BlindToPlaces (.ofDefines {}) := defines_blind {}
  have hor : ∀ index fallback, pinsOr g index fallback = (pins g index <|>
      Accessor.resolve? g (.ofDefines {}) 32 fallback <|> bareToken? fallback) :=
    fun index fallback => fallback_resolves hfallible g hblind 32 (rfl : (pinsArgs index 23).length = 4)
      (rfl : unrangedArgs (pinsArgs index 26) = unrangedArgs (pinsArgs index 23)) rfl _ _
  refine ⟨g, h, hfallible, hblind, rfl, rfl, ?_, ?_, ?_, ?_⟩
  · obtain ⟨r, hr, hshown⟩ := Option.map_eq_some_iff.mp hfound
    rw [hor, hr]
    exact congrArg some hshown
  · obtain ⟨r, hr, hshown⟩ := Option.map_eq_some_iff.mp hnine
    rw [hor, hlacks, hr]
    exact congrArg some hshown
  · rw [hor, hmissing, hname]
    rfl
  · rw [hor, hbeyond, hcall]
    rfl

end Devicetree.Proofs
