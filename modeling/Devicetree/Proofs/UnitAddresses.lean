import Mathlib.Data.List.Forall2
import Devicetree.Proofs.NodeNames
import Devicetree.Proofs.PlaceValues

namespace Devicetree.Proofs

/-- A cell of a unit address: any number of `0x` marks, the sign, and hexadecimal digits of a number that a word
holds. -/
inductive Cell (sign : List Char) : List Char → UInt64 → Prop
  | digits {cs : List Char} {c : UInt64} (h : Writes 16 cs c.toNat) : Cell sign (sign ++ cs) c
  | mark {cs : List Char} {c : UInt64} (h : Cell sign cs c) : Cell sign ('0' :: 'x' :: cs) c

/-- A cell as it is read: the digits may have a plus sign. -/
def ReadCell (cs : List Char) (c : UInt64) : Prop := Cell [] cs c ∨ Cell ['+'] cs c

structure HasUnit (text name : String) (pieces : List (List Char)) : Prop where
  first : '@' ∉ name.toList
  nonempty : pieces ≠ []
  text : text.toList = name.toList ++ '@' :: List.intercalate [','] pieces

section Cells
variable {sign cs : List Char} {c : UInt64}

theorem not_digit_x : ¬ digitValue 'x' < 16 := by decide

theorem Cell.chars (h : Cell sign cs c) : ∀ d ∈ cs, d = '0' ∨ d = 'x' ∨ d ∈ sign ∨ digitValue d < 16 := by
  induction h with
  | digits h =>
    intro d hd
    rcases List.mem_append.mp hd with hd | hd
    · exact .inr (.inr (.inl hd))
    · exact .inr (.inr (.inr (h.digits d hd)))
  | mark _ ih =>
    intro d hd
    rcases List.mem_cons.mp hd with rfl | hd
    · exact .inl rfl
    · rcases List.mem_cons.mp hd with rfl | hd
      · exact .inr (.inl rfl)
      · exact ih d hd

theorem Cell.sign_mem (h : Cell sign cs c) {d : Char} (hd : d ∈ sign) : d ∈ cs := by
  induction h with
  | digits _ => exact List.mem_append_left _ hd
  | mark _ ih => exact List.mem_cons_of_mem _ (List.mem_cons_of_mem _ ih)

/-- Without a plus sign before them, all is hexadecimal digits and marks. -/
theorem Cell.no_plus (h : Cell [] cs c) : '+' ∉ cs := by
  intro hplus
  have hnone : ¬ digitValue '+' < 16 := by decide
  simpa [hnone] using h.chars '+' hplus

theorem ReadCell.no_comma (h : ReadCell cs c) : ',' ∉ cs := by
  intro hcomma
  have hnone : ¬ digitValue ',' < 16 := by decide
  rcases h with h | h
  · simpa [hnone] using h.chars ',' hcomma
  · simpa [hnone] using h.chars ',' hcomma

/-- A cell with a plus sign is read, but is none without one. -/
theorem ReadCell.hex_iff (h : ReadCell cs c) : Cell [] cs c ↔ '+' ∉ cs := by
  constructor
  · exact Cell.no_plus
  · intro hplus
    rcases h with h | h
    · exact h
    · exact absurd (h.sign_mem List.mem_cons_self) hplus

/-- What has no mark in front is a cell by its sign and its digits. -/
theorem Cell.unmarked (h : Cell sign cs c) (hmark : ∀ ds, cs ≠ '0' :: 'x' :: ds) :
    ∃ ds, cs = sign ++ ds ∧ Writes 16 ds c.toNat := by
  cases h with
  | digits h => exact ⟨_, rfl, h⟩
  | mark _ => exact absurd rfl (hmark _)

/-- The digits of a cell start after the marks. -/
theorem Cell.of_mark {text : List Char} (h : Cell sign text c) (htext : text = '0' :: 'x' :: cs)
    (hsign : ∀ d ∈ sign, d = '+') : Cell sign cs c := by
  cases h with
  | @digits ds _ h =>
    have hx : 'x' ∈ sign ++ ds := by simp [htext]
    rcases List.mem_append.mp hx with hx | hx
    · exact absurd (hsign _ hx) (by decide)
    · exact absurd (h.digits _ hx) not_digit_x
  | mark h =>
    cases htext
    exact h

theorem cell_eq_some_iff : NodeName.cell? cs = some c ↔ ReadCell cs c := by
  unfold NodeName.cell?
  fun_induction NodeName.dropHexMarks cs with
  | case1 cs ih =>
    rw [ih]
    constructor
    · exact Or.imp .mark .mark
    · exact Or.imp (fun h => h.of_mark rfl (by simp)) (fun h => h.of_mark rfl (by simp))
  | case2 cs hmark =>
    rw [word_eq_some_iff (Nat.le_refl 16)]
    constructor
    · rintro (h | ⟨ds, rfl, h⟩)
      · exact .inl (.digits h)
      · exact .inr (.digits h)
    · rintro (h | h)
      · obtain ⟨ds, rfl, hdigits⟩ := h.unmarked hmark
        exact .inl hdigits
      · obtain ⟨ds, rfl, hdigits⟩ := h.unmarked hmark
        exact .inr ⟨ds, rfl, hdigits⟩

end Cells

section Units
variable {text name : String} {pieces : List (List Char)} {cells : List UInt64}

theorem mapM_eq_some_iff {α β : Type} {f : α → Option β} {xs : List α} {ys : List β} :
    xs.mapM f = some ys ↔ List.Forall₂ (fun x y => f x = some y) xs ys := by
  induction xs generalizing ys with
  | nil => simp [List.forall₂_nil_left_iff, eq_comm]
  | cons x xs ih =>
    simp only [List.mapM_cons, Option.bind_eq_bind, Option.bind_eq_some_iff, ih, List.forall₂_cons_left_iff]
    constructor
    · rintro ⟨y, hy, rest, hrest, he⟩
      exact ⟨y, rest, hy, hrest, (Option.some.inj he).symm⟩
    · rintro ⟨y, rest, hy, hrest, rfl⟩
      exact ⟨y, hy, rest, hrest, rfl⟩

theorem no_comma_of_read (h : List.Forall₂ ReadCell pieces cells) : ∀ piece ∈ pieces, ',' ∉ piece :=
  ((List.forall₂_and_left ..).mp (h.imp fun _ _ hcell => ⟨hcell.no_comma, hcell⟩)).1

/-- Pieces without commas are read one by one. -/
theorem HasUnit.parse (h : HasUnit text name pieces) (hcomma : ∀ piece ∈ pieces, ',' ∉ piece) :
    NodeName.parse text = (pieces.mapM NodeName.cell?).elim ⟨text, none⟩ fun cells => ⟨name, some cells⟩ := by
  rw [parse_at h.first h.text, splitAt_intercalate h.nonempty hcomma]

theorem HasUnit.pieces_eq {others : List (List Char)} (h : HasUnit text name pieces) (ho : HasUnit text name others)
    (hcomma : ∀ piece ∈ pieces, ',' ∉ piece) (hothers : ∀ piece ∈ others, ',' ∉ piece) : others = pieces := by
  have hunit : List.intercalate [','] others = List.intercalate [','] pieces := by
    simpa using ho.text.symm.trans h.text
  rw [← splitAt_intercalate ho.nonempty hothers, hunit, splitAt_intercalate h.nonempty hcomma]

theorem exists_unit (h : '@' ∈ text.toList) :
    ∃ name pieces, HasUnit text name pieces ∧ ∀ piece ∈ pieces, ',' ∉ piece := by
  obtain ⟨before, unit, htext, hfirst⟩ := List.eq_append_cons_of_mem h
  refine ⟨String.ofList before, Text.splitAt ',' unit, ⟨?_, splitAt_ne_nil ',' unit, ?_⟩,
    fun piece => not_mem_of_mem_splitAt⟩
  · rwa [String.toList_ofList]
  · rw [String.toList_ofList, intercalate_splitAt, htext]

theorem parse_without_at (h : '@' ∉ text.toList) : NodeName.parse text = ⟨text, none⟩ := by
  have hdrop : text.toList.dropWhile (fun c => decide (c ≠ '@')) = [] :=
    List.dropWhile_eq_nil_iff.mpr (before_at h)
  simp only [NodeName.parse, hdrop]

/-- A text is read as a name with an address if and only if it has a unit of cells. -/
theorem parse_eq_some_iff : NodeName.parse text = ⟨name, some cells⟩ ↔
    ∃ pieces, HasUnit text name pieces ∧ List.Forall₂ ReadCell pieces cells := by
  constructor
  · intro h
    by_cases hat : '@' ∈ text.toList
    · obtain ⟨first, pieces, hunit, hcomma⟩ := exists_unit hat
      rw [hunit.parse hcomma] at h
      cases hread : pieces.mapM NodeName.cell? with
      | none => simp [hread] at h
      | some found =>
        rw [hread] at h
        cases h
        refine ⟨pieces, hunit, ?_⟩
        simpa only [cell_eq_some_iff] using mapM_eq_some_iff.mp hread
    · rw [parse_without_at hat] at h
      cases h
  · rintro ⟨pieces, hunit, hcells⟩
    have hread : pieces.mapM NodeName.cell? = some cells :=
      mapM_eq_some_iff.mpr (by simpa only [cell_eq_some_iff] using hcells)
    rw [hunit.parse (no_comma_of_read hcells), hread]
    rfl

def HasHexUnit (text : String) : Prop :=
  ∃ name pieces cells, HasUnit text name pieces ∧ List.Forall₂ (Cell []) pieces cells

def HasPlusUnit (text : String) : Prop :=
  ∃ name pieces cells, HasUnit text name pieces ∧ List.Forall₂ ReadCell pieces cells ∧ ∃ piece ∈ pieces, '+' ∈ piece

theorem has_address_iff : (NodeName.parse text).address ≠ none ↔ HasHexUnit text ∨ HasPlusUnit text := by
  constructor
  · intro h
    obtain ⟨cells, hcells⟩ := Option.ne_none_iff_exists'.mp h
    have hparse : NodeName.parse text = ⟨(NodeName.parse text).name, some cells⟩ := by rw [← hcells]
    obtain ⟨pieces, hunit, hread⟩ := parse_eq_some_iff.mp hparse
    by_cases hplus : ∃ piece ∈ pieces, '+' ∈ piece
    · exact .inr ⟨_, pieces, cells, hunit, hread, hplus⟩
    · refine .inl ⟨_, pieces, cells, hunit, ?_⟩
      have hnone : ∀ piece ∈ pieces, '+' ∉ piece := fun piece hp hmem => hplus ⟨piece, hp, hmem⟩
      exact ((List.forall₂_and_left ..).mpr ⟨hnone, hread⟩).imp fun _ _ hcell => hcell.2.hex_iff.mpr hcell.1
  · rintro (⟨name, pieces, cells, hunit, hcells⟩ | ⟨name, pieces, cells, hunit, hcells, _⟩)
    · rw [parse_eq_some_iff.mpr ⟨pieces, hunit, hcells.imp fun _ _ hcell => .inl hcell⟩]
      exact Option.some_ne_none cells
    · rw [parse_eq_some_iff.mpr ⟨pieces, hunit, hcells⟩]
      exact Option.some_ne_none cells

/-- A plus sign keeps a unit from being hexadecimal. -/
theorem HasPlusUnit.not_hex (h : HasPlusUnit text) : ¬ HasHexUnit text := by
  rintro ⟨other, others, found, hother, hhex⟩
  obtain ⟨name, pieces, cells, hunit, hcells, piece, hp, hplus⟩ := h
  have hread : List.Forall₂ ReadCell others found := hhex.imp fun _ _ hcell => .inl hcell
  have hsame := (parse_eq_some_iff.mpr ⟨others, hother, hread⟩).symm.trans
    (parse_eq_some_iff.mpr ⟨pieces, hunit, hcells⟩)
  obtain ⟨rfl, _⟩ := NodeName.mk.inj hsame
  obtain rfl := hunit.pieces_eq hother (no_comma_of_read hcells) (no_comma_of_read hread)
  have hnone := ((List.forall₂_and_left ..).mp (hhex.imp fun _ _ hcell => ⟨hcell.no_plus, hcell⟩)).1
  exact hnone piece hp hplus

/-- A text without an address is a name as it stands. -/
theorem parse_eq_text_iff : NodeName.parse text = ⟨text, none⟩ ↔ ¬ HasHexUnit text ∧ ¬ HasPlusUnit text := by
  rw [← not_or, ← has_address_iff, not_not]
  constructor
  · intro h
    rw [h]
  · intro h
    rcases parse_cases text with hnone | ⟨cells, _, hsome⟩
    · exact hnone
    · rw [hsome] at h
      cases h

end Units

/-- A unit address is read from the comma-separated cells after the first `@` and from nothing else. That these are
hexadecimal is the criterion for all texts but those in which a plus sign stands before the digits of a cell. -/
theorem unit_address_read (text : String) :
    (∀ name cells, NodeName.parse text = ⟨name, some cells⟩ ↔
      ∃ pieces, HasUnit text name pieces ∧ List.Forall₂ ReadCell pieces cells) ∧
    (NodeName.parse text = ⟨text, none⟩ ↔ ¬ HasHexUnit text ∧ ¬ HasPlusUnit text) ∧
    (((NodeName.parse text).address ≠ none ↔ HasHexUnit text) ↔ ¬ HasPlusUnit text) := by
  refine ⟨fun name cells => parse_eq_some_iff, parse_eq_text_iff, ?_⟩
  rw [has_address_iff]
  constructor
  · intro h hplus
    exact hplus.not_hex (h.mp (.inr hplus))
  · intro hnone
    exact or_iff_left hnone

/-- A plus sign is read as if it were not there. -/
theorem unit_address_read_plus :
    ¬ ((NodeName.parse "cpu@+1").address ≠ none ↔ HasHexUnit "cpu@+1") ∧
    NodeName.parse "cpu@+1" = NodeName.parse "cpu@1" := by
  have hsame : NodeName.parse "cpu@+1" = ⟨"cpu", some [1]⟩ := by decide +kernel
  have hbare : NodeName.parse "cpu@1" = ⟨"cpu", some [1]⟩ := by decide +kernel
  have hunit : HasUnit "cpu@+1" "cpu" [['+', '1']] := ⟨by decide, by decide, by decide⟩
  have hone : Writes 16 ['1'] (1 : UInt64).toNat := by decide
  have hplus : HasPlusUnit "cpu@+1" :=
    ⟨"cpu", [['+', '1']], [1], hunit, .cons (.inr (.digits hone)) .nil, by decide⟩
  refine ⟨?_, hsame.trans hbare.symm⟩
  intro h
  refine hplus.not_hex (h.mp ?_)
  rw [hsame]
  decide

/-- Names are read back: any name that was read, and what has cells and no `@` of its own. -/
theorem names_read_back :
    (∀ text, NodeName.parse (NodeName.parse text).fullName = NodeName.parse text) ∧
    ∀ name cells, NodeName.parse (NodeName.fullName ⟨name, some cells⟩) = ⟨name, some cells⟩ ↔
      '@' ∉ name.toList ∧ cells ≠ [] := by
  refine ⟨parse_fullName_parse, fun name cells => ⟨?_, ?_⟩⟩
  · intro h
    obtain ⟨pieces, hunit, hcells⟩ := parse_eq_some_iff.mp h
    refine ⟨hunit.first, ?_⟩
    rintro rfl
    exact hunit.nonempty (List.forall₂_nil_right_iff.mp hcells)
  · rintro ⟨hname, hne⟩
    exact parse_fullName_of_cells hname hne

end Devicetree.Proofs
