import Devicetree.Graph.Lookup
import Devicetree.Proofs.Numerals
import Mathlib.Data.List.TakeWhile

namespace Devicetree.Proofs

section Split
variable (sep : Char)

theorem splitAt_ne_nil (cs : List Char) : Text.splitAt sep cs ≠ [] := by
  cases cs with
  | nil => simp [Text.splitAt]
  | cons c cs =>
    simp only [Text.splitAt]
    split
    · simp
    · cases Text.splitAt sep cs <;> simp [Text.consFirst]

theorem splitAt_append (a b : List Char) :
    Text.splitAt sep (a ++ sep :: b) = Text.splitAt sep a ++ Text.splitAt sep b := by
  induction a with
  | nil => simp [Text.splitAt]
  | cons c a ih =>
    by_cases hc : c = sep
    · simp [Text.splitAt, hc, ih]
    · simp only [List.cons_append, Text.splitAt, hc, if_false, ih]
      cases hs : Text.splitAt sep a with
      | nil => exact absurd hs (splitAt_ne_nil sep a)
      | cons piece pieces => rfl

variable {sep}

theorem splitAt_of_not_mem {cs : List Char} (h : sep ∉ cs) : Text.splitAt sep cs = [cs] := by
  induction cs with
  | nil => rfl
  | cons c cs ih =>
    simp only [List.mem_cons, not_or] at h
    simp [Text.splitAt, Ne.symm h.1, ih h.2, Text.consFirst]

theorem not_mem_of_mem_splitAt {cs piece : List Char} (h : piece ∈ Text.splitAt sep cs) :
    sep ∉ piece := by
  induction cs generalizing piece with
  | nil => simp_all [Text.splitAt]
  | cons c cs ih =>
    simp only [Text.splitAt] at h
    split at h
    · rcases List.mem_cons.mp h with rfl | hm
      · simp
      · exact ih hm
    · rename_i hc
      cases hs : Text.splitAt sep cs with
      | nil => exact absurd hs (splitAt_ne_nil sep cs)
      | cons first rest =>
        rw [hs] at h ih
        rcases List.mem_cons.mp h with rfl | hm
        · simp [Ne.symm hc, ih List.mem_cons_self]
        · exact ih (List.mem_cons_of_mem _ hm)

theorem splitAt_intercalate {pieces : List (List Char)} (hne : pieces ≠ [])
    (h : ∀ piece ∈ pieces, sep ∉ piece) :
    Text.splitAt sep (List.intercalate [sep] pieces) = pieces := by
  induction pieces with
  | nil => exact absurd rfl hne
  | cons piece pieces ih =>
    have hpiece := h piece List.mem_cons_self
    cases pieces with
    | nil => simpa using splitAt_of_not_mem hpiece
    | cons next rest =>
      have hrest := ih (by simp) fun q hq => h q (List.mem_cons_of_mem _ hq)
      rw [List.intercalate_cons_cons, List.append_assoc, List.singleton_append, splitAt_append,
        splitAt_of_not_mem hpiece, hrest]
      rfl

theorem intercalate_consFirst (mark : List Char) (c : Char) {pieces : List (List Char)} (h : pieces ≠ []) :
    mark.intercalate (Text.consFirst c pieces) = c :: mark.intercalate pieces := by
  obtain ⟨piece, pieces, rfl⟩ := List.exists_cons_of_ne_nil h
  cases pieces <;> simp [Text.consFirst]

/-- The pieces with the separator between them are the text. -/
theorem intercalate_splitAt (cs : List Char) : List.intercalate [sep] (Text.splitAt sep cs) = cs := by
  induction cs with
  | nil => rfl
  | cons c cs ih =>
    obtain ⟨piece, pieces, hpieces⟩ := List.exists_cons_of_ne_nil (splitAt_ne_nil sep cs)
    by_cases hc : c = sep
    · rw [Text.splitAt, if_pos hc, hpieces, List.intercalate_cons_cons, ← hpieces, ih, hc]
      rfl
    · rw [Text.splitAt, if_neg hc, intercalate_consFirst [sep] c (splitAt_ne_nil sep cs), ih]

end Split

section Hex

/-- A character that is no hexadecimal digit in lower case. -/
theorem not_mem_hex {c : Char} (hc : ∀ d, d < 16 → c ≠ Nat.digitChar d) (n : Nat) :
    c ∉ (Text.hex n).toList := by
  intro h
  rw [Text.hex, String.toList_ofList] at h
  obtain ⟨d, hd, he⟩ := mem_toDigits (by omega) h
  exact hc d hd he

theorem dropHexMarks_of_not_mem {cs : List Char} (h : 'x' ∉ cs) : NodeName.dropHexMarks cs = cs := by
  unfold NodeName.dropHexMarks
  split
  · simp at h
  · rfl

/-- A cell of a unit address reads as the number that it was written for. -/
theorem cell_hex (c : UInt64) : NodeName.cell? (Text.hex c.toNat).toList = some c := by
  have hx : 'x' ∉ (Text.hex c.toNat).toList := not_mem_hex (by decide) _
  have hplus : '+' ∉ (Text.hex c.toNat).toList := not_mem_hex (by decide) _
  have hread : Numeral.extend 16 0 (Text.hex c.toNat).toList = some c.toNat := by
    rw [Text.hex, String.toList_ofList]
    exact extend_toDigits (by omega) (Nat.le_refl 16) c.toNat
  have hne : (Text.hex c.toNat).toList ≠ [] := by simp [Text.hex]
  rw [NodeName.cell?, dropHexMarks_of_not_mem hx, word_of_digits hplus hne hread c.toNat_lt]
  simp

end Hex

section Names

def unitText (cells : List UInt64) : List Char :=
  List.intercalate [','] (cells.map fun c => (Text.hex c.toNat).toList)

theorem toList_fullName (name : String) (cells : List UInt64) :
    (NodeName.fullName ⟨name, some cells⟩).toList = name.toList ++ '@' :: unitText cells := by
  simp [NodeName.fullName, unitText, String.toList_intercalate, Function.comp_def]

theorem cells_unitText {cells : List UInt64} (hne : cells ≠ []) :
    (Text.splitAt ',' (unitText cells)).mapM NodeName.cell? = some cells := by
  have hsplit : Text.splitAt ',' (unitText cells) = cells.map fun c => (Text.hex c.toNat).toList := by
    refine splitAt_intercalate (by simpa using hne) ?_
    intro piece hp
    obtain ⟨c, _, rfl⟩ := List.mem_map.mp hp
    exact not_mem_hex (by decide) _
  rw [hsplit]
  clear hsplit hne
  induction cells with
  | nil => rfl
  | cons c cells ih => simp [List.mapM_cons, cell_hex, ih]

theorem before_at {cs : List Char} (h : '@' ∉ cs) : ∀ c ∈ cs, decide (c ≠ '@') = true := by
  intro c hc
  have hneq : c ≠ '@' := fun he => h (he ▸ hc)
  simpa using hneq

/-- A text is read at its first `@`. -/
theorem parse_at {text name : String} {unit : List Char} (hname : '@' ∉ name.toList)
    (htext : text.toList = name.toList ++ '@' :: unit) :
    NodeName.parse text = ((Text.splitAt ',' unit).mapM NodeName.cell?).elim ⟨text, none⟩
      fun cells => ⟨name, some cells⟩ := by
  have hdrop : (name.toList ++ '@' :: unit).dropWhile (fun c => decide (c ≠ '@')) = '@' :: unit := by
    rw [List.dropWhile_append_of_pos (before_at hname)]
    simp
  have htake : (name.toList ++ '@' :: unit).takeWhile (fun c => decide (c ≠ '@')) = name.toList := by
    rw [List.takeWhile_append_of_pos (before_at hname)]
    simp
  simp only [NodeName.parse, htext, hdrop, htake, String.ofList_toList]
  cases (Text.splitAt ',' unit).mapM NodeName.cell? <;> rfl

/-- A name with a unit address is read back from its full form. -/
theorem parse_fullName_of_cells {name : String} {cells : List UInt64} (hname : '@' ∉ name.toList)
    (hne : cells ≠ []) : NodeName.parse (NodeName.fullName ⟨name, some cells⟩) = ⟨name, some cells⟩ := by
  rw [parse_at hname (toList_fullName name cells), cells_unitText hne, Option.elim_some]

/-- What is read from a text: all of it as a name, or the part before the first `@` with a unit address. -/
theorem parse_cases (text : String) :
    NodeName.parse text = ⟨text, none⟩ ∨
      ∃ cells, cells ≠ [] ∧ NodeName.parse text =
        ⟨String.ofList (text.toList.takeWhile fun c => decide (c ≠ '@')), some cells⟩ := by
  unfold NodeName.parse
  simp only
  split
  · exact Or.inl rfl
  · rename_i unit _
    split
    · rename_i cells hcells
      refine Or.inr ⟨cells, ?_, rfl⟩
      rintro rfl
      cases hs : Text.splitAt ',' unit with
      | nil => exact splitAt_ne_nil ',' unit hs
      | cons piece pieces => simp [hs, List.mapM_cons, Option.bind_eq_some_iff] at hcells
    · exact Or.inl rfl

/-- What was read from any text is read back from its full form. -/
theorem parse_fullName_parse (text : String) :
    NodeName.parse (NodeName.parse text).fullName = NodeName.parse text := by
  rcases parse_cases text with h | ⟨cells, hne, h⟩
  · rw [h]
    exact h
  · rw [h]
    refine parse_fullName_of_cells ?_ hne
    intro hm
    rw [String.toList_ofList] at hm
    simpa using List.mem_takeWhile_imp hm

/-- A name as it stands in a source: read from a text that is not empty and has no slash. -/
def Readable (n : NodeName) : Prop := ∃ text, text ≠ "" ∧ '/' ∉ text.toList ∧ NodeName.parse text = n

theorem Readable.parse_fullName {n : NodeName} (h : Readable n) : NodeName.parse n.fullName = n := by
  obtain ⟨text, _, _, rfl⟩ := h
  exact parse_fullName_parse text

theorem slash_not_mem_unitText (cells : List UInt64) : '/' ∉ unitText cells := by
  induction cells with
  | nil => simp [unitText]
  | cons c cells ih =>
    have hc : '/' ∉ (Text.hex c.toNat).toList := not_mem_hex (by decide) _
    cases cells with
    | nil => simpa [unitText] using hc
    | cons d cells =>
      simp only [unitText, List.map_cons, List.intercalate_cons_cons] at ih ⊢
      simp [hc, ih]

/-- The full form of a readable name is one segment of a path. -/
theorem Readable.segment {n : NodeName} (h : Readable n) :
    n.fullName.toList ≠ [] ∧ '/' ∉ n.fullName.toList := by
  obtain ⟨text, hne, hslash, rfl⟩ := h
  rcases parse_cases text with hp | ⟨cells, _, hp⟩
  · rw [hp]
    exact ⟨by simpa [NodeName.fullName] using hne, hslash⟩
  · rw [hp, toList_fullName]
    refine ⟨by simp, ?_⟩
    rw [String.toList_ofList]
    intro hm
    rcases List.mem_append.mp hm with hname | hunit
    · exact hslash ((List.takeWhile_prefix _).subset hname)
    · rcases List.mem_cons.mp hunit with he | hcells
      · cases he
      · exact slash_not_mem_unitText cells hcells

theorem readable_iff (n : NodeName) : Readable n ↔
    n.fullName.toList ≠ [] ∧ '/' ∉ n.fullName.toList ∧ NodeName.parse n.fullName = n := by
  constructor
  · intro h
    exact ⟨h.segment.1, h.segment.2, h.parse_fullName⟩
  · rintro ⟨hne, hslash, hread⟩
    exact ⟨n.fullName, by simpa using hne, hslash, hread⟩

instance (n : NodeName) : Decidable (Readable n) := decidable_of_iff _ (readable_iff n).symm

end Names

section Paths

def namesOf (pieces : List (List Char)) : List NodeName :=
  (pieces.filter fun s => !s.isEmpty).map fun s => NodeName.parse (String.ofList s)

theorem pathNames_eq (path : String) : pathNames path = namesOf (Text.splitAt '/' path.toList) := rfl

theorem namesOf_append (a b : List (List Char)) : namesOf (a ++ b) = namesOf a ++ namesOf b := by
  simp [namesOf]

theorem Readable.namesOf_segment {n : NodeName} (h : Readable n) :
    namesOf (Text.splitAt '/' n.fullName.toList) = [n] := by
  obtain ⟨hne, hslash⟩ := h.segment
  rw [splitAt_of_not_mem hslash]
  simp [namesOf, hne, h.parse_fullName]

/-- A readable name is a path of its own. -/
theorem Readable.pathNames_fullName {n : NodeName} (h : Readable n) : pathNames n.fullName = [n] :=
  h.namesOf_segment

theorem Readable.not_absolute {n : NodeName} (h : Readable n) : isAbsolute n.fullName = false := by
  obtain ⟨_, hslash⟩ := h.segment
  unfold isAbsolute
  cases hs : n.fullName.toList with
  | nil => rfl
  | cons c cs =>
    rw [hs, List.mem_cons, not_or] at hslash
    simp [List.isPrefixOf, hslash.1]

/-- All names of a path are readable. -/
theorem readable_of_mem_pathNames {path : String} {n : NodeName} (h : n ∈ pathNames path) :
    Readable n := by
  obtain ⟨piece, hp, rfl⟩ := List.mem_map.mp h
  obtain ⟨hmem, hne⟩ := List.mem_filter.mp hp
  refine ⟨String.ofList piece, ?_, ?_, rfl⟩
  · simpa using hne
  · rw [String.toList_ofList]
    exact not_mem_of_mem_splitAt hmem

/-- Joining a readable name to a path adds it to the names of the path. -/
theorem pathNames_joinPath (path : String) {n : NodeName} (h : Readable n) :
    pathNames (joinPath path n.fullName) = pathNames path ++ [n] := by
  unfold joinPath
  split
  · rename_i htop
    have hnone : pathNames path = [] := by
      rcases htop with rfl | rfl
      · decide
      · decide
    have hlist : ("/" ++ n.fullName).toList = [] ++ '/' :: n.fullName.toList := by simp
    rw [hnone, pathNames_eq, hlist, splitAt_append, namesOf_append, h.namesOf_segment]
    rfl
  · have hlist : (path ++ "/" ++ n.fullName).toList = path.toList ++ '/' :: n.fullName.toList := by simp
    rw [pathNames_eq, hlist, splitAt_append, namesOf_append, h.namesOf_segment, pathNames_eq]

theorem absolute_joinPath {path : String} (h : isAbsolute path = true) (child : String) :
    isAbsolute (joinPath path child) = true := by
  unfold joinPath
  split
  · simp [isAbsolute]
  · unfold isAbsolute at h ⊢
    obtain ⟨rest, hrest⟩ := List.isPrefixOf_iff_prefix.mp h
    apply List.isPrefixOf_iff_prefix.mpr
    exact ⟨rest ++ '/' :: child.toList, by simp [← hrest]⟩

end Paths

end Devicetree.Proofs
