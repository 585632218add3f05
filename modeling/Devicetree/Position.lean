namespace Devicetree

/-- A line and a column, both counted from zero. Positions are ordered line first. -/
structure Position where
  line : Nat := 0
  column : Nat := 0
deriving DecidableEq, Repr, Inhabited

namespace Position

instance : LE Position where
  le p q := p.line < q.line ∨ (p.line = q.line ∧ p.column ≤ q.column)

instance : LT Position where
  lt p q := p.line < q.line ∨ (p.line = q.line ∧ p.column < q.column)

theorem le_def (p q : Position) :
    p ≤ q ↔ p.line < q.line ∨ (p.line = q.line ∧ p.column ≤ q.column) := Iff.rfl

theorem lt_def (p q : Position) :
    p < q ↔ p.line < q.line ∨ (p.line = q.line ∧ p.column < q.column) := Iff.rfl

instance (p q : Position) : Decidable (p ≤ q) := decidable_of_iff _ (le_def p q).symm

instance (p q : Position) : Decidable (p < q) := decidable_of_iff _ (lt_def p q).symm

instance : Std.IsLinearOrder Position where
  le_refl p := by
    rw [le_def]
    omega
  le_trans p q r := by
    simp only [le_def]
    omega
  le_antisymm p q := by
    cases p
    cases q
    simp only [le_def, mk.injEq]
    omega
  le_total p q := by
    simp only [le_def]
    omega

instance : Std.LawfulOrderLT Position where
  lt_iff p q := by
    simp only [le_def, lt_def]
    omega

end Position

structure Span where
  start : Position := {}
  stop : Position := {}
deriving DecidableEq, Repr, Inhabited

namespace Span

def contains (s : Span) (p : Position) : Bool := decide (s.start ≤ p ∧ p ≤ s.stop)

theorem contains_iff {s : Span} {p : Position} : s.contains p = true ↔ s.start ≤ p ∧ p ≤ s.stop :=
  decide_eq_true_iff

def encloses (s t : Span) : Bool := decide (s.start ≤ t.start ∧ t.stop ≤ s.stop)

theorem encloses_iff {s t : Span} : s.encloses t = true ↔ s.start ≤ t.start ∧ t.stop ≤ s.stop :=
  decide_eq_true_iff

theorem encloses_refl (s : Span) : s.encloses s = true := encloses_iff.mpr ⟨Std.le_refl _, Std.le_refl _⟩

theorem encloses_trans {s t u : Span} (h : s.encloses t = true) (h' : t.encloses u = true) :
    s.encloses u = true := by
  rw [encloses_iff] at h h' ⊢
  exact ⟨Std.le_trans h.1 h'.1, Std.le_trans h'.2 h.2⟩

theorem encloses_antisymm {s t : Span} (h : s.encloses t = true) (h' : t.encloses s = true) : s = t := by
  rw [encloses_iff] at h h'
  cases s
  cases t
  rw [mk.injEq]
  exact ⟨Std.le_antisymm h.1 h'.1, Std.le_antisymm h'.2 h.2⟩

end Span

structure FileId where
  number : Nat := 0
deriving DecidableEq, Repr, Inhabited

def FileId.render (f : FileId) : String := s!"file#{f.number}"

structure Location where
  file : FileId := {}
  span : Span := {}
deriving DecidableEq, Repr, Inhabited

def Location.contains (l : Location) (file : FileId) (p : Position) : Bool :=
  decide (l.file = file) && l.span.contains p

/-- A moment of processing: the number of a fragment, then a position in its file. A 32-bit word holds the number as
long as there are at most 2^32 fragments. -/
structure Order where
  fragment : Nat := 0
  position : Position := {}
deriving DecidableEq, Repr, Inhabited

namespace Order

instance : LE Order where
  le a b := a.fragment < b.fragment ∨ (a.fragment = b.fragment ∧ a.position ≤ b.position)

instance : LT Order where
  lt a b := a.fragment < b.fragment ∨ (a.fragment = b.fragment ∧ a.position < b.position)

theorem le_def (a b : Order) :
    a ≤ b ↔ a.fragment < b.fragment ∨ (a.fragment = b.fragment ∧ a.position ≤ b.position) := Iff.rfl

theorem lt_def (a b : Order) :
    a < b ↔ a.fragment < b.fragment ∨ (a.fragment = b.fragment ∧ a.position < b.position) := Iff.rfl

instance (a b : Order) : Decidable (a ≤ b) := decidable_of_iff _ (le_def a b).symm

instance (a b : Order) : Decidable (a < b) := decidable_of_iff _ (lt_def a b).symm

instance : Std.IsLinearOrder Order where
  le_refl a := by
    rw [le_def]
    exact Or.inr ⟨rfl, Std.le_refl _⟩
  le_trans a b c := by
    simp only [le_def]
    grind
  le_antisymm a b := by
    cases a
    cases b
    simp only [le_def, mk.injEq]
    grind
  le_total a b := by
    simp only [le_def]
    grind

instance : Std.LawfulOrderLT Order where
  lt_iff a b := by
    simp only [le_def, lt_def]
    grind

end Order

/-- Where a declaration or directive is written: all of it, its name or target alone, and its place in
the processing order. -/
structure Site where
  location : Location := {}
  nameLocation : Location := {}
  order : Order := {}
deriving DecidableEq, Repr, Inhabited

end Devicetree
