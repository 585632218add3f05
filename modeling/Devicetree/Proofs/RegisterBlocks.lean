import Mathlib.Data.Int.ModEq
import Mathlib.Data.List.Forall2
import Mathlib.Tactic.Ring
import Devicetree.Graph.Register
import Devicetree.Proofs.SpecifierGroups

namespace Devicetree.Proofs

def CellsAre (g : Graph) (n : NodeId) (property : String) (count : Nat) : Prop :=
  ∃ e rest x, g.flatProperty? n property = some (.expr e :: rest) ∧ g.evaluate? e = some x ∧ x.toInt = count

/-- A number as big-endian cells of 32 bits, as many as there are to be. -/
def wordCells : Nat → Nat → List Nat
  | 0, _ => []
  | w + 1, v => v / 2 ^ (32 * w) % 2 ^ 32 :: wordCells w v

/-- The value is an expression that is worth the cell up to multiples of 2 ^ 32, as a negative number is. -/
def EncodesCell (g : Graph) (cell : Nat) (v : Value) : Prop :=
  ∃ e x, v = .expr e ∧ g.evaluate? e = some x ∧ x.toInt ≡ cell [ZMOD 2 ^ 32]

section Asked
variable {g : Graph} {n : NodeId} {v : Value} {property : String} {count : Nat} {x : Int64}

theorem valueOf_eq_some_iff :
    g.valueOf? v = some x ↔ ∃ e, v = .expr e ∧ g.evaluate? e = some x := by
  cases v <;> simp [Graph.valueOf?, Value.expr?]

theorem natOf_eq_some_iff :
    g.natOf? v = some count ↔ ∃ e x, v = .expr e ∧ g.evaluate? e = some x ∧ x.toInt = count := by
  have hnat : ∀ x : Int64, (if 0 ≤ x.toInt then some x.toInt.toNat else none) = some count ↔ x.toInt = count := by
    intro x
    split
    · rw [Option.some.injEq]
      omega
    · simp only [reduceCtorEq, false_iff]
      omega
  simp only [Graph.natOf?, Option.bind_eq_some_iff, valueOf_eq_some_iff, hnat]
  constructor
  · intro h
    obtain ⟨x, ⟨e, he, hx⟩, hcount⟩ := h
    exact ⟨e, x, he, hx, hcount⟩
  · intro h
    obtain ⟨e, x, he, hx, hcount⟩ := h
    exact ⟨x, ⟨e, he, hx⟩, hcount⟩

theorem cellsAre_iff : CellsAre g n property count ↔
    ((g.flatProperty? n property).bind List.head?).bind g.natOf? = some count := by
  simp only [Option.bind_eq_some_iff, List.head?_eq_some_iff, natOf_eq_some_iff]
  constructor
  · intro h
    obtain ⟨e, rest, x, hflat, hx, hcount⟩ := h
    exact ⟨.expr e, ⟨_, hflat, rest, rfl⟩, e, x, rfl, hx, hcount⟩
  · intro h
    obtain ⟨_, ⟨_, hflat, rest, rfl⟩, e, x, rfl, hx, hcount⟩ := h
    exact ⟨e, rest, x, hflat, hx, hcount⟩

instance (g : Graph) (n : NodeId) (property : String) (count : Nat) : Decidable (CellsAre g n property count) :=
  decidable_of_iff _ cellsAre_iff.symm

/-- What a property asks for does not depend on the default. -/
theorem CellsAre.cellCount (h : CellsAre g n property count) (default : Nat) :
    g.cellCount n property default = count := by
  rw [Graph.cellCount, cellsAre_iff.mp h, Option.getD_some]

end Asked

theorem encodesCell_iff {g : Graph} {cell : Nat} {v : Value} :
    EncodesCell g cell v ↔ ∃ x ∈ g.valueOf? v, x.toInt ≡ cell [ZMOD 2 ^ 32] := by
  simp only [EncodesCell, Option.mem_def, valueOf_eq_some_iff]
  constructor
  · intro h
    obtain ⟨e, x, he, hx, hmod⟩ := h
    exact ⟨x, ⟨e, he, hx⟩, hmod⟩
  · intro h
    obtain ⟨x, ⟨e, he, hx⟩, hmod⟩ := h
    exact ⟨e, x, he, hx, hmod⟩

instance (g : Graph) (cell : Nat) (v : Value) : Decidable (EncodesCell g cell v) :=
  decidable_of_iff _ encodesCell_iff.symm

section Words
variable {g : Graph} {cell w : Nat} {v : Value} {cells : List Value}

theorem wordCells_length (w v : Nat) : (wordCells w v).length = w := by
  induction w with
  | zero => rfl
  | succ w ih => rw [wordCells, List.length_cons, ih]

/-- The lower half of a signed word is its residue, whatever the sign. -/
theorem low_half (x : Int64) : ((x.toUInt64 &&& 0xffffffff).toNat : Int) = x.toInt % 2 ^ 32 := by
  have hlow : (x.toUInt64 &&& 0xffffffff).toNat = x.toUInt64.toNat % 2 ^ 32 := by
    rw [UInt64.toNat_and]
    exact Nat.and_two_pow_sub_one_eq_mod _ 32
  have hbits : x.toInt = (x.toUInt64.toNat : Int).bmod (2 ^ 64) := BitVec.toInt_eq_toNat_bmod _
  rw [hlow, hbits, Int.bmod_def]
  split <;> omega

/-- What moves up leaves room for a cell; the upper half is lost. -/
theorem shift_in (acc low : UInt64) (hlow : low.toNat < 2 ^ 32) :
    ((acc <<< 32) ||| low).toNat = (acc.toNat * 2 ^ 32 + low.toNat) % 2 ^ 64 := by
  have hup : (acc <<< 32).toNat = (acc.toNat % 2 ^ 32) <<< 32 := by
    rw [UInt64.toNat_shiftLeft, Nat.shiftLeft_eq, Nat.shiftLeft_eq]
    change acc.toNat * 2 ^ 32 % 2 ^ 64 = _
    omega
  rw [UInt64.toNat_or, hup, ← Nat.shiftLeft_add_eq_or_of_lt hlow, Nat.shiftLeft_eq]
  omega

theorem EncodesCell.append (h : EncodesCell g cell v) (hcell : cell < 2 ^ 32) (acc : UInt64) :
    ∃ r, g.appendCell? acc v = some r ∧ r.toNat = (acc.toNat * 2 ^ 32 + cell) % 2 ^ 64 := by
  obtain ⟨e, x, rfl, hx, hmod⟩ := h
  have hlow : (x.toUInt64 &&& 0xffffffff).toNat = cell := by
    have hhalf := low_half x
    rw [hmod] at hhalf
    omega
  refine ⟨(acc <<< 32) ||| (x.toUInt64 &&& 0xffffffff), ?_, ?_⟩
  · simp [Graph.appendCell?, Graph.valueOf?, Value.expr?, hx]
  · rw [shift_in acc _ (by omega), hlow]

/-- Cells that come after a number move it up by their width and take the room below it. -/
theorem append_cells {n : Nat} (h : List.Forall₂ (EncodesCell g) (wordCells w n) cells) (acc : UInt64) :
    ∃ r, cells.foldlM g.appendCell? acc = some r ∧
      r.toNat = (acc.toNat * 2 ^ (32 * w) + n % 2 ^ (32 * w)) % 2 ^ 64 := by
  -- the highest cell comes first, so that what is read so far is the number of the cells above
  induction w generalizing cells acc with
  | zero =>
    cases h
    exact ⟨acc, rfl, by simp [Nat.mod_one]⟩
  | succ w ih =>
    obtain _ | ⟨hv, hrest⟩ := h
    obtain ⟨next, hnext, hnat⟩ := hv.append (Nat.mod_lt _ (by decide)) acc
    obtain ⟨r, hr, hrnat⟩ := ih hrest next
    refine ⟨r, ?_, ?_⟩
    · rw [List.foldlM_cons, hnext]
      exact hr
    · have hsplit : n % 2 ^ (32 * (w + 1)) =
          n % 2 ^ (32 * w) + 2 ^ (32 * w) * (n / 2 ^ (32 * w) % 2 ^ 32) := by
        rw [Nat.mul_succ, Nat.pow_add, Nat.mod_mul]
      have hmove : (acc.toNat * 2 ^ 32 + n / 2 ^ (32 * w) % 2 ^ 32) * 2 ^ (32 * w) + n % 2 ^ (32 * w) =
          acc.toNat * 2 ^ (32 * (w + 1)) + n % 2 ^ (32 * (w + 1)) := by
        rw [hsplit]
        ring
      rw [← hmove, hrnat, hnat, Nat.add_mod, Nat.mod_mul_mod, ← Nat.add_mod]

def component (w : Nat) (v : UInt64) : Option UInt64 := if w = 0 then none else some v

theorem combine_cells {n : UInt64} (h : List.Forall₂ (EncodesCell g) (wordCells w n.toNat) cells) (hw : w ≤ 2)
    (hn : n.toNat < 2 ^ (32 * w)) : g.combineCells? cells = component w n := by
  have hlength : cells.length = w := by rw [← h.length_eq, wordCells_length]
  obtain ⟨r, hr, hrnat⟩ := append_cells h 0
  by_cases hzero : w = 0
  · subst hzero
    cases h
    rfl
  · have hsome : ¬ (cells.isEmpty || decide (2 < cells.length)) = true := by
      rw [Bool.or_eq_true, List.isEmpty_iff_length_eq_zero, decide_eq_true_eq]
      omega
    have hfits : r = n := by
      apply UInt64.toNat_inj.mp
      rw [hrnat, Nat.mod_eq_of_lt hn, UInt64.toNat_zero, Nat.zero_mul, Nat.zero_add, Nat.mod_eq_of_lt n.toNat_lt]
    rw [Graph.combineCells?, if_neg hsome, hr, hfits, component, if_neg hzero]

end Words

section Chunks
variable {α β : Type} {R : α → β → Prop} {n : Nat} {xs ys : List α} {zs : List β}

/-- A full piece in front is cut off as it is. -/
theorem chunks_append (hxs : xs.length = n + 1) : chunks n (xs ++ ys) = xs :: chunks n ys := by
  cases xs with
  | nil => cases hxs
  | cons x xs =>
    have hlength : xs.length = n := Nat.succ.inj hxs
    rw [List.cons_append, chunks, List.take_left' hlength, List.drop_left' hlength]

theorem related_append (h : List.Forall₂ R (xs ++ ys) zs) :
    List.Forall₂ R xs (zs.take xs.length) ∧ List.Forall₂ R ys (zs.drop xs.length) := by
  have hfirst := List.forall₂_take xs.length h
  have hrest := List.forall₂_drop xs.length h
  rw [List.take_left] at hfirst
  rw [List.drop_left] at hrest
  exact ⟨hfirst, hrest⟩

end Chunks

def blockCells (a s : Nat) (block : UInt64 × UInt64) : List Nat :=
  wordCells a block.1.toNat ++ wordCells s block.2.toNat

def FitsCells (a s : Nat) (block : UInt64 × UInt64) : Prop :=
  block.1.toNat < 2 ^ (32 * a) ∧ block.2.toNat < 2 ^ (32 * s)

instance (a s : Nat) (block : UInt64 × UInt64) : Decidable (FitsCells a s block) :=
  inferInstanceAs (Decidable (_ ∧ _))

def readBlock (a s : Nat) (block : UInt64 × UInt64) : RegBlock := ⟨component a block.1, component s block.2⟩

section Blocks
variable {g : Graph} {n : NodeId} {a s : Nat} {cells : List Value} {block : UInt64 × UInt64}
  {blocks : List (UInt64 × UInt64)}

theorem blockCells_length (a s : Nat) (block : UInt64 × UInt64) : (blockCells a s block).length = a + s := by
  rw [blockCells, List.length_append, wordCells_length, wordCells_length]

/-- One block is read back from its cells. -/
theorem read_block (ha : a ≤ 2) (hs : s ≤ 2) (hfits : FitsCells a s block)
    (h : List.Forall₂ (EncodesCell g) (blockCells a s block) cells) :
    (⟨g.combineCells? (cells.take a), g.combineCells? (cells.drop a)⟩ : RegBlock) = readBlock a s block := by
  obtain ⟨haddress, hsize⟩ := related_append h
  rw [wordCells_length] at haddress hsize
  rw [combine_cells haddress ha hfits.1, combine_cells hsize hs hfits.2, readBlock]

/-- Blocks one after another are cut apart again and read back. -/
theorem read_blocks (ha : a ≤ 2) (hs : s ≤ 2) {k : Nat} (hstride : a + s = k + 1)
    (hfits : ∀ block ∈ blocks, FitsCells a s block)
    (h : List.Forall₂ (EncodesCell g) (blocks.flatMap (blockCells a s)) cells) :
    ((chunks k cells).map fun chunk =>
      (⟨g.combineCells? (chunk.take a), g.combineCells? (chunk.drop a)⟩ : RegBlock)) =
        blocks.map (readBlock a s) := by
  induction blocks generalizing cells with
  | nil =>
    cases h
    rw [chunks]
    rfl
  | cons block blocks ih =>
    rw [List.flatMap_cons] at h
    obtain ⟨hblock, hblocks⟩ := related_append h
    have hlength := hblock.length_eq
    rw [blockCells_length] at hblock hblocks hlength
    have hcut : chunks k cells = cells.take (a + s) :: chunks k (cells.drop (a + s)) := by
      rw [← chunks_append (hlength.symm.trans hstride), List.take_append_drop]
    rw [hcut, List.map_cons, List.map_cons, read_block ha hs (hfits block List.mem_cons_self) hblock,
      ih (fun b hb => hfits b (List.mem_cons_of_mem _ hb)) hblocks]

end Blocks

/-- Registers are read back from their cells: the blocks are those that were written, in their order, without a
component for which the parent of the node asks for no cells. -/
theorem reg_blocks_encoded {g : Graph} {n p : NodeId} {a s : Nat} (hparent : g.parent? n = some p)
    (haddress : CellsAre g p "#address-cells" a) (hsize : CellsAre g p "#size-cells" s) (ha : a ≤ 2) (hs : s ≤ 2)
    (hsome : ¬ (a = 0 ∧ s = 0)) {blocks : List (UInt64 × UInt64)} (hfits : ∀ block ∈ blocks, FitsCells a s block)
    {cells : List Value} (hreg : g.flatProperty? n "reg" = some cells)
    (hcells : List.Forall₂ (EncodesCell g) (blocks.flatMap (blockCells a s)) cells) :
    g.regBlocks n = blocks.map (readBlock a s) := by
  obtain ⟨k, hk⟩ : ∃ k, a + s = k + 1 := Nat.exists_eq_succ_of_ne_zero (by omega)
  have hwidths : g.regCells n = (a, s) := by
    simp only [Graph.regCells, hparent, haddress.cellCount, hsize.cellCount]
  rw [Graph.regBlocks, hwidths]
  simp only [hk, hreg, Option.getD_some]
  exact read_blocks ha hs hk hfits hcells

/-- A bus whose devices have addresses of two cells and sizes of one, and one on it whose devices have no sizes. The
cells are negative, too large, or stand in brackets of their own. -/
def mapped : List Fragment :=
  let counts (address size : Int64) : List Item :=
    [.property { name := "#address-cells", values := [.cells [number address]] },
      .property { name := "#size-cells", values := [.cells [number size]] }]
  [⟨⟨0⟩, .root []
      [.child { name := .parse "bus" }
        (counts 2 1 ++
          [.child { name := .parse "dev" }
              [.property { name := "reg", values :=
                [.cells [.expr (.unary .neg (.num 1)), number 0x100000001],
                  .cells [number (-0x80000000), number 0, number 7, number (-1)]] }],
            .child { name := .parse "i2c" }
              (counts 1 0 ++ [.child { name := .parse "sensor" }
                [.property { name := "reg", values := [.cells [number 0x48], number 0x80000000] }]])])] {}⟩]

def mappedBlocks : List (UInt64 × UInt64) := [(0xffffffff00000001, 0x80000000), (7, 0xffffffff)]

def sensorBlocks : List (UInt64 × UInt64) := [(0x48, 0), (0x80000000, 0)]

theorem reg_blocks_encoded_mapped : ∃ g, Build.build {} mapped (fun _ => false) = .ok g ∧
    g.regBlocks ⟨2⟩ = [⟨some 0xffffffff00000001, some 0x80000000⟩, ⟨some 7, some 0xffffffff⟩] ∧
    g.regBlocks ⟨4⟩ = [⟨some 0x48, none⟩, ⟨some 0x80000000, none⟩] := by
  obtain ⟨g, h, hdev, hsensor⟩ : ∃ g, Build.build {} mapped (fun _ => false) = .ok g ∧
      (g.parent? ⟨2⟩ = some ⟨1⟩ ∧ CellsAre g ⟨1⟩ "#address-cells" 2 ∧ CellsAre g ⟨1⟩ "#size-cells" 1 ∧
        ∃ cells ∈ g.flatProperty? ⟨2⟩ "reg",
          List.Forall₂ (EncodesCell g) (mappedBlocks.flatMap (blockCells 2 1)) cells) ∧
      (g.parent? ⟨4⟩ = some ⟨3⟩ ∧ CellsAre g ⟨3⟩ "#address-cells" 1 ∧ CellsAre g ⟨3⟩ "#size-cells" 0 ∧
        ∃ cells ∈ g.flatProperty? ⟨4⟩ "reg",
          List.Forall₂ (EncodesCell g) (sensorBlocks.flatMap (blockCells 1 0)) cells) :=
    exists_built (by decide +kernel)
  obtain ⟨hparent, haddress, hsize, cells, hreg, hcells⟩ := hdev
  obtain ⟨hparent', haddress', hsize', cells', hreg', hcells'⟩ := hsensor
  have hfits : ∀ block ∈ mappedBlocks, FitsCells 2 1 block := by
    rw [mappedBlocks, List.forall_mem_cons, List.forall_mem_singleton]
    decide
  have hfits' : ∀ block ∈ sensorBlocks, FitsCells 1 0 block := by
    rw [sensorBlocks, List.forall_mem_cons, List.forall_mem_singleton]
    decide
  refine ⟨g, h, ?_, ?_⟩
  · exact reg_blocks_encoded hparent haddress hsize (by decide) (by decide) (by decide) hfits hreg hcells
  · exact reg_blocks_encoded hparent' haddress' hsize' (by decide) (by decide) (by decide) hfits' hreg' hcells'

end Devicetree.Proofs
