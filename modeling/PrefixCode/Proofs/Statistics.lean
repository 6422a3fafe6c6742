/-
# The figures of a table

A table tells how many codewords it has, how long the shortest and the longest of them are, and
whether the code is complete.  It finds the length of the shortest ones by looking for the first
block that has codewords, so what is asked here is which blocks have some: those of the lengths
that occur (`count_pos_iff_mem`).
-/
import PrefixCode.Proofs.Observation
import PrefixCode.Proofs.Renaming

namespace PrefixCode.Table

open PrefixCode.Lengths

variable {limits : Limits} {lengths : List UInt8} {layout : Layout} {table : Table} {block : Block}
  {l : UInt8} {i : Nat}

/-! ### Blocks with codewords -/

/-- Each length that occurs has a block. -/
lemma exists_getElem?_blocksOf (h : layout.Describes lengths) (hl : l ∈ lengths) (hne : l ≠ 0) :
    ∃ i block, (blocksOf layout)[i]? = some block ∧ (i + 1).toUInt8 = l := by
  have hle := Layout.maxBits_le_iff.1 le_rfl l hl
  have hpos : l.toNat ≠ 0 := fun h0 => hne (UInt8.toNat_inj.1 h0)
  refine ⟨l.toNat - 1, _, getElem?_blocksOf h (by omega), ?_⟩
  rw [Nat.sub_add_cancel (by omega), Nat.toUInt8_eq, UInt8.ofNat_toNat]

/-- A block has codewords exactly if its length occurs. -/
theorem count_pos_iff_mem (h : layout.Describes lengths)
    (hblock : (blocksOf layout)[i]? = some block) :
    0 < block.count ↔ (i + 1).toUInt8 ∈ lengths := by
  rw [UInt32.lt_iff_toNat_lt, toNat_count_block h hblock, UInt32.toNat_zero, List.count_pos_iff]

/-- Later blocks are those of greater lengths. -/
lemma toUInt8_le_toUInt8 (h : layout.Describes lengths) {j : Nat} {block' : Block}
    (hi : (blocksOf layout)[i]? = some block) (hj : (blocksOf layout)[j]? = some block')
    (hle : i ≤ j) : (i + 1).toUInt8 ≤ (j + 1).toUInt8 := by
  have hlength : (i + 1).toUInt8.toNat = i + 1 := toNat_length_block h hi
  have hlength' : (j + 1).toUInt8.toNat = j + 1 := toNat_length_block h hj
  rw [UInt8.le_iff_toNat_le, hlength, hlength']
  exact Nat.succ_le_succ hle

/-- There is a first block with codewords, and no length that occurs has a block before it. -/
lemma exists_findIdx?_blocksOf (h : layout.Describes lengths) :
    ∃ i block, (blocksOf layout).findIdx? (fun block => 0 < block.count) = some i ∧
      (blocksOf layout)[i]? = some block ∧ (i + 1).toUInt8 ∈ lengths ∧
      ∀ j block', (blocksOf layout)[j]? = some block' → (j + 1).toUInt8 ∈ lengths → i ≤ j := by
  obtain ⟨l, hl, hne⟩ := Layout.maxBits_pos_iff.1 h.realizable.maxBits_pos
  obtain ⟨j, block, hj, rfl⟩ := exists_getElem?_blocksOf h hl hne
  have hsome : ∃ block ∈ blocksOf layout, decide (0 < block.count) = true :=
    ⟨block, Array.mem_of_getElem? hj, by simpa using (count_pos_iff_mem h hj).2 hl⟩
  have hfind := Array.findIdx?_eq_some_of_exists hsome
  obtain ⟨hlt, hcount, hbefore⟩ := Array.findIdx?_eq_some_iff_getElem.1 hfind
  have hi := Array.getElem?_eq_getElem hlt
  rw [decide_eq_true_eq, count_pos_iff_mem h hi] at hcount
  refine ⟨_, _, hfind, hi, hcount, fun k block' hk hmem => ?_⟩
  by_contra hki
  have hmiss := hbefore k (Nat.not_le.1 hki)
  obtain ⟨hlt', hblock⟩ := Array.getElem?_eq_some_iff.1 hk
  rw [hblock, decide_eq_true_eq, count_pos_iff_mem h hk] at hmiss
  exact hmiss hmem

/-! ### The figures -/

/-- The shortest codewords are as long as the least length other than zero. -/
theorem isLeast_shortest (htable : ofLengths limits lengths = .ok table) :
    IsLeast {l | l ∈ lengths ∧ l ≠ 0} table.shortest := by
  obtain ⟨layout, hlayout, rfl⟩ := Except.map_eq_ok_iff.1 htable
  have h := Layout.describes_of_ofLengths hlayout
  have hblocks : (ofLayout layout lengths).blocks = blocksOf layout := rfl
  obtain ⟨i, block, hfind, hi, hmem, hfirst⟩ := exists_findIdx?_blocksOf h
  rw [shortest, hblocks, hfind]
  refine ⟨⟨hmem, toUInt8_ne_zero h hi⟩, ?_⟩
  rintro k ⟨hk, hne⟩
  obtain ⟨j, block', hj, rfl⟩ := exists_getElem?_blocksOf h hk hne
  exact toUInt8_le_toUInt8 h hi hj (hfirst j block' hj hk)

/-- The longest codewords are as long as the greatest length. -/
theorem isGreatest_longest (htable : ofLengths limits lengths = .ok table) :
    IsGreatest {l | l ∈ lengths ∧ l ≠ 0} table.longest := by
  have h := decodes_of_ofLengths htable
  have hpos := h.longest_pos
  refine ⟨⟨?_, fun h0 => ?_⟩, ?_⟩
  · obtain ⟨s, hs⟩ := ofLength_maxBits_nonempty h.realizable.maxBits_pos.ne'
    obtain ⟨hactive, hbits⟩ := mem_ofLength.1 hs
    obtain ⟨l, hl, -⟩ := mem_active_iff_getElem?.1 hactive
    rw [bitsOf_eq hl, ← h.toNat_longest, UInt8.toNat_inj] at hbits
    exact hbits ▸ List.mem_of_getElem? hl
  · rw [h0] at hpos
    exact Nat.lt_irrefl 0 hpos
  · rintro l ⟨hl, -⟩
    rw [UInt8.le_iff_toNat_le, h.toNat_longest]
    exact Layout.maxBits_le_iff.1 le_rfl l hl

/-- A table has a symbol for each length other than zero. -/
theorem size_eq (htable : ofLengths limits lengths = .ok table) :
    table.size = (lengths.filter (· ≠ 0)).length := by
  obtain ⟨layout, hlayout, rfl⟩ := Except.map_eq_ok_iff.1 htable
  exact (size_sortSymbols (Layout.describes_of_ofLengths hlayout)).trans (card_active lengths)

end PrefixCode.Table
