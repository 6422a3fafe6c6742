/-
# Filling the array of symbols

The array of symbols is filled in one pass with one cursor for each length, and nothing in the pass
looks whether a cursor has run into the next block or whether a slot has been taken already.  It
need not: the blocks lie one after the other as the counts say (`Tiles`), a cursor has as far to go
as there are symbols of its length (`cursor_mem_block`), and the slot where a symbol is stored is
its rank (`slotOf?_eq_some_iff`), which is the rank of no other symbol.  Hence the array is the list
of the symbols sorted by the length of their codewords, where those of one length stay as they were
(`map_sortSymbols_eq_byLength`), and whatever a table looks up is found within the array.
-/
import Mathlib.Data.List.Sort
import PrefixCode.Proofs.Observation

namespace List

/-- What stands in order already is not moved by sorting. -/
lemma filter_mergeSort {α : Type} {le : α → α → Bool} {p : α → Bool}
    (trans : ∀ a b c, le a b → le b c → le a c) (total : ∀ a b, le a b || le b a) {l : List α}
    (h : (l.filter p).Pairwise (le · ·)) : (l.mergeSort le).filter p = l.filter p := by
  have hsub : (l.filter p).Sublist (l.mergeSort le) :=
    List.sublist_mergeSort trans total h List.filter_sublist
  have hfilter := hsub.filter p
  rw [List.filter_filter] at hfilter
  simp only [Bool.and_self] at hfilter
  exact (hfilter.eq_of_length ((List.mergeSort_perm l le).filter p).length_eq.symm).symm

end List

namespace PrefixCode

open PrefixCode.Lengths

variable {limits : Limits} {lengths : List UInt8} {layout : Layout} {table : Table}

/-! ### Stable sorting -/

namespace Lengths

/-- The symbols that have a codeword, as they follow each other in the alphabet. -/
def activeList (lengths : List UInt8) : List Nat :=
  (List.range lengths.length).filter (· ∈ active lengths)

variable {s : Nat}

lemma mem_activeList : s ∈ activeList lengths ↔ s ∈ active lengths := by
  rw [activeList, List.mem_filter, List.mem_range, decide_eq_true_iff]
  exact and_iff_right_of_imp lt_length_of_mem_active

lemma pairwise_lt_activeList (lengths : List UInt8) : (activeList lengths).Pairwise (· < ·) :=
  List.pairwise_lt_range.filter _

/-- The symbols that have a codeword, shorter codewords first, and otherwise as they follow each
other in the alphabet. -/
def byLength (lengths : List UInt8) : List Nat :=
  (activeList lengths).mergeSort fun r s => bitsOf lengths r ≤ bitsOf lengths s

lemma byLength_perm (lengths : List UInt8) : (byLength lengths).Perm (activeList lengths) :=
  List.mergeSort_perm _ _

/-- Sorting by length alone puts the symbols into canonical order. -/
theorem pairwise_before_byLength (lengths : List UInt8) :
    (byLength lengths).Pairwise (Before lengths) := by
  have trans : ∀ a b c, decide (bitsOf lengths a ≤ bitsOf lengths b) →
      decide (bitsOf lengths b ≤ bitsOf lengths c) →
        decide (bitsOf lengths a ≤ bitsOf lengths c) := by
    simpa using fun a b c hab hbc => Nat.le_trans hab hbc
  have total : ∀ a b, decide (bitsOf lengths a ≤ bitsOf lengths b) ||
      decide (bitsOf lengths b ≤ bitsOf lengths a) := by
    simpa using fun a b => Nat.le_total _ _
  have hsorted : (byLength lengths).Pairwise fun r s =>
      decide (bitsOf lengths r ≤ bitsOf lengths s) = true :=
    List.pairwise_mergeSort trans total _
  refine List.pairwise_iff_forall_sublist.2 fun {r s} hrs => ?_
  have hle : bitsOf lengths r ≤ bitsOf lengths s := by
    simpa using hsorted.forall_sublist hrs
  refine hle.lt_or_eq.imp_right fun heq => ⟨heq, ?_⟩
  -- the symbols of one length are left as they were, and so are these two
  have hclass : (byLength lengths).filter (bitsOf lengths · = bitsOf lengths s) =
      (activeList lengths).filter (bitsOf lengths · = bitsOf lengths s) := by
    refine List.filter_mergeSort trans total (List.pairwise_of_forall_mem_list fun a ha b hb => ?_)
    have ha := (List.mem_filter.1 ha).2
    have hb := (List.mem_filter.1 hb).2
    simp only [decide_eq_true_eq] at ha hb ⊢
    omega
  have hpair := hrs.filter (bitsOf lengths · = bitsOf lengths s)
  rw [hclass, List.filter_cons_of_pos (by simpa using heq), List.filter_cons_of_pos (by simp),
    List.filter_nil] at hpair
  exact (pairwise_lt_activeList lengths).forall_sublist (hpair.trans List.filter_sublist)

end Lengths

namespace Table

/-- The array of symbols is the list of the symbols that have a codeword, sorted by length. -/
theorem map_sortSymbols_eq_byLength (h : layout.Describes lengths) :
    (sortSymbols layout lengths).toList.map UInt16.toNat = byLength lengths := by
  have hbefore : ((sortSymbols layout lengths).toList.map UInt16.toNat).Pairwise
      (Before lengths) := List.pairwise_map.2 (pairwise_before_sortSymbols h)
  have hnodup : ((sortSymbols layout lengths).toList.map UInt16.toNat).Nodup := by
    refine hbefore.imp ?_
    rintro s _ hself rfl
    exact not_before_self lengths s hself
  have hperm : ((sortSymbols layout lengths).toList.map UInt16.toNat).Perm
      (activeList lengths) := by
    refine (List.perm_ext_iff_of_nodup hnodup
      ((pairwise_lt_activeList lengths).imp Nat.ne_of_lt)).2 fun s => ?_
    rw [mem_activeList, List.mem_map]
    constructor
    · rintro ⟨symbol, hsymbol, rfl⟩
      obtain ⟨i, hi⟩ := List.mem_iff_getElem?.1 hsymbol
      rw [Array.getElem?_toList] at hi
      exact (rank_eq_of_getElem?_sortSymbols h hi).1
    · intro hs
      have hslot := getElem?_sortSymbols h hs
      rw [← Array.getElem?_toList] at hslot
      exact ⟨_, List.mem_of_getElem? hslot,
        h.realizable.toNat_toUInt16 (lt_length_of_mem_active hs)⟩
  exact List.Perm.eq_of_pairwise
    (fun r s _ _ hrs hsr => absurd (hrs.trans hsr) (not_before_self lengths r))
    hbefore (pairwise_before_byLength lengths) (hperm.trans (byLength_perm lengths).symm)

/-! ### Blocks side by side -/

/-- The blocks of a table are as long as their lengths have symbols, and lie one after the other in
the array of symbols. -/
structure Tiles (table : Table) (lengths : List UInt8) : Prop where
  size_blocks : table.blocks.size = table.longest.toNat
  toNat_count : ∀ i block, table.blocks[i]? = some block →
    block.count.toNat = lengths.count (i + 1).toUInt8
  offset_eq : ∀ i block, table.blocks[i]? = some block →
    block.offset = ((table.blocks.toList.take i).map fun block => block.count.toNat).sum
  stop_back : table.blocks.back?.map Block.stop = some table.symbols.size

/-- Where a block ends. -/
lemma stop_eq_shorter (h : layout.Describes lengths) {i : Nat} {block : Block}
    (hblock : (blocksOf layout)[i]? = some block) : block.stop = shorter lengths (i + 2) := by
  obtain ⟨-, rfl⟩ := (getElem?_blocksOf_eq_some_iff h).1 hblock
  rw [Block.stop, h.toNat_count, ← shorter_succ]

/-- A block ends within the array. -/
lemma stop_le_size (h : layout.Describes lengths) {i : Nat} {block : Block}
    (hblock : (blocksOf layout)[i]? = some block) :
    block.stop ≤ (sortSymbols layout lengths).size := by
  rw [stop_eq_shorter h hblock, size_sortSymbols h]
  exact Finset.card_le_card (Finset.filter_subset _ _)

/-- The blocks of the first `i` lengths hold the symbols that are shorter than the next length. -/
lemma sum_take_blocksOf (h : layout.Describes lengths) {i : Nat} (hi : i ≤ maxBits lengths) :
    (((blocksOf layout).toList.take i).map fun block => block.count.toNat).sum =
      shorter lengths (i + 1) := by
  induction i with
  | zero => simp [shorter_one]
  | succ i ih =>
    have hblock := getElem?_blocksOf h (Nat.lt_of_succ_le hi)
    rw [← Array.getElem?_toList] at hblock
    rw [List.take_add_one, hblock, List.map_append, List.sum_append, ih (Nat.le_of_succ_le hi),
      shorter_succ lengths (i + 1)]
    simp [h.toNat_count]

theorem tiles_ofLayout (h : layout.Describes lengths) :
    (ofLayout layout lengths).Tiles lengths := by
  have hpos := h.realizable.maxBits_pos
  refine ⟨size_blocksOf layout, fun i block hblock => ?_, fun i block hblock => ?_, ?_⟩
  · exact toNat_count_block h hblock
  · obtain ⟨hi, rfl⟩ := (getElem?_blocksOf_eq_some_iff h).1 hblock
    exact (sum_take_blocksOf h hi.le).symm
  · have hlast := getElem?_blocksOf h (Nat.sub_lt hpos Nat.one_pos)
    have hsize : (ofLayout layout lengths).symbols.size = (active lengths).card :=
      size_sortSymbols h
    have hback : (ofLayout layout lengths).blocks.back? = (blocksOf layout)[maxBits lengths - 1]? :=
      by rw [Array.back?, ofLayout, size_blocksOf_eq_maxBits h]
    rw [hback, hlast, Option.map_some, stop_eq_shorter h hlast, hsize, ← shorter_maxBits_succ,
      show maxBits lengths - 1 + 2 = maxBits lengths + 1 by omega]

/-! ### Cursors -/

/-- Each cursor stands behind the shorter codewords and those of its length that have been met. -/
lemma Filling.Holds.getElem?_cursors {filling : Filling} {n : Nat} (h : filling.Holds lengths n)
    {i : Nat} (hi : i < maxBits lengths) :
    filling.cursors[i]? =
      some (shorter lengths (i + 1) + {r ∈ ofLength lengths (i + 1) | r < n}.card) := by
  have hsize : i < filling.cursors.size := by rwa [h.size_cursors]
  have hgetD := h.getD_cursors i hi
  rw [Array.getD_eq_getD_getElem?, Array.getElem?_eq_getElem hsize, Option.getD_some] at hgetD
  rw [Array.getElem?_eq_getElem hsize, hgetD]

/-- A cursor starts at the beginning of its block, and does not get beyond its end. -/
theorem cursor_mem_block (h : layout.Describes lengths) {n : Nat} (hn : n ≤ lengths.length)
    {i : Nat} {block : Block} (hblock : (blocksOf layout)[i]? = some block) :
    ∃ cursor, (filling layout lengths n).cursors[i]? = some cursor ∧
      block.offset ≤ cursor ∧ cursor ≤ block.stop := by
  obtain ⟨hi, rfl⟩ := (getElem?_blocksOf_eq_some_iff h).1 hblock
  refine ⟨_, (holds_filling h hn).getElem?_cursors hi, Nat.le_add_right _ _, ?_⟩
  rw [Block.stop, h.toNat_count]
  exact Nat.add_le_add_left (Finset.card_le_card (Finset.filter_subset _ _)) _

/-- Where a symbol is stored: where the cursor of its length stands when the symbol is met.  A
symbol without a codeword is not stored. -/
def slotOf? (layout : Layout) (lengths : List UInt8) (s : Nat) : Option Nat :=
  (lengths[s]?.filter (· ≠ 0)).bind fun l => (filling layout lengths s).cursors[l.toNat - 1]?

/-- When a symbol is met, the cursor of its length stands at its rank. -/
lemma getElem?_cursors_filling (h : layout.Describes lengths) {s : Nat} {l : UInt8}
    (hs : lengths[s]? = some l) (hl : l ≠ 0) :
    (filling layout lengths s).cursors[l.toNat - 1]? = some (rank lengths s) := by
  have hmem : s ∈ active lengths := mem_active_iff_getElem?.2 ⟨l, hs, hl⟩
  have hpos := bitsOf_pos hmem
  have hle := bitsOf_le_maxBits hmem
  have hholds := holds_filling h (lt_length_of_mem_active hmem).le
  rw [← bitsOf_eq hs, hholds.getElem?_cursors (by omega), Nat.sub_add_cancel hpos,
    ← rank_eq_shorter_add]

/-- The slot of a symbol is its rank. -/
theorem slotOf?_eq_some_iff (h : layout.Describes lengths) {s slot : Nat} :
    slotOf? layout lengths s = some slot ↔ s ∈ active lengths ∧ rank lengths s = slot := by
  simp only [slotOf?, Option.bind_eq_some_iff, Option.filter_eq_some_iff, decide_eq_true_eq,
    mem_active_iff_getElem?]
  constructor
  · rintro ⟨l, ⟨hs, hl⟩, hslot⟩
    rw [getElem?_cursors_filling h hs hl, Option.some.injEq] at hslot
    exact ⟨⟨l, hs, hl⟩, hslot⟩
  · rintro ⟨⟨l, hs, hl⟩, rfl⟩
    exact ⟨l, ⟨hs, hl⟩, getElem?_cursors_filling h hs hl⟩

/-- Each slot is the slot of one symbol. -/
theorem existsUnique_slotOf? (h : layout.Describes lengths) {slot : Nat}
    (hslot : slot < (sortSymbols layout lengths).size) :
    ∃! s, slotOf? layout lengths s = some slot := by
  rw [size_sortSymbols h] at hslot
  obtain ⟨s, hs, hrank⟩ := exists_rank_eq hslot
  refine ⟨s, (slotOf?_eq_some_iff h).2 ⟨hs, hrank⟩, fun r hr => ?_⟩
  obtain ⟨hr, heq⟩ := (slotOf?_eq_some_iff h).1 hr
  exact eq_of_rank_eq hr hs (heq.trans hrank.symm)

/-- The slot of a symbol lies in the block of its length. -/
theorem slotOf?_mem_block (h : layout.Describes lengths) {s : Nat} {l : UInt8}
    (hs : lengths[s]? = some l) (hl : l ≠ 0) :
    ∃ slot block, slotOf? layout lengths s = some slot ∧
      (blocksOf layout)[l.toNat - 1]? = some block ∧ block.offset ≤ slot ∧ slot < block.stop := by
  have hmem : s ∈ active lengths := mem_active_iff_getElem?.2 ⟨l, hs, hl⟩
  have hpos := bitsOf_pos hmem
  have hle := bitsOf_le_maxBits hmem
  have hbits := bitsOf_eq hs
  have hblock := getElem?_blocksOf h (show l.toNat - 1 < maxBits lengths by omega)
  obtain ⟨hfrom, hto⟩ := (mem_ofLength_iff_rank hmem).1 ((mem_ofLength_toNat hl).2 hs)
  rw [Nat.sub_add_cancel (by omega)] at hblock
  refine ⟨rank lengths s, _, (slotOf?_eq_some_iff h).2 ⟨hmem, rfl⟩, hblock, hfrom, ?_⟩
  rwa [Block.stop, h.toNat_count]

/-! ### The pass as a whole -/

/-- The pass over the symbols writes into each slot once, no cursor leaves its block, and no symbol
is too great for a slot. -/
structure FilledBy (table : Table) (layout : Layout) (lengths : List UInt8) : Prop where
  symbols_eq : table.symbols = (filling layout lengths lengths.length).slots
  cursor_mem_block : ∀ n ≤ lengths.length, ∀ (i : Nat) (block : Block),
    table.blocks[i]? = some block → ∃ cursor, (filling layout lengths n).cursors[i]? = some cursor ∧
      block.offset ≤ cursor ∧ cursor ≤ block.stop
  slot_mem_block : ∀ (s : Nat) (l : UInt8), lengths[s]? = some l → l ≠ 0 →
    ∃ (slot : Nat) (block : Block), slotOf? layout lengths s = some slot ∧
      table.blocks[l.toNat - 1]? = some block ∧ block.offset ≤ slot ∧ slot < block.stop
  slot_lt_size : ∀ s slot, slotOf? layout lengths s = some slot →
    slot < (filling layout lengths s).slots.size
  existsUnique_slot : ∀ slot < table.symbols.size, ∃! s, slotOf? layout lengths s = some slot
  symbol_slot : ∀ (s slot : Nat), slotOf? layout lengths s = some slot →
    table.symbols[slot]? = some s.toUInt16 ∧ s.toUInt16.toNat = s

theorem filledBy_ofLayout (h : layout.Describes lengths) :
    (ofLayout layout lengths).FilledBy layout lengths where
  symbols_eq := (slots_filling_length layout lengths).symm
  cursor_mem_block _ hn _ _ hblock := cursor_mem_block h hn hblock
  slot_mem_block _ _ hs hl := slotOf?_mem_block h hs hl
  slot_lt_size s slot hslot := by
    obtain ⟨hs, rfl⟩ := (slotOf?_eq_some_iff h).1 hslot
    rw [(holds_filling h (lt_length_of_mem_active hs).le).size_slots]
    exact rank_lt_card hs
  existsUnique_slot _ hslot := existsUnique_slotOf? h hslot
  symbol_slot s slot hslot := by
    obtain ⟨hs, rfl⟩ := (slotOf?_eq_some_iff h).1 hslot
    exact ⟨getElem?_sortSymbols h hs, h.realizable.toNat_toUInt16 (lt_length_of_mem_active hs)⟩

/-- What is looked up while a table is made, and in the table, is within the arrays. -/
structure InBounds (table : Table) (layout : Layout) (lengths : List UInt8) : Prop where
  size_counts : layout.counts.size = layout.longest.toNat + 1
  size_starts : layout.starts.size = layout.longest.toNat + 1
  le_longest : ∀ l ∈ lengths, l ≤ layout.longest
  slot_lt_size : ∀ code slot, table.slot? code = some slot → slot < table.symbols.size
  stop_le_size : ∀ length block, table.block? length = some block →
    block.stop ≤ table.symbols.size
  stop_le_size_of_mem : ∀ (i : Nat) (block : Block), table.blocks[i]? = some block →
    block.stop ≤ table.symbols.size

/-- The arrays of a layout have an entry for each length and one for zero. -/
lemma size_of_ofCounts {requireComplete : Bool} {longest : UInt8} {counts : Array UInt32}
    (h : Layout.ofCounts requireComplete longest counts = .ok layout) :
    layout.longest = longest ∧ layout.counts = counts ∧
      layout.starts.size = longest.toNat + 1 := by
  rw [Layout.ofCounts] at h
  split at h
  · cases h
  dsimp only at h
  split at h
  · cases h
  obtain rfl := Except.ok.inj h
  exact ⟨rfl, rfl, by simp⟩

theorem inBounds_ofLayout (hlayout : Layout.ofLengths limits lengths = .ok layout) :
    (ofLayout layout lengths).InBounds layout lengths := by
  have h := Layout.describes_of_ofLengths hlayout
  obtain ⟨-, -, -, -, -, hcounts⟩ := Layout.ofLengths_eq_ok_iff.1 hlayout
  obtain ⟨hlongest, hcounts, hstarts⟩ := size_of_ofCounts hcounts
  refine ⟨?_, ?_, fun l hl => ?_, fun code slot hslot => ?_, fun length block hblock => ?_,
    fun i block hblock => stop_le_size h hblock⟩
  · rw [hcounts, hlongest, Layout.size_tally]
  · rw [hstarts, hlongest]
  · rw [UInt8.le_iff_toNat_le, h.toNat_longest]
    obtain ⟨s, hs⟩ := List.mem_iff_getElem?.1 hl
    by_cases hne : l = 0
    · rw [hne]
      exact Nat.zero_le _
    · exact toNat_le_maxBits hs hne
  · obtain ⟨s, hs, rfl⟩ := (slot?_eq_some_iff_rank h).1 hslot
    exact (rank_lt_card hs.active).trans_eq (size_sortSymbols h).symm
  · exact stop_le_size h (block?_eq_some_iff.1 hblock).2.1

/-- **The array of symbols is filled slot by slot.**  It comes to be the list of the symbols that
have a codeword, sorted by length, where those of one length stay in order.  The blocks are one for
each length, and lie side by side from the beginning of the array to its end; while it is filled, no
cursor leaves its block and each slot is written once; and neither the construction of a table nor
the queries reach beyond an array. -/
theorem symbols_are_filled_in (htable : ofLengths limits lengths = .ok table) :
    table.symbols.toList.map UInt16.toNat = byLength lengths ∧
    (table.symbols.toList.map UInt16.toNat).Pairwise (fun r s =>
      bitsOf lengths r < bitsOf lengths s ∨ bitsOf lengths r = bitsOf lengths s ∧ r < s) ∧
    table.Tiles lengths ∧
    ∃ layout, Layout.ofLengths limits lengths = .ok layout ∧ table = ofLayout layout lengths ∧
      table.FilledBy layout lengths ∧ table.InBounds layout lengths := by
  obtain ⟨layout, hlayout, rfl⟩ := Except.map_eq_ok_iff.1 htable
  have h := Layout.describes_of_ofLengths hlayout
  have hsorted := map_sortSymbols_eq_byLength h
  refine ⟨hsorted, ?_, tiles_ofLayout h, layout, hlayout, rfl, filledBy_ofLayout h,
    inBounds_ofLayout hlayout⟩
  exact hsorted ▸ pairwise_before_byLength lengths

/-- Three symbols of two lengths: the one with the short codeword comes first, the others follow in
order, and the last of them is stored where the cursor of three bits has moved to. -/
theorem filling_of_three_symbols : ∃ table layout,
    ofLengths .deflate [3, 0, 1, 3] = .ok table ∧
    table.symbols.toList.map UInt16.toNat = byLength [3, 0, 1, 3] ∧
    table.symbols = #[2, 0, 3] ∧ table.blocks.back?.map Block.stop = some table.symbols.size ∧
    table.FilledBy layout [3, 0, 1, 3] ∧ slotOf? layout [3, 0, 1, 3] 3 = some 2 := by
  have htable : ofLengths .deflate [3, 0, 1, 3] =
      .ok ⟨3, #[⟨0, 1, 0⟩, ⟨2, 0, 1⟩, ⟨4, 2, 1⟩], #[2, 0, 3], false⟩ := by decide +kernel
  obtain ⟨hsorted, -, htiles, layout, hlayout, -, hfilled, -⟩ := symbols_are_filled_in htable
  have hlayout' : Layout.ofLengths .deflate [3, 0, 1, 3] =
      .ok ⟨3, #[0, 1, 0, 2], #[0, 0, 2, 4], false⟩ := by decide +kernel
  obtain rfl := Except.ok.inj (hlayout.symm.trans hlayout')
  exact ⟨_, _, htable, hsorted, rfl, htiles.stop_back, hfilled, by decide +kernel⟩

end Table

end PrefixCode
