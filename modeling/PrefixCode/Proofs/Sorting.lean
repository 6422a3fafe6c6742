/-
# Sorting the symbols of a table

The symbols of a table are sorted by the length of their codewords in one pass, with one
cursor for each length.  The pass is stable: a symbol is stored at its `rank`, the number of
symbols whose codewords come before its own.  What is kept while symbols are stored is
`Filling.Holds`: each cursor has moved by the symbols of its length met so far, and every
symbol met so far stands at its rank.
-/
import Mathlib.Data.Finset.Card
import PrefixCode.Proofs.Layout
import PrefixCode.Table

namespace PrefixCode

/-! ### Ranks -/

namespace Lengths

/-- How many symbols have shorter codewords than `L` bits. -/
def shorter (lengths : List UInt8) (L : Nat) : Nat :=
  {r ∈ active lengths | bitsOf lengths r < L}.card

/-- How many codewords come before the one of a symbol. -/
def rank (lengths : List UInt8) (s : Nat) : Nat :=
  {r ∈ active lengths | Before lengths r s}.card

variable {lengths : List UInt8} {L r s : Nat}

lemma shorter_zero (lengths : List UInt8) : shorter lengths 0 = 0 := by
  simp [shorter]

/-- No codeword is shorter than one bit. -/
lemma shorter_one (lengths : List UInt8) : shorter lengths 1 = 0 := by
  rw [shorter, Finset.card_eq_zero, Finset.filter_eq_empty_iff]
  intro s hs
  have := bitsOf_pos hs
  omega

lemma shorter_succ (lengths : List UInt8) (L : Nat) :
    shorter lengths (L + 1) = shorter lengths L + (ofLength lengths L).card := by
  rw [shorter, filter_bitsOf_lt_succ, filter_bitsOf_le,
    Finset.card_union_of_disjoint (disjoint_shorter_ofLength lengths L), shorter]

/-- All codewords have at most the greatest length. -/
lemma shorter_maxBits_succ (lengths : List UInt8) :
    shorter lengths (maxBits lengths + 1) = (active lengths).card := by
  rw [shorter, Finset.filter_true_of_mem]
  intro s hs
  have := bitsOf_le_maxBits hs
  omega

/-- The codewords before a given one are the shorter ones and some of its own length. -/
lemma rank_eq_shorter_add (lengths : List UInt8) (s : Nat) :
    rank lengths s = shorter lengths (bitsOf lengths s) +
      {r ∈ ofLength lengths (bitsOf lengths s) | r < s}.card := by
  rw [rank, filter_before, Finset.card_union_of_disjoint (disjoint_before lengths s), shorter]

/-- Among the codewords of one length, places and ranks count the same symbols. -/
lemma place_add_shorter (lengths : List UInt8) (s : Nat) :
    place lengths s + shorter lengths (bitsOf lengths s) =
      below lengths (bitsOf lengths s) + rank lengths s := by
  have hplace := place_eq_below_add_card lengths s
  have hrank := rank_eq_shorter_add lengths s
  omega

lemma rank_lt_rank (hr : r ∈ active lengths) (h : Before lengths r s) :
    rank lengths r < rank lengths s := by
  refine Finset.card_lt_card ((Finset.ssubset_iff_of_subset ?_).2 ⟨r, ?_, ?_⟩)
  · exact Finset.monotone_filter_right _ fun t _ ht => ht.trans h
  · exact Finset.mem_filter.2 ⟨hr, h⟩
  · exact fun hmem => not_before_self lengths r (Finset.mem_filter.1 hmem).2

/-- Ranks are in the order of the codewords. -/
lemma before_iff_rank_lt (hr : r ∈ active lengths) (hs : s ∈ active lengths) :
    Before lengths r s ↔ rank lengths r < rank lengths s := by
  refine ⟨rank_lt_rank hr, fun hlt => ?_⟩
  have hne : r ≠ s := fun heq => Nat.lt_irrefl _ (heq ▸ hlt)
  exact (before_or_before lengths hne).resolve_right fun hsr =>
    Nat.lt_asymm hlt (rank_lt_rank hs hsr)

lemma rank_lt_card (hs : s ∈ active lengths) : rank lengths s < (active lengths).card := by
  refine Finset.card_lt_card ((Finset.ssubset_iff_of_subset (Finset.filter_subset _ _)).2
    ⟨s, hs, ?_⟩)
  exact fun hmem => not_before_self lengths s (Finset.mem_filter.1 hmem).2

lemma eq_of_rank_eq (hr : r ∈ active lengths) (hs : s ∈ active lengths)
    (h : rank lengths r = rank lengths s) : r = s := by
  by_contra hne
  rcases before_or_before lengths hne with hrs | hsr
  · have := rank_lt_rank hr hrs
    omega
  · have := rank_lt_rank hs hsr
    omega

/-- Every number up to the number of codewords is a rank. -/
lemma exists_rank_eq {k : Nat} (hk : k < (active lengths).card) :
    ∃ s ∈ active lengths, rank lengths s = k := by
  have hmaps : Set.MapsTo (rank lengths) (active lengths) (Finset.range (active lengths).card) :=
    fun s hs => Finset.mem_coe.2 (Finset.mem_range.2 (rank_lt_card hs))
  have hinj : Set.InjOn (rank lengths) (active lengths) := fun r hr s hs h =>
    eq_of_rank_eq hr hs h
  exact Finset.surjOn_of_injOn_of_card_le _ hmaps hinj (by simp)
    (Finset.mem_coe.2 (Finset.mem_range.2 hk))

lemma shorter_mono (lengths : List UInt8) {K : Nat} (h : K ≤ L) :
    shorter lengths K ≤ shorter lengths L :=
  Finset.card_le_card (Finset.monotone_filter_right _ fun s _ hs => by omega)

/-- Fewer symbols of its own length stand in front of a symbol than there are. -/
lemma card_ofLength_filter_lt (hs : s ∈ active lengths) :
    {r ∈ ofLength lengths (bitsOf lengths s) | r < s}.card <
      (ofLength lengths (bitsOf lengths s)).card := by
  refine Finset.card_lt_card ((Finset.ssubset_iff_of_subset (Finset.filter_subset _ _)).2
    ⟨s, mem_ofLength.2 ⟨hs, rfl⟩, ?_⟩)
  simp

/-- The codewords of one length and the shorter ones are no more than there are. -/
lemma shorter_add_card_le (lengths : List UInt8) (L : Nat) :
    shorter lengths L + (ofLength lengths L).card ≤ (active lengths).card := by
  rw [← shorter_succ]
  exact Finset.card_le_card (Finset.filter_subset _ _)

/-- The symbols of one length are those whose ranks follow the shorter codewords. -/
lemma mem_ofLength_iff_rank (hs : s ∈ active lengths) :
    s ∈ ofLength lengths L ↔ shorter lengths L ≤ rank lengths s ∧
      rank lengths s < shorter lengths L + (ofLength lengths L).card := by
  have hlt := card_ofLength_filter_lt hs
  have hrank := rank_eq_shorter_add lengths s
  constructor
  · intro hmem
    rw [(mem_ofLength.1 hmem).2] at hlt hrank
    omega
  · rintro ⟨hle, hgt⟩
    refine mem_ofLength.2 ⟨hs, ?_⟩
    -- a symbol of another length has its rank among those of that length
    rcases Nat.lt_trichotomy (bitsOf lengths s) L with h | h | h
    · have hmono := shorter_mono lengths (Nat.succ_le_of_lt h)
      rw [shorter_succ] at hmono
      omega
    · exact h
    · have hmono := shorter_mono lengths (Nat.succ_le_of_lt h)
      rw [shorter_succ] at hmono
      omega

/-- The ranks of the symbols of one length are consecutive. -/
lemma exists_mem_ofLength_rank_eq {k : Nat} (hk : k < (ofLength lengths L).card) :
    ∃ s ∈ ofLength lengths L, rank lengths s = shorter lengths L + k := by
  have hcard := shorter_add_card_le lengths L
  have hslot : shorter lengths L + k < (active lengths).card := by omega
  obtain ⟨s, hs, hrank⟩ := exists_rank_eq hslot
  exact ⟨s, (mem_ofLength_iff_rank hs).2 (by omega), hrank⟩

end Lengths

/-! ### The pass over the symbols -/

namespace Table

open PrefixCode.Lengths

variable {lengths : List UInt8} {layout : Layout}

lemma countBelow_eq (h : layout.Describes lengths) (L : Nat) :
    layout.countBelow L = shorter lengths L := by
  induction L with
  | zero => rw [shorter_zero]; rfl
  | succ L ih => rw [Layout.countBelow, ih, h.toNat_count, shorter_succ]

lemma size_blocksOf_eq_maxBits (h : layout.Describes lengths) :
    (blocksOf layout).size = maxBits lengths :=
  (size_blocksOf layout).trans h.toNat_longest

/-- The block of a length, by the number of its codewords and of the shorter ones. -/
lemma getElem?_blocksOf (h : layout.Describes lengths) {L : Nat} (hL : L < maxBits lengths) :
    (blocksOf layout)[L]? =
      some ⟨layout.first (L + 1), layout.count (L + 1), shorter lengths (L + 1)⟩ := by
  rw [blocksOf, Array.getElem?_map, Array.getElem?_range,
    if_pos (by rw [h.toNat_longest]; exact hL), Option.map_some, countBelow_eq h]

/-- There is a block of each length that a codeword may have, and no other. -/
lemma getElem?_blocksOf_eq_some_iff (h : layout.Describes lengths) {i : Nat} {block : Block} :
    (blocksOf layout)[i]? = some block ↔ i < maxBits lengths ∧
      block = ⟨layout.first (i + 1), layout.count (i + 1), shorter lengths (i + 1)⟩ := by
  constructor
  · intro hblock
    obtain ⟨hlt, -⟩ := Array.getElem?_eq_some_iff.1 hblock
    rw [size_blocksOf_eq_maxBits h] at hlt
    rw [getElem?_blocksOf h hlt, Option.some.injEq] at hblock
    exact ⟨hlt, hblock.symm⟩
  · rintro ⟨hlt, rfl⟩
    exact getElem?_blocksOf h hlt

/-- The array after the first `n` symbols have been stored. -/
def filling (layout : Layout) (lengths : List UInt8) (n : Nat) : Filling :=
  (lengths.take n).zipIdx.foldl (fun filling entry => filling.place entry.1 entry.2)
    (Filling.empty layout)

lemma filling_zero (layout : Layout) (lengths : List UInt8) :
    filling layout lengths 0 = Filling.empty layout := by
  simp [filling]

lemma filling_succ (layout : Layout) {n : Nat} {l : UInt8} (h : lengths[n]? = some l) :
    filling layout lengths (n + 1) = (filling layout lengths n).place l n := by
  obtain ⟨hn, rfl⟩ := List.getElem?_eq_some_iff.1 h
  rw [filling, List.take_succ_eq_append_getElem hn, List.zipIdx_append, List.foldl_append]
  simp [filling, hn.le]

lemma slots_filling_length (layout : Layout) (lengths : List UInt8) :
    (filling layout lengths lengths.length).slots = sortSymbols layout lengths := by
  rw [filling, List.take_length, sortSymbols]

/-- What a filling has come to after the first `n` symbols: each cursor stands behind the
symbols of its length that have been stored, and these stand at their ranks. -/
structure Filling.Holds (filling : Filling) (lengths : List UInt8) (n : Nat) : Prop where
  size_slots : filling.slots.size = (active lengths).card
  size_cursors : filling.cursors.size = maxBits lengths
  getD_cursors : ∀ L < maxBits lengths, filling.cursors.getD L 0 =
    shorter lengths (L + 1) + {r ∈ ofLength lengths (L + 1) | r < n}.card
  getElem?_slots : ∀ s ∈ active lengths, s < n →
    filling.slots[rank lengths s]? = some s.toUInt16

/-- At first every cursor stands at the beginning of its block. -/
lemma holds_empty (h : layout.Describes lengths) : (Filling.empty layout).Holds lengths 0 := by
  refine ⟨?_, ?_, fun L hL => ?_, fun s _ hs => absurd hs (Nat.not_lt_zero s)⟩
  · rw [Filling.empty, Array.size_replicate, countBelow_eq h, h.toNat_longest,
      shorter_maxBits_succ]
  · rw [Filling.empty, Array.size_map, size_blocksOf_eq_maxBits h]
  · rw [Filling.empty, Array.getD_eq_getD_getElem?, Array.getElem?_map, getElem?_blocksOf h hL]
    simp

/-- Storing a symbol moves the cursor of its length on, and no other. -/
lemma Filling.getD_cursors_place (filling : Filling) {l : UInt8} (hl : l ≠ 0) (s : Nat) {L : Nat}
    (hL : L < filling.cursors.size) :
    (filling.place l s).cursors.getD L 0 =
      filling.cursors.getD L 0 + if l.toNat - 1 = L then 1 else 0 := by
  rw [Filling.place, if_neg hl, Array.getD_eq_getD_getElem?, Array.getD_eq_getD_getElem?,
    Array.getElem?_modify, Array.getElem?_eq_getElem hL]
  split <;> rfl

/-- A symbol without a codeword changes nothing, and there is nothing it has to change. -/
lemma Filling.Holds.skip {filling : Filling} {n : Nat} (h : filling.Holds lengths n)
    (hn : n ∉ active lengths) : filling.Holds lengths (n + 1) := by
  refine ⟨h.size_slots, h.size_cursors, fun L hL => ?_, fun s hs hsn => ?_⟩
  · have hmem : n ∉ ofLength lengths (L + 1) := fun hmem => hn (mem_ofLength.1 hmem).1
    rw [h.getD_cursors L hL, Finset.card_filter_lt_succ, if_neg hmem]
    rfl
  · have hne : s ≠ n := fun heq => hn (heq ▸ hs)
    exact h.getElem?_slots s hs (by omega)

/-- Storing a symbol at its rank, where the cursor of its length stands, keeps what has been
stored, and moves on to the next symbol. -/
lemma Filling.Holds.place {filling : Filling} {n : Nat} {l : UInt8} (h : filling.Holds lengths n)
    (hn : lengths[n]? = some l) (hl : l ≠ 0) : (filling.place l n).Holds lengths (n + 1) := by
  have hmem : n ∈ active lengths := mem_active_iff_getElem?.2 ⟨l, hn, hl⟩
  have hbits := bitsOf_eq hn
  have hpos := bitsOf_pos hmem
  have hle := bitsOf_le_maxBits hmem
  have hcursor : filling.cursors.getD (l.toNat - 1) 0 = rank lengths n := by
    rw [h.getD_cursors _ (by omega), Nat.sub_add_cancel (by omega), rank_eq_shorter_add, hbits]
  refine ⟨?_, ?_, fun L hL => ?_, fun s hs hsn => ?_⟩
  · rw [Filling.place, if_neg hl, Array.size_setIfInBounds, h.size_slots]
  · rw [Filling.place, if_neg hl, Array.size_modify, h.size_cursors]
  · have hiff : n ∈ ofLength lengths (L + 1) ↔ l.toNat - 1 = L := by
      rw [mem_ofLength, hbits]
      exact ⟨fun h => by omega, fun h => ⟨hmem, by omega⟩⟩
    rw [filling.getD_cursors_place hl n (h.size_cursors ▸ hL), h.getD_cursors L hL,
      Finset.card_filter_lt_succ, Nat.add_assoc]
    simp only [hiff]
  · rw [Filling.place, if_neg hl, hcursor, Array.getElem?_setIfInBounds]
    by_cases heq : s = n
    · rw [heq, if_pos rfl, if_pos (by rw [h.size_slots]; exact rank_lt_card hmem)]
    -- other symbols have other ranks, so their slots stay as they were
    · rw [if_neg fun hrank => heq (eq_of_rank_eq hmem hs hrank).symm]
      exact h.getElem?_slots s hs (by omega)

/-- The whole pass. -/
lemma holds_filling (h : layout.Describes lengths) {n : Nat} (hn : n ≤ lengths.length) :
    (filling layout lengths n).Holds lengths n := by
  induction n with
  | zero => rw [filling_zero]; exact holds_empty h
  | succ n ih =>
    have hget := List.getElem?_eq_getElem (l := lengths) (i := n) (by omega)
    rw [filling_succ layout hget]
    by_cases hl : lengths[n] = 0
    · have hbits : bitsOf lengths n = 0 := by rw [bitsOf_eq hget, hl]; rfl
      have hn : n ∉ active lengths := fun hmem => mem_active.1 hmem hbits
      rw [Filling.place, if_pos hl]
      exact (ih (by omega)).skip hn
    · exact (ih (by omega)).place hget hl

/-- There is a slot for each symbol that has a codeword. -/
theorem size_sortSymbols (h : layout.Describes lengths) :
    (sortSymbols layout lengths).size = (active lengths).card := by
  rw [← slots_filling_length]
  exact (holds_filling h le_rfl).size_slots

/-- Each symbol is stored at its rank. -/
theorem getElem?_sortSymbols (h : layout.Describes lengths) {s : Nat} (hs : s ∈ active lengths) :
    (sortSymbols layout lengths)[rank lengths s]? = some s.toUInt16 := by
  rw [← slots_filling_length]
  exact (holds_filling h le_rfl).getElem?_slots s hs (lt_length_of_mem_active hs)

/-- What is stored in a slot is the symbol of this rank. -/
theorem rank_eq_of_getElem?_sortSymbols (h : layout.Describes lengths) {i : Nat} {symbol : UInt16}
    (hi : (sortSymbols layout lengths)[i]? = some symbol) :
    symbol.toNat ∈ active lengths ∧ rank lengths symbol.toNat = i := by
  obtain ⟨hlt, -⟩ := Array.getElem?_eq_some_iff.1 hi
  rw [size_sortSymbols h] at hlt
  obtain ⟨s, hs, rfl⟩ := exists_rank_eq hlt
  rw [getElem?_sortSymbols h hs, Option.some.injEq] at hi
  rw [← hi, h.realizable.toNat_toUInt16 (lt_length_of_mem_active hs)]
  exact ⟨hs, rfl⟩

/-- Symbols are stored in canonical order. -/
lemma pairwise_before_sortSymbols (h : layout.Describes lengths) :
    (sortSymbols layout lengths).toList.Pairwise fun r s => Before lengths r.toNat s.toNat := by
  refine List.pairwise_iff_getElem.2 fun i j hi hj hlt => ?_
  obtain ⟨hr, hri⟩ := rank_eq_of_getElem?_sortSymbols h (Array.getElem?_eq_getElem hi)
  obtain ⟨hs, hsj⟩ := rank_eq_of_getElem?_sortSymbols h (Array.getElem?_eq_getElem hj)
  rw [Array.getElem_toList, Array.getElem_toList, before_iff_rank_lt hr hs, hri, hsj]
  exact hlt

end Table

end PrefixCode
