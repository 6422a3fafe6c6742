/-
# What a table shows of its lengths

Tables are compared field by field, and some of what they hold is never looked up: the first
numbers of lengths that no codeword has, the offsets of blocks, the flag for completeness.  All of
it is determined by the lengths of the symbols, and neither by the limits under which a table was
made nor by symbols without codewords at the end of the alphabet (`ofLayout_congr`).  Conversely,
each way of using a table shows the bits of every codeword, and their number is the length of the
symbol (`bitsOf_eq_of_spells`).  So equal tables are the ones that cannot be told apart.
-/
import Mathlib.Tactic.TFAE
import PrefixCode.Proofs.Coverage
import PrefixCode.Proofs.RoundTrip

namespace PrefixCode

/-! ### Lists with the same lengths -/

namespace Lengths

variable {a b : List UInt8}

lemma bitsOf_eq_iff : bitsOf a = bitsOf b ↔ ∀ s, a.getD s 0 = b.getD s 0 := by
  simp only [funext_iff, bitsOf, UInt8.toNat_inj]

lemma active_congr (h : bitsOf a = bitsOf b) : active a = active b := by
  ext s
  rw [mem_active, mem_active, h]

lemma ofLength_congr (h : bitsOf a = bitsOf b) (L : Nat) : ofLength a L = ofLength b L := by
  rw [ofLength, ofLength, active_congr h, h]

lemma maxBits_congr (h : bitsOf a = bitsOf b) : maxBits a = maxBits b := by
  rw [maxBits, maxBits, active_congr h, h]

lemma kraft_congr (h : bitsOf a = bitsOf b) (L : Nat) : kraft a L = kraft b L := by
  rw [kraft, kraft, active_congr h, h]

lemma below_congr (h : bitsOf a = bitsOf b) (L : Nat) : below a L = below b L := by
  rw [below, below, active_congr h, h]

lemma shorter_congr (h : bitsOf a = bitsOf b) (L : Nat) : shorter a L = shorter b L := by
  rw [shorter, shorter, active_congr h, h]

lemma rank_congr (h : bitsOf a = bitsOf b) (s : Nat) : rank a s = rank b s := by
  rw [rank, rank, active_congr h]
  refine congrArg Finset.card (Finset.filter_congr fun r _ => ?_)
  rw [Before, Before, h]

end Lengths

open PrefixCode.Lengths

variable {a b lengths : List UInt8} {limits limits' : Limits} {layout layout' : Layout}
  {table A B : Table} {code : Codeword} {symbol : UInt16} {bits : List Bool} {s : Nat}

namespace Table

/-! ### From the lengths to the table -/

lemma blocksOf_congr (ha : layout.Describes a) (hb : layout'.Describes b)
    (h : bitsOf a = bitsOf b) : blocksOf layout = blocksOf layout' := by
  have hmax := maxBits_congr h
  have hsize := size_blocksOf_eq_maxBits ha
  have hsize' := size_blocksOf_eq_maxBits hb
  refine Array.ext_getElem? fun i => ?_
  rcases Nat.lt_or_ge i (maxBits a) with hlt | hge
  · have hfirst : layout.first (i + 1) = layout'.first (i + 1) := by
      rw [← UInt32.toNat_inj, ha.toNat_first _ hlt, hb.toNat_first _ (hmax ▸ hlt), below_congr h]
    have hcount : layout.count (i + 1) = layout'.count (i + 1) := by
      rw [← UInt32.toNat_inj, ha.toNat_count, hb.toNat_count, ofLength_congr h]
    rw [getElem?_blocksOf ha hlt, getElem?_blocksOf hb (hmax ▸ hlt), hfirst, hcount,
      shorter_congr h]
  · rw [Array.getElem?_eq_none (by omega), Array.getElem?_eq_none (by omega)]

lemma sortSymbols_congr (ha : layout.Describes a) (hb : layout'.Describes b)
    (h : bitsOf a = bitsOf b) : sortSymbols layout a = sortSymbols layout' b := by
  have hsize := size_sortSymbols ha
  have hsize' := size_sortSymbols hb
  rw [← active_congr h] at hsize'
  refine Array.ext_getElem? fun i => ?_
  rcases Nat.lt_or_ge i (active a).card with hlt | hge
  -- each slot is the rank of a symbol, which is stored there in both
  · obtain ⟨s, hs, rfl⟩ := exists_rank_eq hlt
    have hslot' := getElem?_sortSymbols hb (active_congr h ▸ hs)
    rw [← rank_congr h] at hslot'
    rw [getElem?_sortSymbols ha hs, hslot']
  · rw [Array.getElem?_eq_none (by omega), Array.getElem?_eq_none (by omega)]

/-- Lists that give every symbol the same length have the same table. -/
theorem ofLayout_congr (ha : layout.Describes a) (hb : layout'.Describes b)
    (h : bitsOf a = bitsOf b) : ofLayout layout a = ofLayout layout' b := by
  have hlongest : layout.longest = layout'.longest := by
    rw [← UInt8.toNat_inj, ha.toNat_longest, hb.toNat_longest, maxBits_congr h]
  have hcomplete : layout.complete = layout'.complete := by
    rw [Bool.eq_iff_iff, ha.complete_iff, hb.complete_iff, maxBits_congr h, kraft_congr h]
  rw [ofLayout, ofLayout, hlongest, blocksOf_congr ha hb h, sortSymbols_congr ha hb h, hcomplete]

/-- Nothing of the limits is left in the tables of such lists. -/
lemma eq_of_bitsOf_eq (hA : ofLengths limits a = .ok A) (hB : ofLengths limits' b = .ok B)
    (h : bitsOf a = bitsOf b) : A = B := by
  obtain ⟨layout, hlayout, rfl⟩ := Except.map_eq_ok_iff.1 hA
  obtain ⟨layout', hlayout', rfl⟩ := Except.map_eq_ok_iff.1 hB
  exact ofLayout_congr (Layout.describes_of_ofLengths hlayout)
    (Layout.describes_of_ofLengths hlayout') h

/-! ### The list of codewords -/

lemma block?_eq_some_iff {length : UInt8} {block : Block} :
    table.block? length = some block ↔
      length ≠ 0 ∧ table.blocks[length.toNat - 1]? = some block ∧ 0 < block.count := by
  rw [block?]
  split <;> simp [Option.filter_eq_some_iff, *]

/-- The codewords of a block are consecutive numbers, for the symbols that are stored in a row. -/
lemma mem_blockCodes_iff {length : UInt8} {block : Block} :
    (symbol, code) ∈ table.blockCodes length block ↔ ∃ k < block.count.toNat,
      table.symbols[block.offset + k]? = some symbol ∧
        code = ⟨block.first + k.toUInt32, length⟩ := by
  simp only [blockCodes, List.mem_map, Prod.exists, Prod.mk.injEq, List.mk_mem_zipIdx_iff_getElem?,
    Array.getElem?_toList, Array.getElem?_extract, Option.ite_none_right_eq_some]
  constructor
  · rintro ⟨_, k, ⟨hk, hslot⟩, rfl, rfl⟩
    refine ⟨k, ?_, hslot, rfl⟩
    rw [Block.stop] at hk
    omega
  · rintro ⟨k, hk, hslot, rfl⟩
    obtain ⟨hsize, -⟩ := Array.getElem?_eq_some_iff.1 hslot
    refine ⟨symbol, k, ⟨?_, hslot⟩, rfl, rfl⟩
    rw [Block.stop]
    omega

lemma mem_codes_iff_exists :
    (symbol, code) ∈ table.codes ↔ ∃ i block, table.blocks[i]? = some block ∧
      (symbol, code) ∈ table.blockCodes (i + 1).toUInt8 block := by
  simp only [codes, List.mem_flatMap, Prod.exists, List.mk_mem_zipIdx_iff_getElem?,
    Array.getElem?_toList]
  exact exists_comm

/-- The numbers of the codewords of a block fit into their length. -/
lemma fits_block (h : layout.Describes lengths) {i : Nat} {block : Block}
    (hblock : (ofLayout layout lengths).blocks[i]? = some block) :
    i < maxBits lengths ∧ block.first.toNat + block.count.toNat ≤ 2 ^ (i + 1) := by
  obtain ⟨hi, rfl⟩ := (getElem?_blocksOf_eq_some_iff h).1 hblock
  refine ⟨hi, ?_⟩
  rw [h.toNat_first _ hi, h.toNat_count, ← kraft_eq_below_add]
  exact h.realizable.kraft_le_two_pow (i + 1)

lemma toNat_length_block (h : layout.Describes lengths) {i : Nat} {block : Block}
    (hblock : (ofLayout layout lengths).blocks[i]? = some block) :
    (i + 1).toUInt8.toNat = i + 1 := by
  obtain ⟨hi, -⟩ := fits_block h hblock
  have hmax := h.realizable.maxBits_le
  rw [Nat.toUInt8_eq, UInt8.toNat_ofNat']
  omega

lemma toUInt8_ne_zero (h : layout.Describes lengths) {i : Nat} {block : Block}
    (hblock : (ofLayout layout lengths).blocks[i]? = some block) : (i + 1).toUInt8 ≠ 0 := by
  have hlength := toNat_length_block h hblock
  intro h0
  rw [h0] at hlength
  exact Nat.succ_ne_zero i hlength.symm

/-- A block has as many codewords as there are symbols of its length. -/
lemma toNat_count_block (h : layout.Describes lengths) {i : Nat} {block : Block}
    (hblock : (ofLayout layout lengths).blocks[i]? = some block) :
    block.count.toNat = lengths.count (i + 1).toUInt8 := by
  have hlength := toNat_length_block h hblock
  have hcard := card_ofLength lengths (toUInt8_ne_zero h hblock)
  obtain ⟨-, rfl⟩ := (getElem?_blocksOf_eq_some_iff h).1 hblock
  rw [← hcard, hlength]
  exact h.toNat_count (i + 1)

lemma toNat_index_block {block : Block} {k : Nat} (hk : k < block.count.toNat) :
    k.toUInt32.toNat = k := by
  have hlt := block.count.toNat_lt
  rw [Nat.toUInt32_eq, UInt32.toNat_ofNat']
  omega

/-- The number in any place of a block does not wrap around. -/
lemma toNat_first_add (h : layout.Describes lengths) {i k : Nat} {block : Block}
    (hblock : (ofLayout layout lengths).blocks[i]? = some block) (hk : k < block.count.toNat) :
    (block.first + k.toUInt32).toNat = block.first.toNat + k := by
  obtain ⟨hi, hfit⟩ := fits_block h hblock
  have hmax := h.realizable.maxBits_le
  have hpow : 2 ^ (i + 1) ≤ 2 ^ 32 := Nat.pow_le_pow_right Nat.two_pos (by omega)
  rw [UInt32.toNat_add, toNat_index_block hk]
  omega

/-- The codeword in any place of a block leads to the slot in the same place. -/
lemma slot?_first_add (h : layout.Describes lengths) {i k : Nat} {block : Block}
    (hblock : (ofLayout layout lengths).blocks[i]? = some block) (hk : k < block.count.toNat) :
    (ofLayout layout lengths).slot? ⟨block.first + k.toUInt32, (i + 1).toUInt8⟩ =
      some (block.offset + k) := by
  have hlength := toNat_length_block h hblock
  have hindex := toNat_index_block hk
  have hvalue := toNat_first_add h hblock hk
  have hdist : block.first + k.toUInt32 - block.first = k.toUInt32 := by
    rw [UInt32.add_comm, UInt32.add_sub_cancel]
  refine slot?_eq_some_iff.2
    ⟨block, block?_eq_some_iff.2 ⟨toUInt8_ne_zero h hblock, ?_, ?_⟩, ?_, ?_, ?_⟩
  · rw [hlength]
    exact hblock
  · rw [UInt32.lt_iff_toNat_lt]
    exact Nat.lt_of_le_of_lt (Nat.zero_le k) hk
  · rw [UInt32.le_iff_toNat_le, hvalue]
    exact Nat.le_add_right _ _
  · rw [hdist, UInt32.lt_iff_toNat_lt, hindex]
    exact hk
  · rw [hdist, hindex]

/-- A codeword that leads to a slot is the one in the same place of a block. -/
lemma exists_block_of_slot?_eq_some {slot : Nat} (hslot : table.slot? code = some slot) :
    ∃ i block k, table.blocks[i]? = some block ∧ k < block.count.toNat ∧
      code = ⟨block.first + k.toUInt32, (i + 1).toUInt8⟩ ∧ slot = block.offset + k := by
  obtain ⟨block, hblock, -, hlt, rfl⟩ := slot?_eq_some_iff.1 hslot
  obtain ⟨hne, hblock, -⟩ := block?_eq_some_iff.1 hblock
  have hpos : code.length.toNat ≠ 0 := fun h0 => hne (UInt8.toNat_inj.1 h0)
  refine ⟨_, block, (code.value - block.first).toNat, hblock, UInt32.lt_iff_toNat_lt.1 hlt, ?_, rfl⟩
  rw [Nat.sub_add_cancel (Nat.pos_of_ne_zero hpos), Nat.toUInt8_eq, Nat.toUInt32_eq,
    UInt8.ofNat_toNat, UInt32.ofNat_toNat, UInt32.add_comm, UInt32.sub_add_cancel]

/-- The listed codewords are those that are found, with the symbols that are found for them. -/
theorem mem_codes_iff (htable : ofLengths limits lengths = .ok table) :
    (symbol, code) ∈ table.codes ↔ table.decode code = some symbol := by
  obtain ⟨layout, hlayout, rfl⟩ := Except.map_eq_ok_iff.1 htable
  have h := Layout.describes_of_ofLengths hlayout
  simp only [mem_codes_iff_exists, mem_blockCodes_iff, decode, Option.bind_eq_some_iff]
  constructor
  · rintro ⟨i, block, hblock, k, hk, hsymbol, rfl⟩
    exact ⟨block.offset + k, slot?_first_add h hblock hk, hsymbol⟩
  · rintro ⟨slot, hslot, hsymbol⟩
    obtain ⟨i, block, k, hblock, hk, rfl, rfl⟩ := exists_block_of_slot?_eq_some hslot
    exact ⟨i, block, hblock, k, hk, hsymbol, rfl⟩

end Table

/-! ### From what is seen to the lengths -/

/-- A symbol has as many bits in one code as in another that spells all symbols alike. -/
lemma Lengths.bitsOf_eq_of_mem_active (ha : Realizable a)
    (h : ∀ bits (symbol : UInt16), Spells a bits symbol.toNat → Spells b bits symbol.toNat)
    (hs : s ∈ active a) : bitsOf a s = bitsOf b s := by
  obtain ⟨code, hcode⟩ := exists_isCanonical ha hs
  have hsymbol := hcode.toNat_toUInt16 ha
  have hspells : Spells a code.bits s := ⟨code, hcode, rfl⟩
  have hspells' := h code.bits s.toUInt16 (hsymbol.symm ▸ hspells)
  rw [hsymbol] at hspells'
  exact hspells.length_eq.symm.trans hspells'.length_eq

/-- The bits of the codewords show the lengths. -/
theorem Lengths.bitsOf_eq_of_spells (ha : Realizable a) (hb : Realizable b)
    (h : ∀ bits (symbol : UInt16), Spells a bits symbol.toNat ↔ Spells b bits symbol.toNat) :
    bitsOf a = bitsOf b := by
  funext s
  by_cases hs : s ∈ active a
  · exact bitsOf_eq_of_mem_active ha (fun bits symbol => (h bits symbol).1) hs
  by_cases hs' : s ∈ active b
  · exact (bitsOf_eq_of_mem_active hb (fun bits symbol => (h bits symbol).2) hs').symm
  · rw [mem_active, not_not] at hs hs'
    rw [hs, hs']

namespace Table

lemma Decodes.spells_iff (h : table.Decodes lengths) :
    Spells lengths bits symbol.toNat ↔
      ∃ code, table.decode code = some symbol ∧ code.bits = bits := by
  simp only [Spells, h.decode_eq_some_iff]

/-- The bits that decode to a single symbol are its codeword. -/
lemma decodeAll_eq_ok_singleton_iff (htable : ofLengths limits lengths = .ok table) :
    table.decodeAll bits = .ok [symbol] ↔ Spells lengths bits symbol.toNat := by
  obtain ⟨book, hbook⟩ := exists_codebook htable
  rw [decodeAll_eq_ok_iff (decodes_of_ofLengths htable) hbook,
    Codebook.encode?_cons_eq_some_iff hbook]
  simp [Codebook.encode?_nil]

/-- **Tables are equal exactly if they cannot be told apart.**  For two accepted lists of lengths,
under whatever limits, it is the same that the tables are equal, that every symbol has the same
length in both lists, where a list that is shorter goes on with zeros, that the tables look up
every codeword alike, that they list the same codewords, and that they decode every bit string to
the same result. -/
theorem equality_is_observational (hA : Table.ofLengths limits a = .ok A)
    (hB : Table.ofLengths limits' b = .ok B) :
    List.TFAE [A = B,
      ∀ s, a.getD s 0 = b.getD s 0,
      ∀ code, A.decode code = B.decode code,
      A.codes = B.codes,
      ∀ bits, A.decodeAll bits = B.decodeAll bits] := by
  have ha := decodes_of_ofLengths hA
  have hb := decodes_of_ofLengths hB
  tfae_have 1 → 4 := fun h => h ▸ rfl
  tfae_have 1 → 5 := fun h bits => h ▸ rfl
  tfae_have 4 → 3 := by
    intro h code
    refine Option.ext fun symbol => ?_
    rw [← mem_codes_iff hA, h, mem_codes_iff hB]
  tfae_have 3 → 2 := by
    intro h
    refine bitsOf_eq_iff.1 (bitsOf_eq_of_spells ha.realizable hb.realizable fun bits symbol => ?_)
    simp only [ha.spells_iff, hb.spells_iff, h]
  tfae_have 5 → 2 := by
    intro h
    refine bitsOf_eq_iff.1 (bitsOf_eq_of_spells ha.realizable hb.realizable fun bits symbol => ?_)
    rw [← decodeAll_eq_ok_singleton_iff hA, h, decodeAll_eq_ok_singleton_iff hB]
  tfae_have 2 → 1 := by
    intro h
    obtain ⟨layout, hlayout, rfl⟩ := Except.map_eq_ok_iff.1 hA
    obtain ⟨layout', hlayout', rfl⟩ := Except.map_eq_ok_iff.1 hB
    exact ofLayout_congr (Layout.describes_of_ofLengths hlayout)
      (Layout.describes_of_ofLengths hlayout') (bitsOf_eq_iff.2 h)
  tfae_finish

/-- Symbols without codewords at the end of the alphabet make no difference to the table, nor do
wider limits; but if two symbols exchange their lengths, some bits decode to something else. -/
theorem tables_of_three_lists : ∃ A B C,
    Table.ofLengths .deflate [2, 1, 0, 3, 3] = .ok A ∧
    Table.ofLengths .widest [2, 1, 0, 3, 3, 0, 0] = .ok B ∧
    Table.ofLengths .deflate [1, 2, 0, 3, 3] = .ok C ∧
    A = B ∧ ∃ bits, A.decodeAll bits ≠ C.decodeAll bits := by
  have hA : Table.ofLengths .deflate [2, 1, 0, 3, 3] =
      .ok ⟨3, #[⟨0, 1, 0⟩, ⟨2, 1, 1⟩, ⟨6, 2, 2⟩], #[1, 0, 3, 4], true⟩ := by decide +kernel
  have hB : Table.ofLengths .widest [2, 1, 0, 3, 3, 0, 0] =
      .ok ⟨3, #[⟨0, 1, 0⟩, ⟨2, 1, 1⟩, ⟨6, 2, 2⟩], #[1, 0, 3, 4], true⟩ := by decide +kernel
  have hC : Table.ofLengths .deflate [1, 2, 0, 3, 3] =
      .ok ⟨3, #[⟨0, 1, 0⟩, ⟨2, 1, 1⟩, ⟨6, 2, 2⟩], #[0, 1, 3, 4], true⟩ := by decide +kernel
  have hsame : ∀ s, ([2, 1, 0, 3, 3] : List UInt8).getD s 0 =
      ([2, 1, 0, 3, 3, 0, 0] : List UInt8).getD s 0 := by
    intro s
    match s with
    | 0 | 1 | 2 | 3 | 4 | 5 | 6 | _ + 7 => rfl
  have hother : ¬ ∀ s, ([2, 1, 0, 3, 3] : List UInt8).getD s 0 =
      ([1, 2, 0, 3, 3] : List UInt8).getD s 0 := fun h => absurd (h 0) (by decide)
  have hequal := (equality_is_observational hA hB).out 0 1
  have hdecode := (equality_is_observational hA hC).out 4 1
  exact ⟨_, _, _, hA, hB, hC, hequal.2 hsame, not_forall.1 fun h => hother (hdecode.1 h)⟩

end Table

end PrefixCode
