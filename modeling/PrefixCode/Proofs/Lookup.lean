/-
# Looking codewords up

What a table finds is the canonical code once more.  The codewords of one length are
consecutive, and so are the ranks of their symbols; hence the distance of a codeword from the
first one of its length leads to the rank of its symbol (`slot?_eq_some_iff_rank`), which is
where the symbol is stored.  So a table and a codebook made from the same lengths agree on
every codeword and every symbol (`table_agrees_with_codebook`).
-/
import PrefixCode.Proofs.Canonical
import PrefixCode.Proofs.Codebook
import PrefixCode.Proofs.Sorting

namespace PrefixCode

open PrefixCode.Lengths

variable {lengths : List UInt8} {layout : Layout} {code : Codeword}

/-- A codeword is as far from the first one of its length as the rank of its symbol is from the
number of shorter codewords. -/
lemma isCanonical_iff_rank {s : Nat} :
    IsCanonical lengths s code ↔
      s ∈ ofLength lengths code.length.toNat ∧
        below lengths code.length.toNat ≤ code.value.toNat ∧
        rank lengths s = shorter lengths code.length.toNat +
          (code.value.toNat - below lengths code.length.toNat) := by
  have hplace := place_eq_below_add_card lengths s
  have hrank := place_add_shorter lengths s
  constructor
  · rintro ⟨hactive, hlength, hvalue⟩
    rw [← hlength] at hplace hrank
    exact ⟨mem_ofLength.2 ⟨hactive, hlength.symm⟩, by omega, by omega⟩
  · rintro ⟨hmem, hle, heq⟩
    obtain ⟨hactive, hlength⟩ := mem_ofLength.1 hmem
    rw [hlength] at hplace hrank
    exact ⟨hactive, hlength.symm, by omega⟩

/-! ### Blocks and slots -/

namespace Table

/-- There is a block of each length that some codeword has. -/
lemma block?_ofLayout_eq_some_iff (h : layout.Describes lengths) {length : UInt8} {block : Block} :
    (ofLayout layout lengths).block? length = some block ↔
      0 < (ofLength lengths length.toNat).card ∧ block =
        ⟨layout.first length.toNat, layout.count length.toNat, shorter lengths length.toNat⟩ := by
  have hcount := h.toNat_count length.toNat
  have hpos : 0 < layout.count length.toNat ↔ 0 < (ofLength lengths length.toNat).card := by
    rw [UInt32.lt_iff_toNat_lt, hcount]
    rfl
  rw [block?, ← hpos]
  split
  · rename_i hzero
    have hempty : ¬ 0 < layout.count length.toNat := by
      rw [hpos, hzero, Finset.card_pos, Finset.not_nonempty_iff_eq_empty]
      exact Finset.filter_eq_empty_iff.2 fun s hs => mem_active.1 hs
    simp [hempty]
  · rename_i hne
    have hone : 0 < length.toNat := Nat.pos_of_ne_zero fun h0 => hne (UInt8.toNat_inj.1 h0)
    rcases Nat.lt_or_ge (length.toNat - 1) (maxBits lengths) with hle | hgt
    · have hblock : (ofLayout layout lengths).blocks[length.toNat - 1]? = _ :=
        getElem?_blocksOf h hle
      rw [hblock, Nat.sub_add_cancel hone, Option.filter_some]
      by_cases hc : 0 < layout.count length.toNat <;> simp [hc, eq_comm]
    · have hempty : ¬ 0 < layout.count length.toNat := by
        rw [hpos, ofLength_eq_empty (by omega)]
        simp
      have hsize : (ofLayout layout lengths).blocks.size = maxBits lengths :=
        size_blocksOf_eq_maxBits h
      rw [Array.getElem?_eq_none (by omega)]
      simp [hempty]

/-- The slot of a codeword is the rank of its symbol. -/
theorem slot?_eq_some_iff_rank (h : layout.Describes lengths) {slot : Nat} :
    (ofLayout layout lengths).slot? code = some slot ↔
      ∃ s, IsCanonical lengths s code ∧ slot = rank lengths s := by
  simp only [slot?_eq_some_iff, block?_ofLayout_eq_some_iff h]
  constructor
  -- the distance from the first codeword counts the symbols of this length before `s`
  · rintro ⟨block, ⟨hpos, rfl⟩, hfirst, hlt, rfl⟩
    dsimp only at hfirst hlt ⊢
    have hbelow := h.toNat_first code.length.toNat (le_maxBits_of_card_pos hpos)
    have hdist := UInt32.toNat_sub_of_le _ _ hfirst
    rw [UInt32.lt_iff_toNat_lt, h.toNat_count] at hlt
    rw [UInt32.le_iff_toNat_le, hbelow] at hfirst
    obtain ⟨s, hs, hrank⟩ := exists_mem_ofLength_rank_eq hlt
    exact ⟨s, isCanonical_iff_rank.2 ⟨hs, hfirst, by omega⟩, hrank.symm⟩
  · rintro ⟨s, hs, rfl⟩
    obtain ⟨hmem, hle, hrank⟩ := isCanonical_iff_rank.1 hs
    obtain ⟨-, hlt⟩ := (mem_ofLength_iff_rank hs.active).1 hmem
    have hpos := Finset.card_pos.2 ⟨s, hmem⟩
    have hbelow := h.toNat_first code.length.toNat (le_maxBits_of_card_pos hpos)
    have hfirst : layout.first code.length.toNat ≤ code.value := by
      rw [UInt32.le_iff_toNat_le, hbelow]
      exact hle
    have hdist := UInt32.toNat_sub_of_le _ _ hfirst
    refine ⟨_, ⟨hpos, rfl⟩, hfirst, ?_, ?_⟩
    · rw [UInt32.lt_iff_toNat_lt, h.toNat_count]
      dsimp only
      omega
    · dsimp only
      omega

/-- A table finds the symbols of the canonical codewords, and no others. -/
theorem decode_ofLayout_eq_some_iff (h : layout.Describes lengths) {symbol : UInt16} :
    (ofLayout layout lengths).decode code = some symbol ↔
      IsCanonical lengths symbol.toNat code := by
  simp only [decode, Option.bind_eq_some_iff, slot?_eq_some_iff_rank h]
  constructor
  · rintro ⟨slot, ⟨s, hs, rfl⟩, hsymbol⟩
    have hsymbol : (sortSymbols layout lengths)[rank lengths s]? = some symbol := hsymbol
    rw [getElem?_sortSymbols h hs.active, Option.some.injEq] at hsymbol
    rw [← hsymbol, hs.toNat_toUInt16 h.realizable]
    exact hs
  · intro hs
    refine ⟨rank lengths symbol.toNat, ⟨symbol.toNat, hs, rfl⟩, ?_⟩
    have hslot := getElem?_sortSymbols h hs.active
    rw [Nat.toUInt16_eq, UInt16.ofNat_toNat] at hslot
    exact hslot

/-! ### Accepted lengths -/

/-- A table decodes the canonical code with these lengths. -/
structure Decodes (table : Table) (lengths : List UInt8) : Prop where
  realizable : Realizable lengths
  toNat_longest : table.longest.toNat = maxBits lengths
  decode_eq_some_iff : ∀ {code : Codeword} {symbol : UInt16},
    table.decode code = some symbol ↔ IsCanonical lengths symbol.toNat code

theorem decodes_of_ofLengths {limits : Limits} {table : Table}
    (h : ofLengths limits lengths = .ok table) : table.Decodes lengths := by
  obtain ⟨layout, hlayout, rfl⟩ := Except.map_eq_ok_iff.1 h
  have hdesc := Layout.describes_of_ofLengths hlayout
  exact ⟨hdesc.realizable, hdesc.toNat_longest, decode_ofLayout_eq_some_iff hdesc⟩

/-- What does not have as many bits as some codeword, or a greater number than those have
bits for, is not found. -/
lemma Decodes.decode_eq_none {table : Table} (h : table.Decodes lengths)
    (hout : code.length = 0 ∨ table.longest < code.length ∨
      2 ^ code.length.toNat ≤ code.value.toNat) : table.decode code = none := by
  refine Option.eq_none_iff_forall_ne_some.2 fun symbol hsymbol => ?_
  have hcode := h.decode_eq_some_iff.1 hsymbol
  have hlt := (hcode.fits h.realizable).value_lt
  have hpos := bitsOf_pos hcode.active
  have hle := bitsOf_le_maxBits hcode.active
  rw [← hcode.toNat_length] at hpos hle
  rw [← h.toNat_longest] at hle
  rcases hout with hout | hout | hout
  · rw [hout] at hpos
    exact Nat.lt_irrefl 0 hpos
  · exact absurd (UInt8.lt_iff_toNat_lt.1 hout) (Nat.not_lt.2 hle)
  · exact absurd hlt (Nat.not_lt.2 hout)

/-- **Tables agree with codebooks.**  The two are refused with the same error or made
together.  The table then finds a symbol for exactly the codeword that the codebook has for
it, and no symbol outside of the alphabet; so a codeword belongs to at most one symbol, and
one that was not handed out, for its length or for its number, is not found. -/
theorem table_agrees_with_codebook (limits : Limits) (lengths : List UInt8) :
    (∀ e, Table.ofLengths limits lengths = .error e ↔
      Codebook.ofLengths limits lengths = .error e) ∧
    ((∃ table, Table.ofLengths limits lengths = .ok table) ↔
      ∃ book, Codebook.ofLengths limits lengths = .ok book) ∧
    ∀ table book, Table.ofLengths limits lengths = .ok table →
      Codebook.ofLengths limits lengths = .ok book →
        (∀ (code : Codeword) (s : Nat), s < lengths.length →
          (table.decode code = some s.toUInt16 ↔ book.code? s = some code)) ∧
        (∀ code symbol, table.decode code = some symbol → symbol.toNat < lengths.length) ∧
        (∀ code r s, book.code? r = some code → book.code? s = some code → r = s) ∧
        (∀ code, (∀ s, book.code? s ≠ some code) → table.decode code = none) ∧
        ∀ code, code.length = 0 ∨ table.longest < code.length ∨
          2 ^ code.length.toNat ≤ code.value.toNat → table.decode code = none := by
  refine ⟨fun e => ?_, ?_, fun table book htable hbook => ?_⟩
  · rw [Table.ofLengths, Codebook.ofLengths, Except.map_eq_error_iff, Except.map_eq_error_iff]
  · simp only [Table.ofLengths, Codebook.ofLengths, Except.map_eq_ok_iff]
    constructor
    · rintro ⟨_, layout, hlayout, -⟩
      exact ⟨_, layout, hlayout, rfl⟩
    · rintro ⟨_, layout, hlayout, -⟩
      exact ⟨_, layout, hlayout, rfl⟩
  have hdecodes := decodes_of_ofLengths htable
  have hreal := hdecodes.realizable
  simp only [Codebook.code?_eq_some_iff hbook, ne_eq]
  refine ⟨fun code s hs => ?_, fun code symbol hsymbol => ?_, fun code r s hr hs => hr.symbol_eq hs,
    fun code hnone => ?_, fun code => hdecodes.decode_eq_none⟩
  · have hs16 : s.toUInt16.toNat = s := by
      rw [Nat.toUInt16_eq, UInt16.toNat_ofNat']
      exact Nat.mod_eq_of_lt (hs.trans_le hreal.length_le)
    rw [hdecodes.decode_eq_some_iff, hs16]
  · exact lt_length_of_mem_active (hdecodes.decode_eq_some_iff.1 hsymbol).active
  · refine Option.eq_none_iff_forall_ne_some.2 fun symbol hsymbol => ?_
    exact hnone symbol.toNat (hdecodes.decode_eq_some_iff.1 hsymbol)

/-- A table finds the symbol of the codeword `110`, and nothing for a number of four bits. -/
theorem table_of_five_symbols : ∃ table book,
    Table.ofLengths .deflate [2, 1, 0, 3, 3] = .ok table ∧
    Codebook.ofLengths .deflate [2, 1, 0, 3, 3] = .ok book ∧
    table.decode ⟨6, 3⟩ = some 3 ∧ table.decode ⟨8, 3⟩ = none := by
  have htable : Table.ofLengths .deflate [2, 1, 0, 3, 3] =
      .ok ⟨3, #[⟨0, 1, 0⟩, ⟨2, 1, 1⟩, ⟨6, 2, 2⟩], #[1, 0, 3, 4], true⟩ := by decide +kernel
  have hbook : Codebook.ofLengths .deflate [2, 1, 0, 3, 3] =
      .ok ⟨#[some ⟨2, 2⟩, some ⟨0, 1⟩, none, some ⟨6, 3⟩, some ⟨7, 3⟩]⟩ := by decide +kernel
  obtain ⟨hdecode, -, -, -, hnone⟩ :=
    (table_agrees_with_codebook .deflate [2, 1, 0, 3, 3]).2.2 _ _ htable hbook
  exact ⟨_, _, htable, hbook, (hdecode ⟨6, 3⟩ 3 (by decide)).2 rfl,
    hnone ⟨8, 3⟩ (Or.inr (Or.inr (by decide)))⟩

end Table

end PrefixCode
