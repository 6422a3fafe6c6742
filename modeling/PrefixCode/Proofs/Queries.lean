/-
# What a table answers about single codewords and lengths

All queries read the blocks and the one array of symbols.  The symbols of one length have
consecutive ranks, beginning with the number of shorter codewords, and their codewords are
consecutive numbers (`getElem?_symbolsOfLength`, `isCanonical_iff_rank`); so the symbol of a
codeword stands, among those of its length, as far from the first one as the codeword does
(`decode_eq_some_iff_getElem?`).  The least and the greatest codeword of a length tell which numbers
these are (`codes_of_length_cases`).
-/
import PrefixCode.Proofs.Enumeration
import PrefixCode.Proofs.Exactness
import PrefixCode.Proofs.Statistics

namespace PrefixCode

open PrefixCode.Lengths

variable {limits : Limits} {lengths : List UInt8} {layout : Layout} {table : Table}
  {length : UInt8} {symbol : UInt16} {value : UInt32} {s k : Nat}

namespace Table

/-! ### The symbols of one length -/

/-- A length either has no block, since no codeword has it, or the block of all its codewords. -/
lemma block?_ofLayout_cases (h : layout.Describes lengths) (length : UInt8) :
    ((ofLayout layout lengths).block? length = none ∧ ofLength lengths length.toNat = ∅) ∨
      0 < (ofLength lengths length.toNat).card ∧ (ofLayout layout lengths).block? length =
        some ⟨layout.first length.toNat, layout.count length.toNat,
          shorter lengths length.toNat⟩ := by
  rcases Nat.eq_zero_or_pos (ofLength lengths length.toNat).card with hzero | hpos
  · refine Or.inl ⟨Option.eq_none_iff_forall_ne_some.2 fun block hblock => ?_,
      Finset.card_eq_zero.1 hzero⟩
    have hpos := ((block?_ofLayout_eq_some_iff h).1 hblock).1
    omega
  · exact Or.inr ⟨hpos, (block?_ofLayout_eq_some_iff h).2 ⟨hpos, rfl⟩⟩

/-- The symbols of a length are those whose ranks follow the number of shorter codewords. -/
theorem getElem?_symbolsOfLength (htable : ofLengths limits lengths = .ok table) :
    (table.symbolsOfLength length)[k]? = some symbol ↔
      symbol.toNat ∈ ofLength lengths length.toNat ∧
        rank lengths symbol.toNat = shorter lengths length.toNat + k := by
  obtain ⟨layout, hlayout, rfl⟩ := Except.map_eq_ok_iff.1 htable
  have h := Layout.describes_of_ofLengths hlayout
  have hsymbols : (ofLayout layout lengths).symbols = sortSymbols layout lengths := rfl
  rcases block?_ofLayout_cases h length with ⟨hblock, hempty⟩ | ⟨-, hblock⟩
  · simp [symbolsOfLength, hblock, hempty]
  have hcard := shorter_add_card_le lengths length.toNat
  rw [← size_sortSymbols h] at hcard
  simp only [symbolsOfLength, hblock, hsymbols, Block.stop, h.toNat_count, Array.getElem?_extract,
    Option.ite_none_right_eq_some]
  constructor
  · rintro ⟨hk, hslot⟩
    obtain ⟨hactive, hrank⟩ := rank_eq_of_getElem?_sortSymbols h hslot
    exact ⟨(mem_ofLength_iff_rank hactive).2 (by omega), hrank⟩
  · rintro ⟨hmem, hrank⟩
    obtain ⟨hactive, -⟩ := mem_ofLength.1 hmem
    obtain ⟨-, hlt⟩ := (mem_ofLength_iff_rank hactive).1 hmem
    have hslot := getElem?_sortSymbols h hactive
    rw [hrank, Nat.toUInt16_eq, UInt16.ofNat_toNat] at hslot
    exact ⟨by omega, hslot⟩

/-- Of two symbols of one length, the one that comes before is the smaller one. -/
lemma pairwise_lt_symbolsOfLength (htable : ofLengths limits lengths = .ok table) :
    ((table.symbolsOfLength length).toList.map UInt16.toNat).Pairwise (· < ·) := by
  rw [List.pairwise_map, List.pairwise_iff_getElem]
  intro i j hi hj hlt
  obtain ⟨hr, hri⟩ := (getElem?_symbolsOfLength htable).1 (Array.getElem?_eq_getElem hi)
  obtain ⟨hs, hsj⟩ := (getElem?_symbolsOfLength htable).1 (Array.getElem?_eq_getElem hj)
  obtain ⟨hr, hrbits⟩ := mem_ofLength.1 hr
  obtain ⟨hs, hsbits⟩ := mem_ofLength.1 hs
  rcases (before_iff_rank_lt hr hs).2 (by omega) with hbits | ⟨-, hrs⟩
  · omega
  · exact hrs

lemma mem_symbolsOfLength_iff (htable : ofLengths limits lengths = .ok table) :
    s ∈ (table.symbolsOfLength length).toList.map UInt16.toNat ↔
      s ∈ ofLength lengths length.toNat := by
  constructor
  · intro hmem
    obtain ⟨symbol, hsymbol, rfl⟩ := List.mem_map.1 hmem
    obtain ⟨k, hk⟩ := Array.mem_iff_getElem?.1 (Array.mem_toList_iff.1 hsymbol)
    exact ((getElem?_symbolsOfLength htable).1 hk).1
  · intro hs
    obtain ⟨hactive, hlength⟩ := mem_ofLength.1 hs
    have hs16 := (decodes_of_ofLengths htable).realizable.toNat_toUInt16
      (lt_length_of_mem_active hactive)
    have hrank := rank_eq_shorter_add lengths s
    rw [hlength] at hrank
    rw [← hs16] at hs hrank
    have hk := (getElem?_symbolsOfLength htable).2 ⟨hs, hrank⟩
    exact List.mem_map.2 ⟨_, Array.mem_toList_iff.2 (Array.mem_of_getElem? hk), hs16⟩

/-- The symbols of a length are the ones that have it, in ascending order. -/
theorem map_toNat_symbolsOfLength (htable : ofLengths limits lengths = .ok table)
    (hne : length ≠ 0) :
    (table.symbolsOfLength length).toList.map UInt16.toNat =
      (List.range lengths.length).filter fun s => lengths[s]? = some length := by
  refine (pairwise_lt_symbolsOfLength htable).eq_of_mem_iff (List.pairwise_lt_range.filter _)
    fun s => ?_
  rw [mem_symbolsOfLength_iff htable, List.mem_filter, List.mem_range, decide_eq_true_eq,
    mem_ofLength_toNat hne]
  exact ⟨fun hs => ⟨(List.getElem?_eq_some_iff.1 hs).1, hs⟩, And.right⟩

/-- No symbol has a length that no codeword can have. -/
lemma symbolsOfLength_eq_empty (htable : ofLengths limits lengths = .ok table)
    (hout : length = 0 ∨ table.longest < length) : table.symbolsOfLength length = #[] := by
  by_contra hne
  have hfirst := Array.getElem?_eq_getElem (Array.size_pos_iff.2 hne)
  obtain ⟨hactive, hlength⟩ := mem_ofLength.1 ((getElem?_symbolsOfLength htable).1 hfirst).1
  have hpos := bitsOf_pos hactive
  have hle := bitsOf_le_maxBits hactive
  rw [hlength] at hpos hle
  rw [← (decodes_of_ofLengths htable).toNat_longest] at hle
  rcases hout with rfl | hlt
  · exact Nat.lt_irrefl 0 hpos
  · exact absurd hle (Nat.not_le.2 (UInt8.lt_iff_toNat_lt.1 hlt))

lemma size_symbolsOfLength (h : layout.Describes lengths) (length : UInt8) :
    ((ofLayout layout lengths).symbolsOfLength length).size =
      (ofLength lengths length.toNat).card := by
  have hsymbols : (ofLayout layout lengths).symbols = sortSymbols layout lengths := rfl
  rcases block?_ofLayout_cases h length with ⟨hblock, hempty⟩ | ⟨-, hblock⟩
  · simp [symbolsOfLength, hblock, hempty]
  · have hcard := shorter_add_card_le lengths length.toNat
    simp only [symbolsOfLength, hblock, hsymbols, Block.stop, h.toNat_count, Array.size_extract,
      size_sortSymbols h]
    omega

/-! ### The numbers of one length -/

/-- The codewords of a length, if there are any, are the numbers from the least one to the greatest
one, as many as there are symbols of this length. -/
lemma codes_of_length_cases (htable : ofLengths limits lengths = .ok table) (length : UInt8) :
    (table.symbolsOfLength length = #[] ∧ table.minCode? length = none ∧
      table.maxCode? length = none) ∨
    ∃ least greatest, table.minCode? length = some least ∧ table.maxCode? length = some greatest ∧
      0 < (table.symbolsOfLength length).size ∧ least.toNat = below lengths length.toNat ∧
      greatest.toNat + 1 = least.toNat + (table.symbolsOfLength length).size := by
  obtain ⟨layout, hlayout, rfl⟩ := Except.map_eq_ok_iff.1 htable
  have h := Layout.describes_of_ofLengths hlayout
  rw [size_symbolsOfLength h]
  rcases block?_ofLayout_cases h length with ⟨hblock, -⟩ | ⟨hpos, hblock⟩
  · exact Or.inl (by simp [symbolsOfLength, minCode?, maxCode?, hblock])
  have hmin : (ofLayout layout lengths).minCode? length = some (layout.first length.toNat) := by
    rw [minCode?, hblock, Option.map_some]
  obtain ⟨greatest, hmax⟩ : ∃ greatest, (ofLayout layout lengths).maxCode? length = some greatest :=
    ⟨_, by rw [maxCode?, hblock, Option.map_some]⟩
  -- the greatest number is a sum that does not wrap around
  obtain ⟨block, hblock', -, hgreatest, -⟩ := toNat_of_maxCode?_eq_some h hmax
  rw [hblock, Option.some.injEq] at hblock'
  subst hblock'
  dsimp only at hgreatest
  rw [h.toNat_count] at hgreatest
  have hleast := h.toNat_first length.toNat (le_maxBits_of_card_pos hpos)
  exact Or.inr ⟨_, greatest, hmin, hmax, hpos, hleast, by omega⟩

/-- A codeword is looked up among the symbols of its length, by its distance from the first one. -/
theorem decode_eq_some_iff_getElem? (htable : ofLengths limits lengths = .ok table) :
    table.decode ⟨value, length⟩ = some symbol ↔ below lengths length.toNat ≤ value.toNat ∧
      (table.symbolsOfLength length)[value.toNat - below lengths length.toNat]? = some symbol := by
  rw [(decodes_of_ofLengths htable).decode_eq_some_iff, isCanonical_iff_rank,
    getElem?_symbolsOfLength htable]
  exact and_left_comm

/-! ### All queries -/

/-- What a table answers about a length: the symbols that have it, in ascending order, and the least
and the greatest of as many numbers as there are symbols; nothing, if no codeword has it. -/
structure AnswersLength (table : Table) (lengths : List UInt8) (length : UInt8) : Prop where
  symbols_eq : length ≠ 0 → (table.symbolsOfLength length).toList.map UInt16.toNat =
    (List.range lengths.length).filter fun s => lengths[s]? = some length
  symbols_eq_empty : length = 0 ∨ table.longest < length → table.symbolsOfLength length = #[]
  of_symbols_eq_empty : table.symbolsOfLength length = #[] →
    table.minCode? length = none ∧ table.maxCode? length = none
  of_symbols_ne_empty : table.symbolsOfLength length ≠ #[] → ∃ least greatest,
    table.minCode? length = some least ∧ table.maxCode? length = some greatest ∧
      least ≤ greatest ∧
      greatest.toNat - least.toNat + 1 = (table.symbolsOfLength length).size

/-- What a table answers about a codeword: the symbol as far from the first one of its length as the
codeword is from the least one, if it is one of the numbers up to the greatest one, and otherwise
that there is none. -/
structure AnswersCode (table : Table) (value : UInt32) (length : UInt8) : Prop where
  decode_eq_some : ∀ least greatest, table.minCode? length = some least →
    table.maxCode? length = some greatest → least ≤ value → value ≤ greatest →
      ∃ symbol, (table.symbolsOfLength length)[value.toNat - least.toNat]? = some symbol ∧
        table.decode ⟨value, length⟩ = some symbol
  decode_eq_none : (¬ ∃ least greatest, table.minCode? length = some least ∧
    table.maxCode? length = some greatest ∧ least ≤ value ∧ value ≤ greatest) →
      table.decode ⟨value, length⟩ = none
  of_decode_eq_some : ∀ symbol, table.decode ⟨value, length⟩ = some symbol →
    table.contains ⟨value, length⟩ = true ∧ table.get ⟨value, length⟩ = .ok symbol
  of_decode_eq_none : table.decode ⟨value, length⟩ = none →
    table.contains ⟨value, length⟩ = false ∧
      table.get ⟨value, length⟩ = .error (.noSymbol ⟨value, length⟩)

lemma answersLength_of_ofLengths (htable : ofLengths limits lengths = .ok table)
    (length : UInt8) : table.AnswersLength lengths length := by
  refine ⟨map_toNat_symbolsOfLength htable, symbolsOfLength_eq_empty htable, fun hempty => ?_,
    fun hne => ?_⟩
  · rcases codes_of_length_cases htable length with ⟨-, hmin, hmax⟩ | ⟨_, _, -, -, hpos, -, -⟩
    · exact ⟨hmin, hmax⟩
    · simp [hempty] at hpos
  · rcases codes_of_length_cases htable length with
      ⟨hempty, -, -⟩ | ⟨least, greatest, hmin, hmax, hpos, -, hsum⟩
    · exact absurd hempty hne
    · exact ⟨least, greatest, hmin, hmax, UInt32.le_iff_toNat_le.2 (by omega), by omega⟩

lemma answersCode_of_ofLengths (htable : ofLengths limits lengths = .ok table)
    (value : UInt32) (length : UInt8) : table.AnswersCode value length := by
  have hcontains : table.contains ⟨value, length⟩ = true ↔
      ∃ symbol, table.decode ⟨value, length⟩ = some symbol :=
    (recognizes_of_ofLengths htable).contains_iff
  refine ⟨fun least greatest hmin hmax hle hge => ?_, fun hout => ?_, fun symbol hsymbol => ?_,
    fun hnone => ?_⟩
  · rcases codes_of_length_cases htable length with
      ⟨-, hmin', -⟩ | ⟨least', greatest', hmin', hmax', -, hbelow, hsum⟩
    · simp [hmin'] at hmin
    · rw [hmin, Option.some.injEq] at hmin'
      rw [hmax, Option.some.injEq] at hmax'
      subst hmin' hmax'
      rw [UInt32.le_iff_toNat_le] at hle hge
      have hlt : value.toNat - least.toNat < (table.symbolsOfLength length).size := by omega
      have hslot := Array.getElem?_eq_getElem hlt
      refine ⟨_, hslot, (decode_eq_some_iff_getElem? htable).2 ?_⟩
      rw [← hbelow]
      exact ⟨hle, hslot⟩
  · refine Option.eq_none_iff_forall_ne_some.2 fun symbol hsymbol => hout ?_
    obtain ⟨hle, hslot⟩ := (decode_eq_some_iff_getElem? htable).1 hsymbol
    obtain ⟨hlt, -⟩ := Array.getElem?_eq_some_iff.1 hslot
    rcases codes_of_length_cases htable length with
      ⟨hempty, -, -⟩ | ⟨least, greatest, hmin, hmax, -, hbelow, hsum⟩
    · simp [hempty] at hlt
    · exact ⟨least, greatest, hmin, hmax, UInt32.le_iff_toNat_le.2 (by omega),
        UInt32.le_iff_toNat_le.2 (by omega)⟩
  · exact ⟨hcontains.2 ⟨symbol, hsymbol⟩, get_eq_ok_iff.2 hsymbol⟩
  · refine ⟨?_, get_eq_error_iff.2 ⟨hnone, rfl⟩⟩
    rw [← Bool.not_eq_true, hcontains, hnone]
    simp

/-- **All queries follow from the lengths, and agree.**  The symbols of a length are the ones that
have it.  They have the numbers from the least codeword of this length to the greatest one, and each
of these numbers is looked up as the symbol in its place; no other codeword is found by any query.
The longest and the shortest codewords have the greatest and the least length other than zero, and
there are as many codewords as such lengths. -/
theorem queries_follow_lengths (htable : ofLengths limits lengths = .ok table) :
    (∀ length, table.AnswersLength lengths length) ∧
    (∀ value length, table.AnswersCode value length) ∧
    IsGreatest {l | l ∈ lengths ∧ l ≠ 0} table.longest ∧
    IsLeast {l | l ∈ lengths ∧ l ≠ 0} table.shortest ∧
    table.size = (lengths.filter (· ≠ 0)).length :=
  ⟨answersLength_of_ofLengths htable, answersCode_of_ofLengths htable, isGreatest_longest htable,
    isLeast_shortest htable, size_eq htable⟩

/-- Two symbols have three bits; their codewords are the numbers 4 and 5.  The number 6 is not
looked up, nor is anything of two bits. -/
theorem queries_of_three_symbols : ∃ table,
    ofLengths .deflate [3, 0, 1, 3] = .ok table ∧
    (table.symbolsOfLength 3).toList.map UInt16.toNat = [0, 3] ∧
    table.minCode? 3 = some 4 ∧ table.maxCode? 3 = some 5 ∧
    table.minCode? 2 = none ∧
    table.get ⟨5, 3⟩ = .ok 3 ∧ table.get ⟨6, 3⟩ = .error (.noSymbol ⟨6, 3⟩) ∧
    IsLeast {l | l ∈ ([3, 0, 1, 3] : List UInt8) ∧ l ≠ 0} table.shortest ∧ table.size = 3 := by
  have htable : ofLengths .deflate [3, 0, 1, 3] =
      .ok ⟨3, #[⟨0, 1, 0⟩, ⟨2, 0, 1⟩, ⟨4, 2, 1⟩], #[2, 0, 3], false⟩ := by decide +kernel
  obtain ⟨hlength, hcode, -, hleast, hsize⟩ := queries_follow_lengths htable
  have hthree := (hlength 3).symbols_eq (by decide)
  have htwo := (hlength 2).of_symbols_eq_empty (by decide +kernel)
  have hlast := (hcode 5 3).of_decode_eq_some 3 (by decide +kernel)
  have hmissed := (hcode 6 3).of_decode_eq_none (by decide +kernel)
  exact ⟨_, htable, hthree, by decide +kernel, by decide +kernel, htwo.1, hlast.2, hmissed.2,
    hleast, hsize⟩

end Table

end PrefixCode
