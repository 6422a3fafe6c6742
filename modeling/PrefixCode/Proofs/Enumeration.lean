/-
# The list of codewords

A table lists its codewords block by block.  The blocks lie in the array of symbols one after the
other, without a gap and without an overlap, and so the symbols are listed as they are stored
(`map_fst_codes`): in canonical order, each of them once (`pairwise_before_codes`), in the place of
its rank (`rank_eq_of_getElem?_codes`).  What is listed for a symbol is its codeword and nothing
else (`filter_codes`).

Between neighbours of the list no codeword is missing: the next place is the one behind all strings
that begin with the codeword before (`place_of_rank_eq_succ`), however many lengths are left out.
-/
import PrefixCode.Proofs.Observation

namespace PrefixCode

/-! ### From one rank to the next -/

namespace Lengths

variable {lengths : List UInt8} {r s : Nat}

/-- The first symbol has the first place. -/
lemma place_of_rank_eq_zero (h : rank lengths s = 0) : place lengths s = 0 := by
  rw [rank, Finset.card_eq_zero] at h
  rw [place, h, Finset.sum_empty]

/-- The next symbol has the place behind all strings that begin with the codeword of `r`. -/
theorem place_of_rank_eq_succ (hr : r ∈ active lengths) (hs : s ∈ active lengths)
    (h : rank lengths s = rank lengths r + 1) :
    place lengths s =
      (place lengths r + 1) * 2 ^ (bitsOf lengths s - bitsOf lengths r) := by
  have hbefore : Before lengths r s := (before_iff_rank_lt hr hs).2 (by omega)
  rw [Nat.mul_comm, two_pow_mul_place_add_one hr hbefore.bitsOf_le, place]
  -- the symbols before `s` are those before `r`, and `r`
  refine Finset.sum_congr (Finset.filter_congr fun t ht => ?_) fun t _ => rfl
  rw [before_iff_rank_lt ht hs, before_iff_rank_lt ht hr, h, Nat.lt_succ_iff_lt_or_eq]
  exact or_congr_right ⟨eq_of_rank_eq ht hr, fun heq => heq ▸ rfl⟩

end Lengths

namespace Table

open PrefixCode.Lengths

variable {limits : Limits} {lengths : List UInt8} {layout : Layout} {table : Table}
  {code : Codeword} {s : Nat}

/-! ### The symbols in the order of the list -/

/-- The symbols of a block are listed as they are stored. -/
lemma map_fst_blockCodes (table : Table) (length : UInt8) (block : Block) :
    (table.blockCodes length block).map Prod.fst =
      (table.symbols.toList.drop block.offset).take block.count.toNat := by
  rw [blockCodes, List.map_map, Array.toList_extract, List.extract_eq_take_drop, Block.stop,
    Nat.add_sub_cancel_left]
  exact List.zipIdx_map_fst 0 _

/-- The blocks of the lengths up to `L` make up the beginning of the array. -/
lemma flatMap_take_blocksOf (h : layout.Describes lengths) (symbols : List UInt16) {L : Nat}
    (hL : L ≤ maxBits lengths) :
    (((blocksOf layout).toList.take L).flatMap fun block =>
        (symbols.drop block.offset).take block.count.toNat) =
      symbols.take (shorter lengths (L + 1)) := by
  induction L with
  | zero => simp [shorter_one]
  | succ L ih =>
    have hblock := getElem?_blocksOf h (Nat.lt_of_succ_le hL)
    rw [← Array.getElem?_toList, List.getElem?_eq_some_iff] at hblock
    obtain ⟨hlt, hblock⟩ := hblock
    rw [List.take_succ_eq_append_getElem hlt, hblock, List.flatMap_append,
      ih (Nat.le_of_succ_le hL), List.flatMap_singleton, shorter_succ lengths (L + 1),
      List.take_add, h.toNat_count]

/-- The symbols are listed as they are stored. -/
theorem map_fst_codes (htable : ofLengths limits lengths = .ok table) :
    table.codes.map Prod.fst = table.symbols.toList := by
  obtain ⟨layout, hlayout, rfl⟩ := Except.map_eq_ok_iff.1 htable
  have h := Layout.describes_of_ofLengths hlayout
  have hblocks := flatMap_take_blocksOf h (sortSymbols layout lengths).toList le_rfl
  have hsize : (blocksOf layout).toList.length = maxBits lengths := size_blocksOf_eq_maxBits h
  have hsize' : (sortSymbols layout lengths).toList.length = (active lengths).card :=
    size_sortSymbols h
  rw [shorter_maxBits_succ, ← hsize, ← hsize', List.take_length, List.take_length] at hblocks
  rw [← List.zipIdx_map_fst 0 (blocksOf layout).toList, List.flatMap_map] at hblocks
  rw [codes, List.map_flatMap]
  simp only [map_fst_blockCodes]
  exact hblocks

/-- The symbols are listed in canonical order. -/
theorem pairwise_before_codes (htable : ofLengths limits lengths = .ok table) :
    table.codes.Pairwise fun entry entry' => Before lengths entry.1.toNat entry'.1.toNat := by
  have hsymbols := map_fst_codes htable
  obtain ⟨layout, hlayout, rfl⟩ := Except.map_eq_ok_iff.1 htable
  have h : (ofLayout layout lengths).symbols.toList.Pairwise
      fun r s => Before lengths r.toNat s.toNat :=
    pairwise_before_sortSymbols (Layout.describes_of_ofLengths hlayout)
  rwa [← hsymbols, List.pairwise_map] at h

/-! ### What is listed for a symbol -/

lemma nodup_codes (htable : ofLengths limits lengths = .ok table) : table.codes.Nodup := by
  refine (pairwise_before_codes htable).imp fun {entry entry'} hbefore heq => ?_
  rw [heq] at hbefore
  exact not_before_self lengths _ hbefore

/-- A symbol that has a codeword is listed with it, and only once. -/
theorem filter_codes (htable : ofLengths limits lengths = .ok table)
    (hcode : IsCanonical lengths s code) :
    table.codes.filter (fun entry => entry.1.toNat = s) = [(s.toUInt16, code)] := by
  have h := decodes_of_ofLengths htable
  have hs := hcode.toNat_toUInt16 h.realizable
  refine List.perm_singleton.1 ((List.perm_ext_iff_of_nodup ((nodup_codes htable).filter _)
    (List.nodup_singleton _)).2 ?_)
  rintro ⟨symbol, code'⟩
  rw [List.mem_filter, List.mem_singleton, mem_codes_iff htable, h.decode_eq_some_iff,
    decide_eq_true_eq, Prod.mk.injEq]
  constructor
  · rintro ⟨hcode', rfl⟩
    exact ⟨UInt16.toNat_inj.1 hs.symm, hcode'.code_eq hcode⟩
  · rintro ⟨rfl, rfl⟩
    exact ⟨hs.symm ▸ hcode, hs⟩

/-- A symbol without a codeword is not listed. -/
lemma filter_codes_eq_nil (htable : ofLengths limits lengths = .ok table)
    (hs : s ∉ active lengths) : table.codes.filter (fun entry => entry.1.toNat = s) = [] := by
  have h := decodes_of_ofLengths htable
  refine List.filter_eq_nil_iff.2 ?_
  rintro ⟨symbol, code⟩ hmem heq
  rw [mem_codes_iff htable, h.decode_eq_some_iff] at hmem
  rw [decide_eq_true_eq] at heq
  exact hs (heq ▸ hmem.active)

/-! ### The list as a whole -/

/-- An entry of the list stands in the place of its rank. -/
lemma rank_eq_of_getElem?_codes (htable : ofLengths limits lengths = .ok table) {i : Nat}
    {entry : UInt16 × Codeword} (hi : table.codes[i]? = some entry) :
    rank lengths entry.1.toNat = i ∧ IsCanonical lengths entry.1.toNat entry.2 := by
  have hcode := (decodes_of_ofLengths htable).decode_eq_some_iff.1
    ((mem_codes_iff htable).1 (List.mem_of_getElem? hi))
  have hslot : table.symbols[i]? = some entry.1 := by
    rw [← Array.getElem?_toList, ← map_fst_codes htable, List.getElem?_map, hi]
    rfl
  obtain ⟨layout, hlayout, rfl⟩ := Except.map_eq_ok_iff.1 htable
  have h := Layout.describes_of_ofLengths hlayout
  exact ⟨(rank_eq_of_getElem?_sortSymbols h hslot).2, hcode⟩

/-- As many codewords are listed as symbols have one. -/
lemma length_codes (htable : ofLengths limits lengths = .ok table) :
    table.codes.length = table.size := by
  have hlength := congrArg List.length (map_fst_codes htable)
  rwa [List.length_map, Array.length_toList] at hlength

/-- The list is not empty, and begins with the number zero. -/
lemma exists_head?_codes (htable : ofLengths limits lengths = .ok table) :
    ∃ symbol length, table.codes.head? = some (symbol, ⟨0, length⟩) := by
  have h := decodes_of_ofLengths htable
  obtain ⟨s, hs⟩ := ofLength_maxBits_nonempty h.realizable.maxBits_pos.ne'
  obtain ⟨code, hcode⟩ := exists_isCanonical h.realizable (mem_ofLength.1 hs).1
  have hfilter := filter_codes htable hcode
  cases hcodes : table.codes with
  | nil => simp [hcodes] at hfilter
  | cons entry entries =>
    have hfirst : table.codes[0]? = some entry := by simp [hcodes]
    obtain ⟨hrank, hcanonical⟩ := rank_eq_of_getElem?_codes htable hfirst
    have hzero : entry.2.value = 0 := by
      rw [← UInt32.toNat_inj, hcanonical.toNat_value, place_of_rank_eq_zero hrank]
      rfl
    exact ⟨entry.1, entry.2.length, by rw [List.head?_cons, ← hzero]⟩

/-- Each codeword is the successor of the one before, with zeros behind it. -/
lemma isChain_codes (htable : ofLengths limits lengths = .ok table) :
    table.codes.IsChain fun entry next =>
      entry.2.length ≤ next.2.length ∧
        next.2.value.toNat =
          (entry.2.value.toNat + 1) * 2 ^ (next.2.length.toNat - entry.2.length.toNat) := by
  rw [List.isChain_iff_getElem]
  intro i hi
  have hentry := List.getElem?_eq_getElem (Nat.lt_of_succ_lt hi)
  obtain ⟨hrank, hcode⟩ := rank_eq_of_getElem?_codes htable hentry
  obtain ⟨hrank', hcode'⟩ := rank_eq_of_getElem?_codes htable (List.getElem?_eq_getElem hi)
  have hsucc : rank lengths _ = rank lengths _ + 1 := hrank'.trans (congrArg (· + 1) hrank.symm)
  have hbefore := (before_iff_rank_lt hcode.active hcode'.active).2 (by omega)
  rw [UInt8.le_iff_toNat_le, hcode.toNat_length, hcode'.toNat_length, hcode.toNat_value,
    hcode'.toNat_value]
  exact ⟨hbefore.bitsOf_le, place_of_rank_eq_succ hcode.active hcode'.active hsucc⟩

/-- What is listed are the symbols that have a codeword, each with its own. -/
lemma perm_codes (htable : ofLengths limits lengths = .ok table) {book : Codebook}
    (hbook : Codebook.ofLengths limits lengths = .ok book) :
    (table.codes.map fun entry => (entry.1.toNat, some entry.2)).Perm
      (((List.range lengths.length).filter (· ∈ active lengths)).map
        fun s => (s, book.code? s)) := by
  have h := decodes_of_ofLengths htable
  refine (List.perm_ext_iff_of_nodup ?_ ?_).2 ?_
  · refine (nodup_codes htable).map ?_
    rintro ⟨symbol, code⟩ ⟨symbol', code'⟩ heq
    simpa [UInt16.toNat_inj] using heq
  · exact (List.nodup_range.filter _).map fun r s heq => congrArg Prod.fst heq
  rintro ⟨s, code?⟩
  simp only [List.mem_map, Prod.exists, Prod.mk.injEq, mem_codes_iff htable, h.decode_eq_some_iff,
    List.mem_filter, List.mem_range, decide_eq_true_eq]
  constructor
  · rintro ⟨symbol, code, hcode, rfl, rfl⟩
    exact ⟨_, ⟨lt_length_of_mem_active hcode.active, hcode.active⟩, rfl,
      (Codebook.code?_eq_some_iff hbook).2 hcode⟩
  · rintro ⟨s, ⟨-, hs⟩, rfl, rfl⟩
    obtain ⟨code, hsome, hcode⟩ := Codebook.exists_code?_eq_some hbook hs
    have hs16 := hcode.toNat_toUInt16 h.realizable
    exact ⟨s.toUInt16, code, by rwa [hs16], hs16, hsome.symm⟩

/-- **The code is listed once and in order.**  The list consists of the symbols that have a
codeword, each with the one that a codebook hands out to it; the shorter codewords come first, and
those of one length are in the order of their symbols.  It begins with zero.  Each codeword that
follows is the number after the one before, with as many zero bits behind it as it is longer. -/
theorem codes_run_through_codewords (htable : ofLengths limits lengths = .ok table) :
    (∃ book, Codebook.ofLengths limits lengths = .ok book ∧
      (table.codes.map fun entry => (entry.1.toNat, some entry.2)).Perm
        (((List.range lengths.length).filter (· ∈ active lengths)).map
          fun s => (s, book.code? s))) ∧
    table.codes.Pairwise (fun entry later =>
      bitsOf lengths entry.1.toNat < bitsOf lengths later.1.toNat ∨
        bitsOf lengths entry.1.toNat = bitsOf lengths later.1.toNat ∧
          entry.1.toNat < later.1.toNat) ∧
    table.codes.length = table.size ∧
    (∃ symbol length, table.codes.head? = some (symbol, ⟨0, length⟩)) ∧
    table.codes.IsChain fun entry next =>
      entry.2.length ≤ next.2.length ∧
        next.2.value.toNat =
          (entry.2.value.toNat + 1) * 2 ^ (next.2.length.toNat - entry.2.length.toNat) := by
  obtain ⟨book, hbook⟩ := exists_codebook htable
  exact ⟨⟨book, hbook, perm_codes htable hbook⟩, pairwise_before_codes htable, length_codes htable,
    exists_head?_codes htable, isChain_codes htable⟩

/-- There are no codewords of two bits in this code: after `0` comes `100`, which is one with two
zero bits behind it, and then `101`. -/
theorem codes_of_three_symbols : ∃ table book,
    ofLengths .deflate [3, 0, 1, 3] = .ok table ∧
    Codebook.ofLengths .deflate [3, 0, 1, 3] = .ok book ∧
    table.codes = [(2, ⟨0, 1⟩), (0, ⟨4, 3⟩), (3, ⟨5, 3⟩)] ∧
    (table.codes.map fun entry => (entry.1.toNat, some entry.2)).Perm
      (((List.range 4).filter (· ∈ active [3, 0, 1, 3])).map fun s => (s, book.code? s)) ∧
    table.codes.IsChain fun entry next =>
      entry.2.length ≤ next.2.length ∧
        next.2.value.toNat =
          (entry.2.value.toNat + 1) * 2 ^ (next.2.length.toNat - entry.2.length.toNat) := by
  have htable : ofLengths .deflate [3, 0, 1, 3] =
      .ok ⟨3, #[⟨0, 1, 0⟩, ⟨2, 0, 1⟩, ⟨4, 2, 1⟩], #[2, 0, 3], false⟩ := by decide +kernel
  obtain ⟨⟨book, hbook, hperm⟩, -, -, -, hchain⟩ := codes_run_through_codewords htable
  exact ⟨_, book, htable, hbook, by decide +kernel, hperm, hchain⟩

end Table

end PrefixCode
