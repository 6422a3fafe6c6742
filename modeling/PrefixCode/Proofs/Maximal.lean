/-
# One more symbol

Among the bit strings as long as the longest codewords, one more symbol takes those that begin with
its codeword, and leaves the shares of the others as they are (`kraft_concat`).  A complete code has
nothing left to give, however long the new codeword is.  A code that is not complete has at least
one string left over, and this is enough for a codeword that is as long as the longest ones, or
longer.  So the complete codes are the maximal ones.
-/
import PrefixCode.Codebook
import PrefixCode.Proofs.Acceptance
import PrefixCode.Table

namespace PrefixCode

open PrefixCode.Lengths

variable {limits : Limits} {lengths : List UInt8} {l : UInt8} {layout : Layout} {table : Table}

/-! ### The share of a new symbol -/

namespace Lengths

variable {L s : Nat}

lemma bitsOf_concat_length (lengths : List UInt8) (l : UInt8) :
    bitsOf (lengths ++ [l]) lengths.length = l.toNat :=
  bitsOf_eq List.getElem?_concat_length

lemma active_concat (hl : l ≠ 0) :
    active (lengths ++ [l]) = insert lengths.length (active lengths) := by
  ext s
  rw [Finset.mem_insert, mem_active_iff_getElem?, mem_active_iff_getElem?]
  rcases Nat.lt_trichotomy s lengths.length with hlt | rfl | hgt
  · rw [List.getElem?_append_left hlt, or_iff_right hlt.ne]
  · simp [hl]
  · rw [List.getElem?_eq_none (by rwa [List.length_append]), List.getElem?_eq_none hgt.le]
    simp [hgt.ne']

lemma maxBits_concat (lengths : List UInt8) (l : UInt8) :
    maxBits (lengths ++ [l]) = max (maxBits lengths) l.toNat := by
  refine eq_of_forall_ge_iff fun n => ?_
  rw [max_le_iff, Layout.maxBits_le_iff, Layout.maxBits_le_iff, List.forall_mem_append,
    List.forall_mem_singleton]

/-- A new symbol adds the strings that begin with its codeword. -/
theorem kraft_concat (hl : l ≠ 0) (hL : l.toNat ≤ L) :
    kraft (lengths ++ [l]) L = kraft lengths L + 2 ^ (L - l.toNat) := by
  have hnew : bitsOf (lengths ++ [l]) lengths.length = l.toNat := bitsOf_concat_length lengths l
  have hold : ∀ s ∈ active lengths, bitsOf (lengths ++ [l]) s = bitsOf lengths s := by
    intro s hs
    exact bitsOf_append_of_lt [l] (lt_length_of_mem_active hs)
  have hnot : lengths.length ∉ {s ∈ active lengths | bitsOf (lengths ++ [l]) s ≤ L} := by
    intro hmem
    exact Nat.lt_irrefl _ (lt_length_of_mem_active (Finset.mem_filter.1 hmem).1)
  rw [kraft, active_concat hl, Finset.filter_insert, if_pos (hnew.trans_le hL),
    Finset.sum_insert hnot, hnew, Nat.add_comm, kraft]
  -- the shares of the others are what they were
  congr 1
  refine Finset.sum_congr (Finset.filter_congr fun s hs => by rw [hold s hs]) fun s hs => ?_
  rw [hold s (Finset.mem_filter.1 hs).1]

/-- Where all strings are taken there are too few for one more symbol. -/
theorem two_pow_lt_kraft_concat (hl : l ≠ 0)
    (hfull : kraft lengths (maxBits lengths) = 2 ^ maxBits lengths) :
    2 ^ maxBits (lengths ++ [l]) <
      kraft (lengths ++ [l]) (maxBits (lengths ++ [l])) := by
  have hmax : maxBits lengths ≤ maxBits (lengths ++ [l]) := by
    rw [maxBits_concat]
    exact le_max_left _ _
  have hlmax : l.toNat ≤ maxBits (lengths ++ [l]) := by
    rw [maxBits_concat]
    exact le_max_right _ _
  rw [kraft_concat hl hlmax, kraft_eq_two_pow_mul hmax, hfull, ← Nat.pow_add,
    Nat.sub_add_cancel hmax]
  exact Nat.lt_add_of_pos_right (Nat.two_pow_pos _)

/-- Where one string is left over there are enough for a symbol with a codeword that is no shorter
than the others. -/
theorem kraft_concat_le (hl : l ≠ 0) (hlong : maxBits lengths ≤ l.toNat)
    (hfree : kraft lengths (maxBits lengths) < 2 ^ maxBits lengths) :
    kraft (lengths ++ [l]) (maxBits (lengths ++ [l])) ≤ 2 ^ maxBits (lengths ++ [l]) := by
  have hmax : maxBits (lengths ++ [l]) = l.toNat := by
    rw [maxBits_concat, max_eq_right hlong]
  rw [hmax, kraft_concat hl le_rfl, kraft_eq_two_pow_mul hlong, Nat.sub_self, Nat.pow_zero]
  calc 2 ^ (l.toNat - maxBits lengths) * kraft lengths (maxBits lengths) + 1
      ≤ 2 ^ (l.toNat - maxBits lengths) * (kraft lengths (maxBits lengths) + 1) := by
        rw [Nat.mul_add, Nat.mul_one]
        exact Nat.add_le_add_left (Nat.two_pow_pos _) _
    _ ≤ 2 ^ (l.toNat - maxBits lengths) * 2 ^ maxBits lengths := Nat.mul_le_mul_left _ hfree
    _ = 2 ^ l.toNat := by rw [← Nat.pow_add, Nat.sub_add_cancel hlong]

end Lengths

/-! ### Construction with a new symbol -/

/-- A new symbol whose codeword is short enough keeps the lengths within the limits. -/
lemma Limits.Admits.concat (h : limits.Admits lengths) (hn : lengths.length < maxSymbols)
    (hle : l ≤ limits.maxLength) : limits.Admits (lengths ++ [l]) where
  maxLength_ne_zero := h.maxLength_ne_zero
  maxLength_le := h.maxLength_le
  length_le := by
    rw [List.length_append]
    exact hn
  maxBits_le := by
    rw [maxBits_concat]
    exact max_le h.maxBits_le (UInt8.le_iff_toNat_le.1 hle)
  maxBits_pos := by
    rw [maxBits_concat]
    exact lt_max_of_lt_left h.maxBits_pos

namespace Layout

/-- A complete code is refused with any new symbol. -/
theorem ofLengths_concat_of_complete (h : ofLengths limits lengths = .ok layout)
    (hcomplete : layout.complete = true) (hn : lengths.length < maxSymbols) (hpos : 1 ≤ l)
    (hle : l ≤ limits.maxLength) :
    ∃ L, ofLengths limits (lengths ++ [l]) = .error (.oversubscribed L) := by
  have hfull := (describes_of_ofLengths h).complete_iff.1 hcomplete
  have hover := two_pow_lt_kraft_concat (ne_zero_of_one_le hpos) hfull
  rcases ((admits_of_ofLengths h).concat hn hle).ofLengths_cases with
    ⟨-, hres⟩ | ⟨hlt, -⟩ | ⟨layout', hdesc, -⟩
  · exact hres
  · exact absurd hlt (Nat.not_lt.2 hover.le)
  · exact absurd hdesc.realizable.kraft_le (Nat.not_le.2 hover)

/-- A code that is not complete, and does not have to be, can have any new symbol whose codeword is
no shorter than the others. -/
theorem exists_ofLengths_concat_eq_ok (hreq : limits.requireComplete = false)
    (h : ofLengths limits lengths = .ok layout) (hincomplete : layout.complete = false)
    (hn : lengths.length < maxSymbols) (hlong : layout.longest ≤ l) (hle : l ≤ limits.maxLength) :
    ∃ layout', ofLengths limits (lengths ++ [l]) = .ok layout' := by
  have hdesc := describes_of_ofLengths h
  have hl : l ≠ 0 := ne_zero_of_one_le (UInt8.le_trans (one_le_longest h) hlong)
  have hlong : maxBits lengths ≤ l.toNat := by
    rwa [← hdesc.toNat_longest, ← UInt8.le_iff_toNat_le]
  have hfree : kraft lengths (maxBits lengths) < 2 ^ maxBits lengths := by
    refine lt_of_le_of_ne hdesc.realizable.kraft_le ?_
    rwa [ne_eq, ← hdesc.complete_iff, Bool.not_eq_true]
  rcases ((admits_of_ofLengths h).concat hn hle).ofLengths_cases with
    ⟨hover, -⟩ | ⟨-, hreq', -⟩ | ⟨layout', -, -, hres⟩
  · exact absurd (kraft_concat_le hl hlong hfree) (Nat.not_le.2 hover)
  · rw [hreq] at hreq'
    cases hreq'
  · exact ⟨layout', hres⟩

/-- A code is complete exactly if it can have no new symbol. -/
theorem complete_iff_forall_concat_refused (hreq : limits.requireComplete = false)
    (h : ofLengths limits lengths = .ok layout) (hn : lengths.length < maxSymbols) :
    layout.complete = true ↔ ∀ l, 1 ≤ l → l ≤ limits.maxLength →
      ∀ layout', ofLengths limits (lengths ++ [l]) ≠ .ok layout' := by
  constructor
  · intro hcomplete l hpos hle layout' hres
    obtain ⟨L, hover⟩ := ofLengths_concat_of_complete h hcomplete hn hpos hle
    cases hover.symm.trans hres
  · intro hrefused
    by_contra hincomplete
    -- a symbol with a codeword as long as the longest ones would be accepted
    obtain ⟨layout', hres⟩ := exists_ofLengths_concat_eq_ok hreq h
      (Bool.eq_false_of_not_eq_true hincomplete) hn (UInt8.le_refl _) (longest_le_maxLength h)
    exact hrefused _ (one_le_longest h) (longest_le_maxLength h) layout' hres

end Layout

namespace Table

/-- **The complete codes are the maximal ones.**  Let lengths be accepted, where the code does not
have to be complete and the alphabet has room for one more symbol.  If the code is complete, then no
symbol can be added to it: whatever its length, within the limits, some length is oversubscribed.
If it is not, then any symbol can be added whose codeword is as long as the longest ones or longer,
and within the limits; and there is such a length.  So a code is complete exactly if every new
symbol is refused. -/
theorem complete_codes_are_maximal (hreq : limits.requireComplete = false)
    (htable : Table.ofLengths limits lengths = .ok table) (hn : lengths.length < maxSymbols) :
    (table.complete = true → ∀ l, 1 ≤ l → l ≤ limits.maxLength →
      ∃ L, Table.ofLengths limits (lengths ++ [l]) = .error (.oversubscribed L) ∧
        Codebook.ofLengths limits (lengths ++ [l]) = .error (.oversubscribed L)) ∧
    (table.complete = false → ∀ l, table.longest ≤ l → l ≤ limits.maxLength →
      (∃ table', Table.ofLengths limits (lengths ++ [l]) = .ok table') ∧
        ∃ book', Codebook.ofLengths limits (lengths ++ [l]) = .ok book') ∧
    (table.complete = true ↔ ∀ l, 1 ≤ l → l ≤ limits.maxLength →
      ∀ table', Table.ofLengths limits (lengths ++ [l]) ≠ .ok table') := by
  obtain ⟨layout, hlayout, rfl⟩ := Except.map_eq_ok_iff.1 htable
  refine ⟨?_, ?_, ?_⟩
  · intro hcomplete l hpos hle
    obtain ⟨L, hres⟩ := Layout.ofLengths_concat_of_complete hlayout hcomplete hn hpos hle
    exact ⟨L, Except.map_eq_error_iff.2 hres, Except.map_eq_error_iff.2 hres⟩
  · intro hincomplete l hlong hle
    obtain ⟨layout', hres⟩ :=
      Layout.exists_ofLengths_concat_eq_ok hreq hlayout hincomplete hn hlong hle
    exact ⟨⟨_, Except.map_eq_ok_iff.2 ⟨layout', hres, rfl⟩⟩,
      _, Except.map_eq_ok_iff.2 ⟨layout', hres, rfl⟩⟩
  · refine (Layout.complete_iff_forall_concat_refused hreq hlayout hn).trans ?_
    simp [Table.ofLengths, Except.map_eq_ok_iff]

/-- The complete code of the lengths 1, 2 and 2 has no room for a symbol of three bits; beside the
codewords of the lengths 1 and 2 alone there is room for it. -/
theorem one_more_symbol_of_three_bits :
    (∃ table L, Table.ofLengths .deflate [1, 2, 2] = .ok table ∧
      Table.ofLengths .deflate ([1, 2, 2] ++ [3]) = .error (.oversubscribed L)) ∧
    ∃ table table', Table.ofLengths .deflate [1, 0, 2] = .ok table ∧
      Table.ofLengths .deflate ([1, 0, 2] ++ [3]) = .ok table' := by
  have hfull : Table.ofLengths .deflate [1, 2, 2] =
      .ok ⟨2, #[⟨0, 1, 0⟩, ⟨2, 2, 1⟩], #[0, 1, 2], true⟩ := by decide +kernel
  have hpart : Table.ofLengths .deflate [1, 0, 2] =
      .ok ⟨2, #[⟨0, 1, 0⟩, ⟨2, 1, 1⟩], #[0, 2], false⟩ := by decide +kernel
  obtain ⟨L, hover, -⟩ :=
    (complete_codes_are_maximal rfl hfull (by decide)).1 rfl 3 (by decide) (by decide)
  obtain ⟨⟨table', hmore⟩, -⟩ :=
    (complete_codes_are_maximal rfl hpart (by decide)).2.1 rfl 3 (by decide) (by decide)
  exact ⟨⟨_, L, hfull, hover⟩, _, table', hpart, hmore⟩

end Table

end PrefixCode
