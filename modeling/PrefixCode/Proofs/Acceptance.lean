/-
# Limits and acceptance

Limits are tests that lengths have to pass, and they leave no trace in what is laid out.  What
they ask for, the bit strings left aside, is put together in `Limits.Admits`; from there on the
Kraft sum decides (`Admits.ofLengths_cases`).  So for lengths that some limits accept, any other
limits have three ways to answer: there is a codeword that is too long for them, or they lay out the
very same code, or they want it to be complete and it is not (`ofLengths_under_other_limits`).
-/
import PrefixCode.Codebook
import PrefixCode.Proofs.Layout
import PrefixCode.Table

namespace PrefixCode

open PrefixCode.Lengths

variable {limits limits' : Limits} {lengths : List UInt8} {layout layout' : Layout}

lemma Lengths.ne_zero_of_one_le {l : UInt8} (h : 1 ≤ l) : l ≠ 0 := by
  rintro rfl
  exact absurd h (by decide)

/-! ### Lengths within limits -/

/-- Some code can have these limits, and the lengths keep to them.  Whether there are enough bit
strings for the lengths is another question. -/
structure Limits.Admits (limits : Limits) (lengths : List UInt8) : Prop where
  maxLength_ne_zero : limits.maxLength ≠ 0
  maxLength_le : limits.maxLength ≤ 32
  length_le : lengths.length ≤ maxSymbols
  maxBits_le : maxBits lengths ≤ limits.maxLength.toNat
  maxBits_pos : 0 < maxBits lengths

namespace Limits.Admits

lemma maxBits_le_supported (h : limits.Admits lengths) : maxBits lengths ≤ 32 :=
  h.maxBits_le.trans (UInt8.le_iff_toNat_le.1 h.maxLength_le)

/-- Lengths that are admitted are laid out by their counts. -/
lemma ofLengths_eq_ofCounts (h : limits.Admits lengths) :
    Layout.ofLengths limits lengths = Layout.ofCounts limits.requireComplete
      (Layout.longestOf lengths) (Layout.tally (Layout.longestOf lengths) lengths) :=
  Layout.ofLengths_eq_ofCounts h.maxLength_ne_zero h.maxLength_le h.length_le h.maxBits_le
    h.maxBits_pos

/-- Whether lengths that are admitted have a code is decided by their Kraft sum. -/
theorem ofLengths_cases (h : limits.Admits lengths) :
    (2 ^ maxBits lengths < kraft lengths (maxBits lengths) ∧
      ∃ L, Layout.ofLengths limits lengths = .error (.oversubscribed L)) ∨
    (kraft lengths (maxBits lengths) < 2 ^ maxBits lengths ∧ limits.requireComplete = true ∧
      ∃ unused total : UInt64,
        Layout.ofLengths limits lengths =
          .error (.incomplete (Layout.longestOf lengths) unused total) ∧
        unused.toNat + kraft lengths (maxBits lengths) = 2 ^ maxBits lengths ∧
        total.toNat = 2 ^ maxBits lengths) ∨
    ∃ layout : Layout, layout.Describes lengths ∧
      (limits.requireComplete = true → layout.complete = true) ∧
      Layout.ofLengths limits lengths = .ok layout := by
  rw [h.ofLengths_eq_ofCounts]
  rcases Layout.ofCounts_cases limits.requireComplete h.length_le h.maxBits_pos
    h.maxBits_le_supported with ⟨L, hover, hres⟩ | ⟨unused, total, hreq, hlt, hunused, htotal, hres⟩
      | ⟨layout, hdesc, hcomplete, hres⟩
  · refine Or.inl ⟨?_, _, hres⟩
    rw [← Nat.not_le, ← Layout.overfull?_eq_none_iff h.length_le h.maxBits_le_supported, hover]
    simp
  · exact Or.inr (Or.inl ⟨hlt, hreq, unused, total, hres, by omega, htotal⟩)
  · exact Or.inr (Or.inr ⟨layout, hdesc, hcomplete, hres⟩)

end Limits.Admits

/-! ### Other limits for the same lengths -/

namespace Layout

/-- Limits that accept lengths admit them. -/
lemma admits_of_ofLengths (h : ofLengths limits lengths = .ok layout) : limits.Admits lengths := by
  obtain ⟨hne, hsupp, hn, hmax, hpos, -⟩ := ofLengths_eq_ok_iff.1 h
  exact ⟨hne, hsupp, hn, hmax, hpos⟩

/-- The longest codewords keep to the limits. -/
lemma longest_le_maxLength (h : ofLengths limits lengths = .ok layout) :
    layout.longest ≤ limits.maxLength := by
  rw [UInt8.le_iff_toNat_le, (describes_of_ofLengths h).toNat_longest]
  exact (admits_of_ofLengths h).maxBits_le

/-- No codeword is empty. -/
lemma one_le_longest (h : ofLengths limits lengths = .ok layout) : 1 ≤ layout.longest := by
  rw [UInt8.le_iff_toNat_le, (describes_of_ofLengths h).toNat_longest]
  exact (admits_of_ofLengths h).maxBits_pos

/-- Nothing of the limits is left in a layout. -/
lemma ofLengths_ok_unique (h : ofLengths limits lengths = .ok layout)
    (h' : ofLengths limits' lengths = .ok layout') : layout' = layout := by
  rw [(admits_of_ofLengths h).ofLengths_eq_ofCounts] at h
  rw [(admits_of_ofLengths h').ofLengths_eq_ofCounts] at h'
  exact ofCounts_ok_unique h h'

/-- A codeword that is too long for the limits is reported before the bit strings are counted. -/
lemma ofLengths_of_lt_maxBits (hne : limits.maxLength ≠ 0) (hsupp : limits.maxLength ≤ 32)
    (hn : lengths.length ≤ maxSymbols) (hmax : limits.maxLength.toNat < maxBits lengths) :
    ∃ s l, lengths[s]? = some l ∧ limits.maxLength < l ∧
      ofLengths limits lengths = .error (.lengthTooLong s l limits.maxLength) := by
  rw [ofLengths, if_neg (not_unsupported_iff.2 ⟨hne, hsupp⟩), if_neg (Nat.not_lt.2 hn)]
  cases hlong : tooLong? limits.maxLength lengths with
  | none => exact absurd (tooLong?_eq_none_iff.1 hlong) (Nat.not_le.2 hmax)
  | some entry =>
    obtain ⟨hs, hlt, -⟩ := tooLong?_eq_some_iff.1 hlong
    exact ⟨_, _, hs, hlt, rfl⟩

/-- Where no symbol has a codeword, this is reported if it is the only thing to be wrong. -/
lemma ofLengths_of_maxBits_eq_zero (hne : limits.maxLength ≠ 0) (hsupp : limits.maxLength ≤ 32)
    (hn : lengths.length ≤ maxSymbols) (hzero : maxBits lengths = 0) :
    ofLengths limits lengths = .error .emptyAlphabet := by
  have hshort : tooLong? limits.maxLength lengths = none :=
    tooLong?_eq_none_iff.2 (hzero.trans_le (Nat.zero_le _))
  have hempty : longestOf lengths = 0 := longestOf_eq_zero_iff.2 (by omega)
  rw [ofLengths, if_neg (not_unsupported_iff.2 ⟨hne, hsupp⟩), if_neg (Nat.not_lt.2 hn), hshort]
  dsimp only
  rw [if_pos hempty]

/-- The answers of other limits to lengths that have been accepted. -/
theorem ofLengths_under_other_limits (h : ofLengths limits lengths = .ok layout)
    (limits' : Limits) (hne : limits'.maxLength ≠ 0) (hsupp : limits'.maxLength ≤ 32) :
    (limits'.maxLength < layout.longest ∧ ∃ s l, lengths[s]? = some l ∧ limits'.maxLength < l ∧
      ofLengths limits' lengths = .error (.lengthTooLong s l limits'.maxLength)) ∨
    (layout.longest ≤ limits'.maxLength ∧
      (limits'.requireComplete = true → layout.complete = true) ∧
      ofLengths limits' lengths = .ok layout) ∨
    (layout.longest ≤ limits'.maxLength ∧ limits'.requireComplete = true ∧
      layout.complete = false ∧ ∃ unused total : UInt64,
        ofLengths limits' lengths = .error (.incomplete layout.longest unused total) ∧
        unused.toNat + kraft lengths (maxBits lengths) = 2 ^ maxBits lengths ∧
        total.toNat = 2 ^ maxBits lengths) := by
  have hadmits := admits_of_ofLengths h
  have hdesc := describes_of_ofLengths h
  have hlongest : layout.longest ≤ limits'.maxLength ↔
      maxBits lengths ≤ limits'.maxLength.toNat := by
    rw [UInt8.le_iff_toNat_le, hdesc.toNat_longest]
  by_cases hmax : maxBits lengths ≤ limits'.maxLength.toNat
  · have hadmits' : limits'.Admits lengths :=
      ⟨hne, hsupp, hadmits.length_le, hmax, hadmits.maxBits_pos⟩
    rcases hadmits'.ofLengths_cases with
      ⟨hover, -⟩ | ⟨hlt, hreq, unused, total, hres, hunused, htotal⟩ | ⟨_, -, hcomplete, hres⟩
    -- there are enough bit strings, whatever the limits are
    · exact absurd hdesc.realizable.kraft_le (Nat.not_le.2 hover)
    · have heq : longestOf lengths = layout.longest := by
        rw [← UInt8.toNat_inj, toNat_longestOf, hdesc.toNat_longest]
      have hinc : layout.complete = false := by
        rw [← Bool.not_eq_true, hdesc.complete_iff]
        exact hlt.ne
      rw [heq] at hres
      exact Or.inr (Or.inr ⟨hlongest.2 hmax, hreq, hinc, unused, total, hres, hunused, htotal⟩)
    · obtain rfl := ofLengths_ok_unique h hres
      exact Or.inr (Or.inl ⟨hlongest.2 hmax, hcomplete, hres⟩)
  · refine Or.inl ⟨?_, ?_⟩
    · rwa [← UInt8.not_le, hlongest]
    · exact ofLengths_of_lt_maxBits hne hsupp hadmits.length_le (Nat.not_le.1 hmax)

/-- Where the code has to be complete, an accepted layout that is complete is accepted still, and
one that is not is refused with the number of bit strings that begin with no codeword. -/
theorem ofLengths_requireComplete (h : ofLengths limits lengths = .ok layout) :
    (layout.complete = true ∧
      ofLengths { limits with requireComplete := true } lengths = .ok layout) ∨
    (layout.complete = false ∧ ∃ unused total : UInt64,
      ofLengths { limits with requireComplete := true } lengths =
        .error (.incomplete layout.longest unused total) ∧
      unused.toNat + kraft lengths (maxBits lengths) = 2 ^ maxBits lengths) := by
  have hadmits := admits_of_ofLengths h
  rcases ofLengths_under_other_limits h { limits with requireComplete := true }
    hadmits.maxLength_ne_zero hadmits.maxLength_le with
    ⟨hlt, -⟩ | ⟨-, hcomplete, hres⟩ | ⟨-, -, hinc, unused, total, hres, hunused, -⟩
  · exact absurd (longest_le_maxLength h) (UInt8.not_le.2 hlt)
  · exact Or.inl ⟨hcomplete rfl, hres⟩
  · exact Or.inr ⟨hinc, unused, total, hres, hunused⟩

end Layout

/-! ### Tables and codebooks -/

namespace Table

/-- **Limits filter the lengths and do not change the code.**  Let some limits accept the lengths.
Others that a code can have accept them too, with an equal table and the same codebook, if the
longest codewords are short enough for them and the code is complete in case they ask for that.
If a codeword is too long for them, they report the length of one; and in the remaining case they
report how many bit strings an incomplete code leaves over. -/
theorem limits_only_filter (htable : Table.ofLengths limits lengths = .ok table)
    (limits' : Limits) (hpos : 1 ≤ limits'.maxLength) (hsupp : limits'.maxLength ≤ 32) :
    (table.longest ≤ limits'.maxLength →
      (limits'.requireComplete = true → table.complete = true) →
      Table.ofLengths limits' lengths = .ok table ∧
      ∃ book, Codebook.ofLengths limits lengths = .ok book ∧
        Codebook.ofLengths limits' lengths = .ok book) ∧
    (limits'.maxLength < table.longest →
      ∃ s l, lengths[s]? = some l ∧ limits'.maxLength < l ∧
        Table.ofLengths limits' lengths = .error (.lengthTooLong s l limits'.maxLength) ∧
        Codebook.ofLengths limits' lengths = .error (.lengthTooLong s l limits'.maxLength)) ∧
    (table.longest ≤ limits'.maxLength → limits'.requireComplete = true →
      table.complete = false →
      ∃ unused total : UInt64, total.toNat = 2 ^ table.longest.toNat ∧
        unused.toNat + kraft lengths table.longest.toNat = total.toNat ∧
        Table.ofLengths limits' lengths = .error (.incomplete table.longest unused total) ∧
        Codebook.ofLengths limits' lengths = .error (.incomplete table.longest unused total)) := by
  obtain ⟨layout, hlayout, rfl⟩ := Except.map_eq_ok_iff.1 htable
  have hlongest : (ofLayout layout lengths).longest.toNat = maxBits lengths :=
    (Layout.describes_of_ofLengths hlayout).toNat_longest
  rcases Layout.ofLengths_under_other_limits hlayout limits' (ne_zero_of_one_le hpos) hsupp with
    ⟨hlt, s, l, hs, hlong, hres⟩ | ⟨hle, hcomplete, hres⟩ |
      ⟨hle, hreq, hinc, unused, total, hres, hunused, htotal⟩
  · refine ⟨fun hle => absurd hle (UInt8.not_le.2 hlt), fun _ => ?_,
      fun hle => absurd hle (UInt8.not_le.2 hlt)⟩
    exact ⟨s, l, hs, hlong, Except.map_eq_error_iff.2 hres, Except.map_eq_error_iff.2 hres⟩
  · refine ⟨fun _ _ => ?_, fun hlt => absurd hle (UInt8.not_le.2 hlt), fun _ hreq hinc => ?_⟩
    · exact ⟨Except.map_eq_ok_iff.2 ⟨layout, hres, rfl⟩, _,
        Except.map_eq_ok_iff.2 ⟨layout, hlayout, rfl⟩, Except.map_eq_ok_iff.2 ⟨layout, hres, rfl⟩⟩
    · exact absurd (hcomplete hreq) (Bool.eq_false_iff.1 hinc)
  · refine ⟨fun _ hcomplete => ?_, fun hlt => absurd hle (UInt8.not_le.2 hlt), fun _ _ _ => ?_⟩
    · exact absurd (hcomplete hreq) (Bool.eq_false_iff.1 hinc)
    · rw [hlongest]
      exact ⟨unused, total, htotal, hunused.trans htotal.symm, Except.map_eq_error_iff.2 hres,
        Except.map_eq_error_iff.2 hres⟩

/-- The incomplete code of the lengths 1 and 2 is the same under the widest limits; but one bit is
too few for it, and as a complete code it is refused, since one string of two bits is left over. -/
theorem limits_on_two_codewords : ∃ table, Table.ofLengths .deflate [1, 0, 2] = .ok table ∧
    Table.ofLengths .widest [1, 0, 2] = .ok table ∧
    (∃ s l, Table.ofLengths ⟨1, false⟩ [1, 0, 2] = .error (.lengthTooLong s l 1)) ∧
    ∃ unused total : UInt64, unused.toNat + kraft [1, 0, 2] 2 = total.toNat ∧
      Table.ofLengths ⟨32, true⟩ [1, 0, 2] = .error (.incomplete 2 unused total) := by
  have htable : Table.ofLengths .deflate [1, 0, 2] =
      .ok ⟨2, #[⟨0, 1, 0⟩, ⟨2, 1, 1⟩], #[0, 2], false⟩ := by decide +kernel
  have hwide := limits_only_filter htable .widest (by decide) (by decide)
  have hnarrow := limits_only_filter htable ⟨1, false⟩ (by decide) (by decide)
  have hstrict := limits_only_filter htable ⟨32, true⟩ (by decide) (by decide)
  obtain ⟨s, l, -, -, hlong, -⟩ := hnarrow.2.1 (by decide)
  obtain ⟨unused, total, -, hunused, hinc, -⟩ := hstrict.2.2 (by decide) rfl rfl
  exact ⟨_, htable, (hwide.1 (by decide) (by decide)).1, ⟨s, l, hlong⟩, unused, total, hunused,
    hinc⟩

end Table

end PrefixCode
