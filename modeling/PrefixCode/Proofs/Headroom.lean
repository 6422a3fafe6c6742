/-
# Room below the greatest length

While the lengths of a code are laid out, each of them is only tested for not having more codewords
than there are bit strings.  If the test is passed at the greatest length, more is true at all the
others: there is a codeword of the greatest length, its first bits begin with no shorter codeword,
and so at each shorter length a string is left over (`Realizable.kraft_lt_two_pow`).  Since the
canonical code takes the least strings first, the string of ones is left over at all of them.

Conversely, a length at which all strings are taken has to be the greatest one.  If a longer
codeword is asked for all the same, there is no string for it (`two_pow_lt_kraft_of_full`), and the
least such length is the one that is reported.
-/
import PrefixCode.Proofs.Codebook
import PrefixCode.Proofs.Coverage

namespace PrefixCode

/-! ### Strings that are left over -/

namespace Lengths

variable {lengths : List UInt8} {L k : Nat}

/-- The codewords of the next length start at a string of that length, and what begins with a
shorter codeword lies before it. -/
theorem Realizable.kraft_lt_two_pow (h : Realizable lengths) (hL : L < maxBits lengths) :
    kraft lengths L < 2 ^ L := by
  have hnext := h.below_lt_two_pow (Nat.succ_le_of_lt hL)
  rw [below_succ, Nat.pow_succ'] at hnext
  exact Nat.lt_of_mul_lt_mul_left hnext

/-- If all strings of `k` bits are taken, then all longer strings begin with one of the codewords
of at most `k` bits. -/
lemma below_of_full (hfull : kraft lengths k = 2 ^ k) (hkL : k < L)
    (hgap : ∀ s ∈ active lengths, k < bitsOf lengths s → L ≤ bitsOf lengths s) :
    below lengths L = 2 ^ L := by
  have hsame : {s ∈ active lengths | bitsOf lengths s < L} =
      {s ∈ active lengths | bitsOf lengths s ≤ k} := by
    refine Finset.filter_congr fun s hs => ⟨fun hlt => ?_, fun hle => hle.trans_lt hkL⟩
    have := hgap s hs
    omega
  calc below lengths L
      = ∑ s ∈ active lengths with bitsOf lengths s ≤ k, 2 ^ (L - bitsOf lengths s) := by
        rw [below, hsame]
    _ = 2 ^ (L - k) * kraft lengths k := by
        rw [kraft, two_pow_mul_sum_weights hkL.le fun s hs => (Finset.mem_filter.1 hs).2]
    _ = 2 ^ L := by rw [hfull, ← Nat.pow_add, Nat.sub_add_cancel hkL.le]

/-- If all strings of `k` bits are taken, there is none for the next length that is asked for. -/
theorem two_pow_lt_kraft_of_full (hfull : kraft lengths k = 2 ^ k) (hkL : k < L)
    (hgap : ∀ s ∈ active lengths, k < bitsOf lengths s → L ≤ bitsOf lengths s)
    (hL : (ofLength lengths L).Nonempty) : 2 ^ L < kraft lengths L := by
  rw [kraft_eq_below_add, below_of_full hfull hkL hgap]
  exact Nat.lt_add_of_pos_right (Finset.card_pos.2 hL)

/-- Up to there, no length has too many codewords. -/
lemma kraft_le_of_full (hfull : kraft lengths k = 2 ^ k)
    (hgap : ∀ s ∈ active lengths, k < bitsOf lengths s → L ≤ bitsOf lengths s) {j : Nat}
    (hj : j < L) : kraft lengths j ≤ 2 ^ j := by
  rcases Nat.lt_or_ge j k with hjk | hkj
  · exact kraft_le_of_le hjk.le hfull.le
  · have hbelow : below lengths (j + 1) = 2 ^ (j + 1) :=
      below_of_full hfull (Nat.lt_succ_of_le hkj) fun s hs hlt => hj.trans_le (hgap s hs hlt)
    rw [below_succ, Nat.pow_succ'] at hbelow
    exact (Nat.eq_of_mul_eq_mul_left Nat.two_pos hbelow).le

/-- If a codeword is longer than `k` bits, there is a least such length. -/
lemma exists_isLeast_longer (hk : k < maxBits lengths) :
    ∃ l, IsLeast {l | l ∈ lengths ∧ k < l.toNat} l := by
  have hne : {s ∈ active lengths | k < bitsOf lengths s}.Nonempty := by
    obtain ⟨s, hs⟩ := ofLength_maxBits_nonempty (Nat.ne_zero_of_lt hk)
    obtain ⟨hactive, hbits⟩ := mem_ofLength.1 hs
    exact ⟨s, Finset.mem_filter.2 ⟨hactive, hbits ▸ hk⟩⟩
  obtain ⟨s, hs, hleast⟩ := Finset.exists_min_image _ (bitsOf lengths) hne
  obtain ⟨hactive, hlt⟩ := Finset.mem_filter.1 hs
  obtain ⟨l, hl, -⟩ := mem_active_iff_getElem?.1 hactive
  refine ⟨l, ⟨List.mem_of_getElem? hl, bitsOf_eq hl ▸ hlt⟩, ?_⟩
  rintro m ⟨hm, hkm⟩
  obtain ⟨r, hr⟩ := List.mem_iff_getElem?.1 hm
  have hbits := bitsOf_eq hr
  have hle := hleast r (Finset.mem_filter.2 ⟨mem_active.2 (by omega), by omega⟩)
  rw [bitsOf_eq hl, hbits] at hle
  exact UInt8.le_iff_toNat_le.2 hle

end Lengths

open PrefixCode.Lengths

/-! ### The string of ones -/

lemma Codeword.numberOf_replicate_true (n : Nat) :
    numberOf (List.replicate n true) = 2 ^ n - 1 := by
  induction n with
  | zero => rfl
  | succ n ih =>
    have hpos := Nat.two_pow_pos n
    rw [List.replicate_succ', numberOf_concat, ih, Nat.pow_succ']
    simp
    omega

variable {limits : Limits} {lengths : List UInt8} {layout : Layout} {L k : Nat}

/-- The string of ones is the last one of its length, and where a string is left over it is not
taken. -/
lemma IsCanonical.not_prefix_ones {code : Codeword} {s : Nat} (hreal : Realizable lengths)
    (hcode : IsCanonical lengths s code) (hL : L < maxBits lengths) :
    ¬ code.bits <+: List.replicate L true := by
  intro hpre
  have hlong := hL.le.trans hreal.maxBits_le
  have hlength : (List.replicate L true).length ≤ 32 := by rwa [List.length_replicate]
  have hfits := Codeword.fits_ofBits hlength
  have hfree := hreal.kraft_lt_two_pow hL
  have hlt := (exists_prefix_iff_lt_kraft hreal hfits).1
    ⟨s, code, hcode, by rwa [Codeword.bits_ofBits hlength]⟩
  rw [Codeword.toNat_value_ofBits hlength, Codeword.toNat_length_ofBits hlength,
    List.length_replicate, Codeword.numberOf_replicate_true] at hlt
  omega

namespace Layout

/-! ### First codewords -/

/-- The first codeword of a length is a string of that length. -/
lemma Describes.toNat_first_lt (h : layout.Describes lengths) (hL : L ≤ maxBits lengths) :
    (layout.first L).toNat < 2 ^ L := by
  rw [h.toNat_first L hL]
  exact h.realizable.below_lt_two_pow hL

/-- Below the greatest length, so is the one after the last codeword. -/
lemma Describes.toNat_first_add_count_lt (h : layout.Describes lengths)
    (hL : L < maxBits lengths) :
    (layout.first L).toNat + (layout.count L).toNat < 2 ^ L := by
  rw [h.toNat_first L hL.le, h.toNat_count, ← kraft_eq_below_add]
  exact h.realizable.kraft_lt_two_pow hL

/-- Lengths that leave no room for a longer codeword, although there is one, are refused for the
least length that is longer. -/
theorem ofLengths_of_full (hadmits : limits.Admits lengths)
    (hfull : kraft lengths k = 2 ^ k) {l : UInt8}
    (hl : IsLeast {l | l ∈ lengths ∧ k < l.toNat} l) :
    ofLengths limits lengths = .error (.oversubscribed l) := by
  obtain ⟨⟨hmem, hkl⟩, hleast⟩ := hl
  obtain ⟨s, hs⟩ := List.mem_iff_getElem?.1 hmem
  have hne : l ≠ 0 := by
    rintro rfl
    exact Nat.not_lt_zero k hkl
  have hgap : ∀ r ∈ active lengths, k < bitsOf lengths r → l.toNat ≤ bitsOf lengths r := by
    intro r hr hlt
    obtain ⟨m, hm, -⟩ := mem_active_iff_getElem?.1 hr
    rw [bitsOf_eq hm] at hlt ⊢
    exact UInt8.le_iff_toNat_le.1 (hleast ⟨List.mem_of_getElem? hm, hlt⟩)
  have hover : overfull? (longestOf lengths) (tally (longestOf lengths) lengths) =
      some l.toNat := by
    refine (overfull?_eq_some_iff hadmits.length_le hadmits.maxBits_le_supported).2
      ⟨by omega, toNat_le_maxBits hs hne, ?_, fun j _ hj => kraft_le_of_full hfull hgap hj⟩
    exact two_pow_lt_kraft_of_full hfull hkl hgap ⟨s, (mem_ofLength_toNat hne).2 hs⟩
  rw [hadmits.ofLengths_eq_ofCounts, ofCounts, hover]
  simp

/-- Lengths that take all strings of some length, or more than there are, and ask for a longer
codeword are refused for having too many codewords. -/
theorem ofLengths_of_two_pow_le (hadmits : limits.Admits lengths) (hL : L < maxBits lengths)
    (hfull : 2 ^ L ≤ kraft lengths L) :
    ∃ l, ofLengths limits lengths = .error (.oversubscribed l) := by
  have hover : ¬ kraft lengths (maxBits lengths) ≤ 2 ^ maxBits lengths := fun hle =>
    Nat.not_lt.2 hfull <| Realizable.kraft_lt_two_pow
      ⟨hadmits.length_le, hadmits.maxBits_pos, hadmits.maxBits_le_supported, hle⟩ hL
  rcases hadmits.ofLengths_cases with ⟨-, hres⟩ | ⟨hlt, -⟩ | ⟨layout, hdesc, -⟩
  · exact hres
  · exact absurd hlt.le hover
  · exact absurd hdesc.realizable.kraft_le hover

/-- **Below the greatest length there is room.**  The first codeword of each length, used or not, is
the number of strings that begin with a shorter codeword, and a string of that length.  Below the
greatest length, so is the number after the last codeword, and the string of ones begins with no
codeword.  Hence lengths that take all strings of a length, and ask for a longer codeword, are
always refused for having too many codewords: if they take just those strings, too many of the least
length that is longer. -/
theorem shorter_lengths_leave_room (limits : Limits) (lengths : List UInt8) :
    (∀ layout, ofLengths limits lengths = .ok layout →
      layout.longest.toNat = maxBits lengths ∧
      ∀ L, 1 ≤ L → L ≤ maxBits lengths →
        (layout.first L).toNat =
          ∑ s ∈ active lengths with bitsOf lengths s < L, 2 ^ (L - bitsOf lengths s) ∧
        (layout.first L).toNat < 2 ^ L ∧
        (L < maxBits lengths →
          (layout.first L).toNat + (layout.count L).toNat < 2 ^ L ∧
          ∀ s code, (Codebook.ofLayout layout lengths).code? s = some code →
            ¬ code.bits <+: List.replicate L true)) ∧
    (limits.Admits lengths → ∀ L < maxBits lengths, 2 ^ L ≤ kraft lengths L →
      ∃ l, ofLengths limits lengths = .error (.oversubscribed l) ∧
        (kraft lengths L = 2 ^ L → IsLeast {l | l ∈ lengths ∧ L < l.toNat} l)) := by
  refine ⟨fun layout hlayout => ?_, fun hadmits L hL hfull => ?_⟩
  · have h := describes_of_ofLengths hlayout
    refine ⟨h.toNat_longest, fun L _ hle => ⟨h.toNat_first L hle, h.toNat_first_lt hle,
      fun hlt => ⟨h.toNat_first_add_count_lt hlt, fun s code hcode => ?_⟩⟩⟩
    exact ((Codebook.code?_ofLayout_eq_some_iff h).1 hcode).not_prefix_ones h.realizable hlt
  · rcases hfull.eq_or_lt with heq | hlt
    · obtain ⟨l, hl⟩ := exists_isLeast_longer hL
      exact ⟨l, ofLengths_of_full hadmits heq.symm hl, fun _ => hl⟩
    · obtain ⟨l, hl⟩ := ofLengths_of_two_pow_le hadmits hL hfull
      exact ⟨l, hl, fun heq => absurd heq hlt.ne'⟩

/-- One codeword of one bit and two of three leave room at two bits, and the number of the first
codeword there is two although there is none; two codewords of one bit leave no room for one of
three. -/
theorem room_below_three_bits :
    (∃ layout, ofLengths .deflate [1, 3, 0, 3] = .ok layout ∧ layout.count 2 = 0 ∧
      (layout.first 2).toNat =
        ∑ s ∈ active [1, 3, 0, 3] with bitsOf [1, 3, 0, 3] s < 2,
          2 ^ (2 - bitsOf [1, 3, 0, 3] s) ∧
      (layout.first 2).toNat + (layout.count 2).toNat < 2 ^ 2) ∧
    ∃ l, ofLengths .deflate [1, 1, 3] = .error (.oversubscribed l) ∧
      IsLeast {l | l ∈ ([1, 1, 3] : List UInt8) ∧ 1 < l.toNat} l := by
  have hlayout : ofLengths .deflate [1, 3, 0, 3] =
      .ok ⟨3, #[0, 1, 0, 2], #[0, 0, 2, 4], false⟩ := by decide +kernel
  have hroom := (shorter_lengths_leave_room .deflate [1, 3, 0, 3]).1 _ hlayout
  have hbits : maxBits [1, 3, 0, 3] = 3 := by decide +kernel
  obtain ⟨hfirst, -, hlt⟩ := hroom.2 2 (by decide) (by omega)
  have hadmits : Limits.deflate.Admits [1, 1, 3] :=
    ⟨by decide, by decide, by decide, by decide +kernel, by decide +kernel⟩
  obtain ⟨l, hl, hleast⟩ := (shorter_lengths_leave_room .deflate [1, 1, 3]).2 hadmits 1
    (by decide +kernel) (by decide +kernel)
  exact ⟨⟨_, hlayout, by decide, hfirst, (hlt (by omega)).1⟩, l, hl, hleast (by decide +kernel)⟩

end Layout

end PrefixCode
