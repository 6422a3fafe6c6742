/-
# Prefix codes

A prefix code with given lengths is any choice of bit strings, one for each symbol and as long
as asked for, none of which begins another one.  The codewords that a codebook hands out are
one such choice (`Codebook.isPrefixCode_word`).  Whichever choice it is, its strings can be told
apart when they are written one after the other, so the Kraft–McMillan inequality limits the lengths
(`IsPrefixCode.kraft_le`).  Since lengths within this limit are accepted, the lengths accepted are
those that some prefix code has.
-/
import Mathlib.InformationTheory.Coding.KraftMcMillan
import PrefixCode.Proofs.Codebook
import PrefixCode.Proofs.Refusal

namespace InformationTheory

/-- Non-empty strings, none of which begins another one, can be told apart when they are
written one after the other: the strings that come first begin one another. -/
lemma uniquelyDecodable_of_prefixFree {S : Set (List Bool)} (hnil : [] ∉ S)
    (hfree : ∀ v ∈ S, ∀ w ∈ S, v <+: w → v = w) : UniquelyDecodable S := by
  intro L
  induction L with
  | nil =>
    intro M _ hM heq
    cases M with
    | nil => rfl
    | cons w M =>
      have hw : w = [] := (List.append_eq_nil_iff.1 heq.symm).1
      exact absurd (hw ▸ hM w List.mem_cons_self) hnil
  | cons v L ih =>
    intro M hL hM heq
    rw [List.forall_mem_cons] at hL
    cases M with
    | nil =>
      have hv : v = [] := (List.append_eq_nil_iff.1 heq).1
      exact absurd (hv ▸ hL.1) hnil
    | cons w M =>
      rw [List.forall_mem_cons] at hM
      rw [List.flatten_cons, List.flatten_cons] at heq
      have hvw : v = w := by
        rcases List.prefix_or_prefix_of_prefix (List.prefix_append v L.flatten)
          (heq ▸ List.prefix_append w M.flatten) with hpre | hpre
        · exact hfree v hL.1 w hM.1 hpre
        · exact (hfree w hM.1 v hL.1 hpre).symm
      subst hvw
      rw [ih M hL.2 hM.2 (List.append_cancel_left heq)]

end InformationTheory

namespace PrefixCode

open PrefixCode.Lengths InformationTheory

variable {limits : Limits} {lengths : List UInt8} {book : Codebook}

/-! ### The codewords of a codebook -/

namespace Codebook

variable {r s : Nat}

/-- **The codewords are prefix-free.**  Of two symbols with codewords, neither has one that
begins the other's, be it by the test on the numbers or by the lists of bits. -/
theorem codewords_are_prefix_free (h : Codebook.ofLengths limits lengths = .ok book)
    (hr : r ∈ active lengths) (hs : s ∈ active lengths) (hne : r ≠ s) :
    ∃ c d, book.code? r = some c ∧ book.code? s = some d ∧
      c.isPrefixOf d = false ∧ ¬ c.bits <+: d.bits := by
  have hreal := realizable_of_ofLengths h
  obtain ⟨c, hrc, hc⟩ := exists_code?_eq_some h hr
  obtain ⟨d, hsd, hd⟩ := exists_code?_eq_some h hs
  have hbits : ¬ c.bits <+: d.bits := fun hpre => hne (hc.symbol_eq_of_bits_prefix hreal hd hpre)
  refine ⟨c, d, hrc, hsd, ?_, hbits⟩
  rw [← Bool.not_eq_true, Codeword.isPrefixOf_eq_true_iff (hc.fits hreal) (hd.fits hreal)]
  exact hbits

/-- The codeword `0` of the second symbol does not begin the codeword `10` of the first. -/
theorem prefix_free_of_two_symbols : ∃ book c d,
    Codebook.ofLengths .deflate [2, 1, 0, 3, 3] = .ok book ∧
    1 ∈ active [2, 1, 0, 3, 3] ∧ 0 ∈ active [2, 1, 0, 3, 3] ∧
    book.code? 1 = some c ∧ book.code? 0 = some d ∧
    c.isPrefixOf d = false ∧ ¬ c.bits <+: d.bits := by
  have hbook : Codebook.ofLengths .deflate [2, 1, 0, 3, 3] =
      .ok ⟨#[some ⟨2, 2⟩, some ⟨0, 1⟩, none, some ⟨6, 3⟩, some ⟨7, 3⟩]⟩ := by decide +kernel
  have hone : 1 ∈ active [2, 1, 0, 3, 3] := by decide
  have hzero : 0 ∈ active [2, 1, 0, 3, 3] := by decide
  obtain ⟨c, d, hcodes⟩ := codewords_are_prefix_free hbook hone hzero (by decide)
  exact ⟨_, c, d, hbook, hone, hzero, hcodes⟩

end Codebook

/-! ### Prefix codes in general -/

namespace Lengths

/-- Bit strings, one for each symbol, are a prefix code with these lengths. -/
structure IsPrefixCode (lengths : List UInt8) (word : Nat → List Bool) : Prop where
  length_eq : ∀ s ∈ active lengths, (word s).length = bitsOf lengths s
  not_prefix : ∀ r ∈ active lengths, ∀ s ∈ active lengths, r ≠ s → ¬ word r <+: word s

namespace IsPrefixCode

variable {word : Nat → List Bool}

lemma eq_of_prefix (h : IsPrefixCode lengths word) {r s : Nat} (hr : r ∈ active lengths)
    (hs : s ∈ active lengths) (hpre : word r <+: word s) : r = s := by
  by_contra hne
  exact h.not_prefix r hr s hs hne hpre

lemma injOn (h : IsPrefixCode lengths word) : Set.InjOn word (active lengths) := by
  intro r hr s hs heq
  exact h.eq_of_prefix hr hs (heq ▸ List.prefix_rfl)

lemma uniquelyDecodable (h : IsPrefixCode lengths word) :
    UniquelyDecodable (((active lengths).image word : Finset (List Bool)) : Set (List Bool)) := by
  refine uniquelyDecodable_of_prefixFree ?_ ?_
  · intro hmem
    obtain ⟨s, hs, hnil⟩ := Finset.mem_image.1 hmem
    have hlength := h.length_eq s hs
    rw [hnil, List.length_nil] at hlength
    exact mem_active.1 hs hlength.symm
  · intro v hv w hw hpre
    obtain ⟨r, hr, rfl⟩ := Finset.mem_image.1 hv
    obtain ⟨s, hs, rfl⟩ := Finset.mem_image.1 hw
    rw [h.eq_of_prefix hr hs hpre]

/-- The inequality of Kraft and McMillan for the strings of a prefix code, each of which is
weighed by its length. -/
lemma sum_weights_le_one (h : IsPrefixCode lengths word) :
    ∑ s ∈ active lengths, (1 / 2 : ℝ) ^ bitsOf lengths s ≤ 1 := by
  have hsum := kraft_mcmillan_inequality h.uniquelyDecodable
  rw [Finset.sum_image h.injOn, Fintype.card_bool] at hsum
  refine le_trans (le_of_eq (Finset.sum_congr rfl fun s hs => ?_)) hsum
  rw [h.length_eq s hs]
  norm_num

/-- **There are enough bit strings for a prefix code.** -/
theorem kraft_le (h : IsPrefixCode lengths word) :
    kraft lengths (maxBits lengths) ≤ 2 ^ maxBits lengths := by
  have hkraft : (kraft lengths (maxBits lengths) : ℝ) =
      2 ^ maxBits lengths * ∑ s ∈ active lengths, (1 / 2 : ℝ) ^ bitsOf lengths s := by
    rw [kraft, Finset.filter_true_of_mem fun s hs => bitsOf_le_maxBits hs, Finset.mul_sum]
    push_cast
    refine Finset.sum_congr rfl fun s hs => ?_
    rw [pow_sub₀ (2 : ℝ) two_ne_zero (bitsOf_le_maxBits hs), one_div, inv_pow]
  have hle : (kraft lengths (maxBits lengths) : ℝ) ≤ 2 ^ maxBits lengths := by
    rw [hkraft]
    exact mul_le_of_le_one_right (by positivity) h.sum_weights_le_one
  exact_mod_cast hle

end IsPrefixCode

end Lengths

/-- What a codebook hands out is a prefix code. -/
theorem Codebook.isPrefixCode_word (h : Codebook.ofLengths limits lengths = .ok book) :
    IsPrefixCode lengths book.word := by
  constructor
  · intro s hs
    rw [word, Codeword.length_bits, (isCanonical_codeword h hs).toNat_length]
  · intro r hr s hs hne hpre
    have hcanonical := isCanonical_codeword h hr
    exact hne (hcanonical.symbol_eq_of_bits_prefix (realizable_of_ofLengths h)
      (isCanonical_codeword h hs) hpre)

/-! ### Accepted lengths -/

/-- Where the lengths keep to the limits and the code need not be complete, the one thing
that can be wrong is that there are too few bit strings. -/
lemma LengthsError.Applies.exists_eq_oversubscribed {e : LengthsError}
    (h : Applies limits lengths e) (hmax : 1 ≤ limits.maxLength) (hsupp : limits.maxLength ≤ 32)
    (hinc : limits.requireComplete = false) (hn : lengths.length ≤ 65536)
    (hle : ∀ l ∈ lengths, l ≤ limits.maxLength) (hne : ∃ l ∈ lengths, l ≠ 0) :
    ∃ L, e = .oversubscribed L ∧ 2 ^ maxBits lengths < kraft lengths (maxBits lengths) := by
  cases h with
  | unsupportedMaximum hbad =>
    rcases hbad with hzero | hlt
    · exact absurd (hzero ▸ hmax) (by decide)
    · exact absurd hsupp (UInt8.not_le.2 hlt)
  | tooManySymbols hlt => exact absurd hn (Nat.not_le.2 hlt)
  | lengthTooLong hs hlong _ =>
    exact absurd (hle _ (List.mem_of_getElem? hs)) (UInt8.not_le.2 hlong)
  | emptyAlphabet hzero =>
    obtain ⟨l, hl, hl0⟩ := hne
    exact absurd (hzero l hl) hl0
  | @oversubscribed L _ hbits hover _ =>
    refine ⟨L, rfl, Nat.lt_of_not_le fun hkraft => ?_⟩
    exact absurd (kraft_le_of_le hbits hkraft) (Nat.not_le.2 hover)
  | incomplete hreq => exact absurd (hreq.symm.trans hinc) (by decide)

/-- **Lengths are accepted exactly if there is a prefix code with them.**  So they are refused
as oversubscribed only if no choice of bit strings whatever has these lengths. -/
theorem accepted_iff_exists_prefix_code (limits : Limits) (lengths : List UInt8)
    (hmax : 1 ≤ limits.maxLength) (hsupp : limits.maxLength ≤ 32)
    (hinc : limits.requireComplete = false) (hn : lengths.length ≤ 65536)
    (hle : ∀ l ∈ lengths, l ≤ limits.maxLength) (hne : ∃ l ∈ lengths, l ≠ 0) :
    ((∃ table, Table.ofLengths limits lengths = .ok table) ↔
      ∃ word, IsPrefixCode lengths word) ∧
    ((∃ book, Codebook.ofLengths limits lengths = .ok book) ↔
      ∃ word, IsPrefixCode lengths word) ∧
    ((∃ L, Table.ofLengths limits lengths = .error (.oversubscribed L)) ↔
      ¬ ∃ word, IsPrefixCode lengths word) ∧
    ((∃ L, Codebook.ofLengths limits lengths = .error (.oversubscribed L)) ↔
      ¬ ∃ word, IsPrefixCode lengths word) := by
  have haccepted : (∃ layout, Layout.ofLengths limits lengths = .ok layout) ↔
      ∃ word, IsPrefixCode lengths word := by
    constructor
    · rintro ⟨layout, hlayout⟩
      exact ⟨_, Codebook.isPrefixCode_word (Except.map_eq_ok_iff.2 ⟨layout, hlayout, rfl⟩)⟩
    · rintro ⟨word, hword⟩
      rw [LengthsError.exists_ofLengths_eq_ok_iff]
      intro e he
      obtain ⟨-, -, hover⟩ := he.exists_eq_oversubscribed hmax hsupp hinc hn hle hne
      exact absurd hword.kraft_le (Nat.not_le.2 hover)
  have hrefused : (∃ L, Layout.ofLengths limits lengths = .error (.oversubscribed L)) ↔
      ¬ ∃ word, IsPrefixCode lengths word := by
    rw [← haccepted]
    constructor
    · rintro ⟨L, herror⟩ ⟨layout, hok⟩
      rw [hok] at herror
      cases herror
    · intro hnone
      cases hres : Layout.ofLengths limits lengths with
      | ok layout => exact absurd ⟨layout, hres⟩ hnone
      | error e =>
        have happlies := (LengthsError.isFirst_of_ofLengths hres).1
        obtain ⟨L, rfl, -⟩ := happlies.exists_eq_oversubscribed hmax hsupp hinc hn hle hne
        exact ⟨L, rfl⟩
  simp only [Table.ofLengths, Codebook.ofLengths, Except.map_eq_error_iff]
  refine ⟨?_, ?_, hrefused, hrefused⟩ <;> rw [← haccepted] <;> simp [Except.map_eq_ok_iff]

/-- There is a prefix code with the lengths 1, 3, 2; but once the bit strings of two bits are
taken up by the lengths 1, 2, 2, none is left for a third bit. -/
theorem prefix_codes_of_few_lengths : (∃ word, IsPrefixCode [1, 3, 0, 2] word) ∧
    ¬ ∃ word, IsPrefixCode [1, 2, 2, 3] word := by
  have htable : Table.ofLengths .deflate [1, 3, 0, 2] =
      .ok ⟨3, #[⟨0, 1, 0⟩, ⟨2, 1, 1⟩, ⟨6, 1, 2⟩], #[0, 3, 1], false⟩ := by decide +kernel
  have hrefused : Table.ofLengths .deflate [1, 2, 2, 3] = .error (.oversubscribed 3) := by
    decide +kernel
  have haccepted := accepted_iff_exists_prefix_code .deflate [1, 3, 0, 2] (by decide) (by decide)
    rfl (by simp) (by simp [Limits.deflate, deflateMaxLength]) ⟨1, by simp⟩
  have hover := accepted_iff_exists_prefix_code .deflate [1, 2, 2, 3] (by decide) (by decide)
    rfl (by simp) (by simp [Limits.deflate, deflateMaxLength]) ⟨1, by simp⟩
  exact ⟨haccepted.1.1 ⟨_, htable⟩, hover.2.2.1.1 ⟨3, hrefused⟩⟩

end PrefixCode
