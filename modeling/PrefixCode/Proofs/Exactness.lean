/-
# Words that hold what they should

The numbers of a code are computed in words of a fixed width, and a word of 32 bits has just room
for the last codeword of 32 bits.  What an operation on words yields is compared here with the
number that it stands for.

While a layout is computed this is so at every length that is reached, whether the lengths are
accepted in the end or not: one more length is reached only if there have been enough bit strings up
to there (`Reaches.kraft_le`), and then the start of the next length is at most twice their number
(`exactStep_of_reaches`).  The numbers of an accepted layout have no more bits than their lengths
say, so the casts to 32 bits are exact, and so are the numbers inside of a block.  Where numbers are
handed out one by one, the next one of a length may wrap around, but this is past the last codeword
of 32 bits (`WrapsAt.eq_last`), and nobody asks for it.
-/
import PrefixCode.Proofs.Observation

namespace PrefixCode

open PrefixCode.Lengths

variable {limits : Limits} {lengths : List UInt8} {layout : Layout} {L : Nat}

/-! ### While a layout is computed -/

namespace Layout

/-- The length `L` is reached: the lengths have passed the tests that come first, and no shorter
length has been found overfull. -/
structure Reaches (limits : Limits) (lengths : List UInt8) (L : Nat) : Prop where
  supported : ¬ (limits.maxLength = 0 ∨ supportedMaxLength < limits.maxLength)
  length_le : lengths.length ≤ maxSymbols
  tooLong?_eq_none : tooLong? limits.maxLength lengths = none
  le_longest : L ≤ (longestOf lengths).toNat
  not_overfull : ∀ k < L, ¬ capacity k < stop (tally (longestOf lengths) lengths) k

/-- In the step from the length `L` to the next one every operation yields the number that it
stands for, since this is a number of 64 bits. -/
structure ExactStep (counts : Array UInt32) (L : Nat) : Prop where
  sum_lt : (start counts L).toNat + (countAt counts L).toNat < 2 ^ 64
  double_lt : 2 * ((start counts L).toNat + (countAt counts L).toNat) < 2 ^ 64
  toNat_start : (start counts (L + 1)).toNat =
    2 * ((start counts L).toNat + (countAt counts L).toNat)
  stop_lt : (start counts (L + 1)).toNat + (countAt counts (L + 1)).toNat < 2 ^ 64
  toNat_stop : (stop counts (L + 1)).toNat =
    (start counts (L + 1)).toNat + (countAt counts (L + 1)).toNat
  toNat_capacity : (capacity (L + 1)).toNat = 2 ^ (L + 1)

namespace Reaches

lemma le_supported (h : Reaches limits lengths L) : L ≤ 32 := by
  have hsupp := UInt8.le_iff_toNat_le.1 (not_unsupported_iff.1 h.supported).2
  have hmax := tooLong?_eq_none_iff.1 h.tooLong?_eq_none
  have hlongest := toNat_longestOf lengths ▸ h.le_longest
  exact hlongest.trans (hmax.trans hsupp)

/-- There are enough bit strings of every length before one that is reached. -/
theorem kraft_le (h : Reaches limits lengths L) {k : Nat} (hk : k < L) :
    kraft lengths k ≤ 2 ^ k := by
  -- up to `k` there were enough of them, so the words that have been compared at `k` are exact
  induction k using Nat.strong_induction_on with
  | _ k ih =>
    have hle := h.le_supported
    have hfit := h.not_overfull k hk
    rwa [UInt64.lt_iff_toNat_lt, toNat_capacity (by omega),
      toNat_stop h.length_le (by omega) fun j hj => ih j hj (hj.trans hk), Nat.not_lt] at hfit

end Reaches

/-- Nothing is lost in the step to a length that is reached. -/
theorem exactStep_of_reaches (h : Reaches limits lengths (L + 1)) :
    ExactStep (tally (longestOf lengths) lengths) L := by
  have hle := h.le_supported
  have hpow : 2 ^ L ≤ 2 ^ 32 := Nat.pow_le_pow_right Nat.two_pos (by omega)
  have hkraft : kraft lengths L ≤ 2 ^ L := h.kraft_le (Nat.lt_succ_self L)
  have hcard := card_ofLength_le lengths (L + 1)
  have hn : lengths.length ≤ 65536 := h.length_le
  -- what the words are: the numbers of strings that begin with a codeword
  have hstart : (start (tally (longestOf lengths) lengths) L).toNat = below lengths L :=
    toNat_start h.length_le (by omega) fun k hk => h.kraft_le (hk.trans (Nat.lt_succ_self L))
  have hnext : (start (tally (longestOf lengths) lengths) (L + 1)).toNat = below lengths (L + 1) :=
    toNat_start h.length_le hle fun k hk => h.kraft_le hk
  have hstop : (stop (tally (longestOf lengths) lengths) (L + 1)).toNat = kraft lengths (L + 1) :=
    toNat_stop h.length_le hle fun k hk => h.kraft_le hk
  have hsum := kraft_eq_below_add lengths L
  have hdouble := below_succ lengths L
  have hsum' := kraft_eq_below_add lengths (L + 1)
  constructor
  · rw [hstart, toNat_countAt h.length_le]
    omega
  · rw [hstart, toNat_countAt h.length_le]
    omega
  · rw [hstart, toNat_countAt h.length_le]
    omega
  · rw [hnext, toNat_countAt h.length_le]
    omega
  · rw [hstop, hnext, toNat_countAt h.length_le]
    omega
  · exact toNat_capacity (by omega)

/-- If no length is overfull, the strings that are taken can be subtracted from all strings of the
greatest length. -/
lemma stop_le_capacity {longest : UInt8} {counts : Array UInt32} (hne : longest ≠ 0)
    (h : overfull? longest counts = none) :
    stop counts longest.toNat ≤ capacity longest.toNat := by
  have hpos : longest.toNat ≠ 0 := fun h0 => hne (UInt8.toNat_inj.1 h0)
  rw [overfull?, List.find?_range'_eq_none] at h
  have hlast := h longest.toNat (by omega) (by omega)
  rwa [Bool.not_eq_true', decide_eq_false_iff_not, UInt64.not_lt] at hlast

/-- The starts of an accepted layout lose nothing in the cast to 32 bits. -/
lemma Describes.toNat_first_eq_start (h : layout.Describes lengths)
    (hL : L ≤ layout.longest.toNat) :
    (layout.first L).toNat = (start (tally (longestOf lengths) lengths) L).toNat := by
  rw [h.toNat_longest] at hL
  have hle := hL.trans h.realizable.maxBits_le
  rw [h.toNat_first L hL, toNat_start h.realizable.length_le hle fun k _ =>
    h.realizable.kraft_le_two_pow k]

end Layout

/-! ### Inside of a block -/

namespace Table

/-- The greatest number of a block is the sum that it is computed as, and has as many bits as the
length says. -/
lemma toNat_of_maxCode?_eq_some (h : layout.Describes lengths) {length : UInt8} {value : UInt32}
    (hmax : (ofLayout layout lengths).maxCode? length = some value) :
    ∃ block, (ofLayout layout lengths).block? length = some block ∧ 1 ≤ block.count.toNat ∧
      value.toNat = block.first.toNat + (block.count.toNat - 1) ∧
      value.toNat < 2 ^ length.toNat := by
  obtain ⟨block, hblock, rfl⟩ := Option.map_eq_some_iff.1 hmax
  obtain ⟨hne, hget, hpos⟩ := block?_eq_some_iff.1 hblock
  have hlength : length.toNat ≠ 0 := fun h0 => hne (UInt8.toNat_inj.1 h0)
  have hone : 1 ≤ block.count.toNat := UInt32.lt_iff_toNat_lt.1 hpos
  have hpred : (block.count - 1).toNat = block.count.toNat - 1 :=
    UInt32.toNat_sub_of_le _ _ (UInt32.le_iff_toNat_le.2 hone)
  -- it is the number in the last place
  have hlast := toNat_first_add h hget (k := block.count.toNat - 1) (by omega)
  rw [← hpred, Nat.toUInt32_eq, UInt32.ofNat_toNat] at hlast
  obtain ⟨-, hfit⟩ := fits_block h hget
  rw [Nat.sub_add_cancel (Nat.pos_of_ne_zero hlength)] at hfit
  exact ⟨block, hblock, hone, by rw [hlast, hpred], by omega⟩

/-- The numbers of the listed codewords are the sums that they are computed as, and have as many
bits as their lengths say. -/
lemma toNat_of_mem_codes (h : layout.Describes lengths) {symbol : UInt16} {code : Codeword}
    (hmem : (symbol, code) ∈ (ofLayout layout lengths).codes) :
    ∃ i block k, (ofLayout layout lengths).blocks[i]? = some block ∧ k < block.count.toNat ∧
      code.length.toNat = i + 1 ∧ code.value.toNat = block.first.toNat + k ∧
      code.value.toNat < 2 ^ code.length.toNat := by
  obtain ⟨i, block, hblock, hmem⟩ := mem_codes_iff_exists.1 hmem
  obtain ⟨k, hk, -, rfl⟩ := mem_blockCodes_iff.1 hmem
  have hlength := toNat_length_block h hblock
  have hvalue := toNat_first_add h hblock hk
  obtain ⟨-, hfit⟩ := fits_block h hblock
  refine ⟨i, block, k, hblock, hk, hlength, hvalue, ?_⟩
  rw [hlength, hvalue]
  omega

end Table

/-! ### While numbers are handed out -/

namespace Codebook

variable {r s : Nat} {l : UInt8}

/-- The next number of the length `l` when the symbol `s` gets its codeword. -/
def nextNumber (layout : Layout) (lengths : List UInt8) (s : Nat) (l : UInt8) : UInt32 :=
  (draft layout (lengths.take s)).next.getD l.toNat 0

/-- After the number of the symbol `s`, of length `l`, the next one is not greater by one. -/
def WrapsAt (layout : Layout) (lengths : List UInt8) (s : Nat) (l : UInt8) : Prop :=
  lengths[s]? = some l ∧ l ≠ 0 ∧
    (nextNumber layout lengths (s + 1) l).toNat ≠ (nextNumber layout lengths s l).toNat + 1

instance (layout : Layout) (lengths : List UInt8) (s : Nat) (l : UInt8) :
    Decidable (WrapsAt layout lengths s l) :=
  inferInstanceAs (Decidable (_ ∧ _ ∧ _))

/-- The number that a symbol gets is the first one of its length, plus one for each symbol of this
length in front of it: it has not wrapped around. -/
theorem toNat_nextNumber (h : layout.Describes lengths) (hs : lengths[s]? = some l) (hl : l ≠ 0) :
    (nextNumber layout lengths s l).toNat =
      (layout.first l.toNat).toNat + (lengths.take s).count l := by
  rw [nextNumber, toNat_next_draft h hs hl, place_eq_below_add_count hs hl,
    h.toNat_first _ (toNat_le_maxBits hs hl)]

/-- The number that a symbol gets has as many bits as its length says. -/
lemma toNat_nextNumber_lt (h : layout.Describes lengths) (hs : lengths[s]? = some l)
    (hl : l ≠ 0) : (nextNumber layout lengths s l).toNat < 2 ^ l.toNat := by
  have hactive : s ∈ active lengths := mem_active_iff_getElem?.2 ⟨l, hs, hl⟩
  have hlt := h.realizable.place_lt_two_pow hactive
  rwa [bitsOf_eq hs, ← toNat_next_draft h hs hl] at hlt

namespace WrapsAt

/-- What wraps around to zero is the number after the greatest one of 32 bits. -/
lemma toNat_eq (h : layout.Describes lengths) (hw : WrapsAt layout lengths s l) :
    (nextNumber layout lengths s l).toNat = 2 ^ 32 - 1 ∧
      nextNumber layout lengths (s + 1) l = 0 := by
  obtain ⟨hs, hl, hne⟩ := hw
  have hsucc : nextNumber layout lengths (s + 1) l = nextNumber layout lengths s l + 1 :=
    next_draft_succ h hs hl
  have hlt := (nextNumber layout lengths s l).toNat_lt
  rw [hsucc, ← UInt32.toNat_inj]
  rw [hsucc] at hne
  simp only [UInt32.toNat_add, UInt32.toNat_one, UInt32.toNat_zero] at hne ⊢
  omega

/-- Only the numbers of 32 bits can wrap around. -/
lemma length_eq (h : layout.Describes lengths) (hw : WrapsAt layout lengths s l) : l = 32 := by
  obtain ⟨hvalue, -⟩ := hw.toNat_eq h
  obtain ⟨hs, hl, -⟩ := hw
  have hle := toNat_le_maxBits hs hl
  have hmax := h.realizable.maxBits_le
  have hlt := toNat_nextNumber_lt h hs hl
  have hge : ¬ l.toNat < 32 := by
    intro hshort
    have hpow : 2 ^ l.toNat ≤ 2 ^ 31 := Nat.pow_le_pow_right Nat.two_pos (by omega)
    omega
  exact UInt8.toNat_inj.1 (show l.toNat = 32 by omega)

/-- No symbol after the one whose number is the last of all has a codeword of this length. -/
theorem eq_last (h : layout.Describes lengths) (hw : WrapsAt layout lengths s l) (hsr : s < r) :
    lengths[r]? ≠ some l := by
  intro hr
  obtain ⟨hvalue, -⟩ := hw.toNat_eq h
  obtain ⟨hs, hl, -⟩ := hw
  -- its number would be greater
  have hcount : (lengths.take s).count l < (lengths.take r).count l := by
    have hsucc : (lengths.take (s + 1)).count l = (lengths.take s).count l + 1 := by
      rw [List.take_add_one, hs, Option.toList_some, List.count_append, List.count_singleton_self]
    have hmono := ((List.take_prefix_take_left hsr : lengths.take (s + 1) <+: _).sublist).count_le l
    omega
  have hfirst := toNat_nextNumber h hs hl
  have hfirst' := toNat_nextNumber h hr hl
  have hlt := (nextNumber layout lengths r l).toNat_lt
  omega

/-- Numbers wrap around at most once. -/
theorem unique (h : layout.Describes lengths) {k : UInt8} (hr : WrapsAt layout lengths r k)
    (hs : WrapsAt layout lengths s l) : r = s := by
  have hkl : k = l := (hr.length_eq h).trans (hs.length_eq h).symm
  subst hkl
  rcases Nat.lt_trichotomy r s with hlt | heq | hlt
  · exact absurd hs.1 (hr.eq_last h hlt)
  · exact heq
  · exact absurd hr.1 (hs.eq_last h hlt)

end WrapsAt

end Codebook

/-! ### All operations on words -/

namespace Layout

/-- **No number of a code is lost in a word.**  Up to the first length that is overfull, if there is
one, neither a sum nor a double exceeds 64 bits; and if there is none, the strings that are taken
are no more than there are.  The words of an accepted layout are exact: the starts of all lengths in
32 bits, the greatest number of each length, and the number of each listed codeword, which have no
more bits than the length.  A codebook hands out the first number of a length and those after it as
they are.  The next number of a length wraps around at most once: from the greatest number of 32
bits to zero, when no symbol is left that would get it. -/
theorem fixed_width_operations_are_exact (limits : Limits) (lengths : List UInt8) :
    (∀ L, Reaches limits lengths (L + 1) → ExactStep (tally (longestOf lengths) lengths) L) ∧
    (longestOf lengths ≠ 0 →
      overfull? (longestOf lengths) (tally (longestOf lengths) lengths) = none →
      stop (tally (longestOf lengths) lengths) (longestOf lengths).toNat ≤
        capacity (longestOf lengths).toNat) ∧
    ∀ layout, ofLengths limits lengths = .ok layout →
      (∀ L ≤ layout.longest.toNat, (layout.first L).toNat =
        (start (tally (longestOf lengths) lengths) L).toNat) ∧
      (∀ length value, (Table.ofLayout layout lengths).maxCode? length = some value →
        ∃ block, (Table.ofLayout layout lengths).block? length = some block ∧
          1 ≤ block.count.toNat ∧
          value.toNat = block.first.toNat + (block.count.toNat - 1) ∧
          value.toNat < 2 ^ length.toNat) ∧
      (∀ symbol code, (symbol, code) ∈ (Table.ofLayout layout lengths).codes →
        ∃ i block k, (Table.ofLayout layout lengths).blocks[i]? = some block ∧
          k < block.count.toNat ∧ code.length.toNat = i + 1 ∧
          code.value.toNat = block.first.toNat + k ∧
          code.value.toNat < 2 ^ code.length.toNat) ∧
      (∀ s l, lengths[s]? = some l → l ≠ 0 →
        (Codebook.ofLayout layout lengths).code? s =
          some ⟨Codebook.nextNumber layout lengths s l, l⟩ ∧
        (Codebook.nextNumber layout lengths s l).toNat =
          (layout.first l.toNat).toNat + (lengths.take s).count l ∧
        (Codebook.nextNumber layout lengths s l).toNat < 2 ^ l.toNat) ∧
      (∀ s l, Codebook.WrapsAt layout lengths s l →
        l = 32 ∧ (Codebook.nextNumber layout lengths s l).toNat = 2 ^ 32 - 1 ∧
        Codebook.nextNumber layout lengths (s + 1) l = 0 ∧ ∀ r > s, lengths[r]? ≠ some l) ∧
      ∀ r s k l, Codebook.WrapsAt layout lengths r k → Codebook.WrapsAt layout lengths s l →
        r = s := by
  refine ⟨fun L => exactStep_of_reaches, stop_le_capacity, fun layout hlayout => ?_⟩
  have h := describes_of_ofLengths hlayout
  refine ⟨fun L => h.toNat_first_eq_start, fun length value => Table.toNat_of_maxCode?_eq_some h,
    fun symbol code => Table.toNat_of_mem_codes h, fun s l hs hl => ?_, fun s l hw => ?_,
    fun r s k l hr hs => hr.unique h hs⟩
  · have hcode : (Codebook.ofLayout layout lengths).code? s =
        some ⟨UInt32.ofNat (place lengths s), l⟩ := by
      rw [Codebook.code?, Codebook.getElem?_entries_ofLayout h hs, if_neg hl, Option.join_some]
    rw [← Codebook.toNat_next_draft h hs hl, UInt32.ofNat_toNat] at hcode
    exact ⟨hcode, Codebook.toNat_nextNumber h hs hl, Codebook.toNat_nextNumber_lt h hs hl⟩
  · obtain ⟨hvalue, hzero⟩ := hw.toNat_eq h
    exact ⟨hw.length_eq h, hvalue, hzero, fun r => hw.eq_last h⟩

/-- In the code of the lengths 1 to 32, the last one of which occurs twice, all bit strings are
taken.  The last codeword is the greatest number of a word; the next number would be zero. -/
theorem full_code_space_of_32_bits : ∃ layout,
    ofLengths .widest ((List.range' 1 32).map Nat.toUInt8 ++ [32]) = .ok layout ∧
    (start layout.counts 32).toNat =
      2 * ((start layout.counts 31).toNat + (countAt layout.counts 31).toNat) ∧
    (Codebook.ofLayout layout ((List.range' 1 32).map Nat.toUInt8 ++ [32])).code? 32 =
      some ⟨4294967295, 32⟩ ∧
    Codebook.nextNumber layout ((List.range' 1 32).map Nat.toUInt8 ++ [32]) 33 32 = 0 := by
  have hlayout : ofLengths .widest ((List.range' 1 32).map Nat.toUInt8 ++ [32]) =
      .ok ⟨32, #[0] ++ Array.replicate 31 1 ++ #[2],
        (Array.range 33).map fun L => (2 ^ L - 2).toUInt32, true⟩ := by decide +kernel
  have hcounts : tally (longestOf ((List.range' 1 32).map Nat.toUInt8 ++ [32]))
      ((List.range' 1 32).map Nat.toUInt8 ++ [32]) =
        #[0] ++ Array.replicate 31 1 ++ #[2] := by decide +kernel
  have hreaches : Reaches .widest ((List.range' 1 32).map Nat.toUInt8 ++ [32]) 32 :=
    ⟨by decide, by decide, by decide +kernel, by decide +kernel, by decide +kernel⟩
  obtain ⟨hstep, -, hexact⟩ :=
    fixed_width_operations_are_exact .widest ((List.range' 1 32).map Nat.toUInt8 ++ [32])
  have hstart := (hstep 31 hreaches).toNat_start
  rw [hcounts] at hstart
  obtain ⟨-, -, -, hcode, hwraps, -⟩ := hexact _ hlayout
  obtain ⟨-, hvalue, hzero, -⟩ := hwraps 32 32 (by decide +kernel)
  obtain ⟨hcode, -, -⟩ := hcode 32 32 (by decide +kernel) (by decide)
  have hlast : Codebook.nextNumber _ _ 32 32 = 4294967295 := UInt32.toNat_inj.1 hvalue
  rw [hlast] at hcode
  exact ⟨_, hlayout, by simpa only [Nat.reduceAdd] using hstart, hcode, hzero⟩

end Layout

end PrefixCode
