/-
# Layouts in exact numbers

A layout is computed in machine words: counts in 32 bits, starts and stops in 64, and the
starts once more in 32.  Nothing is lost on the way.  As long as no shorter length is
overfull, the start of a length is the number of bit strings that begin with a shorter
codeword, and its stop is the Kraft sum (`toNat_start`, `toNat_stop`); so the least overfull
length is the least one whose Kraft sum is too large (`overfull?_eq_find?_kraft`), and the
fields of an accepted layout are `Describes`.
-/
import PrefixCode.Layout
import PrefixCode.Proofs.Except
import PrefixCode.Proofs.Kraft

namespace List

/-- Two searches that agree up to where the second one stops find the same number. -/
lemma find?_range'_congr {p q : Nat → Bool} {m n : Nat}
    (h : ∀ i, m ≤ i → i < m + n → (∀ j, m ≤ j → j < i → q j = false) → p i = q i) :
    (range' m n).find? p = (range' m n).find? q := by
  cases hq : (range' m n).find? q with
  | none =>
    rw [List.find?_range'_eq_none] at hq ⊢
    intro i hmi hin
    rw [h i hmi hin fun j hmj hji => by simpa using hq j hmj (by omega)]
    exact hq i hmi hin
  | some i =>
    rw [List.find?_range'_eq_some] at hq ⊢
    obtain ⟨hqi, hmem, hbefore⟩ := hq
    obtain ⟨hmi, hin⟩ := List.mem_range'_1.1 hmem
    have hfalse : ∀ j, m ≤ j → j < i → q j = false := fun j hmj hji => by
      simpa using hbefore j hmj hji
    refine ⟨by rw [h i hmi hin hfalse]; exact hqi, hmem, fun j hmj hji => ?_⟩
    rw [h j hmj (by omega) fun k hmk hkj => hfalse k hmk (by omega)]
    exact hbefore j hmj hji

end List

namespace PrefixCode.Layout

open PrefixCode.Lengths

variable {lengths : List UInt8} {L : Nat}

/-! ### The longest length -/

lemma toNat_foldl_max_le_iff {m : UInt8} {n : Nat} :
    (lengths.foldl max m).toNat ≤ n ↔ m.toNat ≤ n ∧ ∀ l ∈ lengths, l.toNat ≤ n := by
  induction lengths generalizing m with
  | nil => simp
  | cons k lengths ih => rw [List.foldl_cons, ih, UInt8.toNat_max, max_le_iff, List.forall_mem_cons,
      and_assoc]

lemma maxBits_le_iff {n : Nat} : maxBits lengths ≤ n ↔ ∀ l ∈ lengths, l.toNat ≤ n := by
  rw [maxBits, Finset.sup_le_iff]
  constructor
  · intro h l hl
    obtain ⟨s, hs⟩ := List.mem_iff_getElem?.1 hl
    by_cases h0 : l = 0
    · rw [h0]
      exact Nat.zero_le n
    · rw [← bitsOf_eq hs]
      exact h s (mem_active_iff_getElem?.2 ⟨l, hs, h0⟩)
  · intro h s hs
    obtain ⟨l, hl, -⟩ := mem_active_iff_getElem?.1 hs
    rw [bitsOf_eq hl]
    exact h l (List.mem_of_getElem? hl)

/-- There is a longest codeword exactly if there is any. -/
lemma maxBits_pos_iff : 0 < maxBits lengths ↔ ∃ l ∈ lengths, l ≠ 0 := by
  rw [← not_iff_not, Nat.not_lt, maxBits_le_iff]
  simp only [Nat.le_zero, not_exists, not_and, not_not, ← UInt8.toNat_inj, UInt8.toNat_zero]

/-- The greatest entry is the length of the longest codewords. -/
theorem toNat_longestOf (lengths : List UInt8) :
    (longestOf lengths).toNat = maxBits lengths := by
  refine eq_of_forall_ge_iff fun n => ?_
  rw [longestOf, toNat_foldl_max_le_iff, maxBits_le_iff]
  simp

/-! ### Counts -/

/-- Symbols of length zero are not counted. -/
lemma getD_tally_zero (longest : UInt8) (lengths : List UInt8) :
    (tally longest lengths).getD 0 0 = 0 := by
  suffices h : ∀ counts : Array UInt32, 0 < counts.size →
      (lengths.foldl countLength counts).getD 0 0 = counts.getD 0 0 by
    rw [tally, h _ (by simp)]
    simp [Array.getD_eq_getD_getElem?]
  induction lengths with
  | nil => simp
  | cons length lengths ih =>
    intro counts hsize
    rw [List.foldl_cons, ih _ (by rw [size_countLength]; exact hsize)]
    have h : (countLength counts length).getD (0 : UInt8).toNat 0 = _ :=
      getD_countLength counts hsize
    rw [UInt8.toNat_zero] at h
    rw [h, if_neg (by rintro ⟨hne, heq⟩; exact hne heq)]
    simp

/-- Every number of bits from one up to those of a length is a length. -/
lemma exists_length_eq {longest : UInt8} {L : Nat} (h0 : L ≠ 0) (hL : L ≤ longest.toNat) :
    ∃ l : UInt8, l ≠ 0 ∧ l ≤ longest ∧ l.toNat = L := by
  have hlt := longest.toNat_lt
  have hl : (UInt8.ofNat L).toNat = L := by
    rw [UInt8.toNat_ofNat']
    omega
  refine ⟨UInt8.ofNat L, fun heq => h0 ?_, ?_, hl⟩
  · rw [← hl, heq]
    rfl
  · rwa [UInt8.le_iff_toNat_le, hl]

/-- An alphabet that is not too large is counted exactly, at every length. -/
theorem toNat_getD_tally (hn : lengths.length ≤ maxSymbols) (L : Nat) :
    ((tally (longestOf lengths) lengths).getD L 0).toNat = (ofLength lengths L).card := by
  -- the counts end at the longest length, and no symbol is longer
  by_cases hL : L ≤ maxBits lengths
  · have hlongest := toNat_longestOf lengths
    by_cases h0 : L = 0
    · subst h0
      rw [getD_tally_zero, Finset.card_eq_zero.2]
      · rfl
      · refine Finset.filter_eq_empty_iff.2 fun s hs => mem_active.1 hs
    · obtain ⟨l, hne, hle, rfl⟩ := exists_length_eq h0 (hL.trans hlongest.ge)
      have hsmall := List.count_le_length (a := l) (l := lengths)
      rw [getD_tally lengths hne hle, card_ofLength lengths hne, UInt32.toNat_ofNat']
      simp only [maxSymbols] at hn
      omega
  · have hsize := size_tally (longestOf lengths) lengths
    have hlongest := toNat_longestOf lengths
    rw [Array.getD_eq_getD_getElem?, Array.getElem?_eq_none (by omega),
      ofLength_eq_empty (by omega)]
    rfl

/-! ### Starts and stops -/

lemma toNat_capacity (h : L < 64) : (capacity L).toNat = 2 ^ L := by
  have hL : L % 2 ^ 64 = L := Nat.mod_eq_of_lt (by omega)
  rw [capacity, UInt64.toNat_shiftLeft, UInt64.toNat_one, Nat.toUInt64_eq, UInt64.toNat_ofNat',
    hL, Nat.mod_eq_of_lt h, Nat.one_shiftLeft]
  exact Nat.mod_eq_of_lt (Nat.pow_lt_pow_right (by decide) h)

lemma toNat_countAt (hn : lengths.length ≤ maxSymbols) (L : Nat) :
    (countAt (tally (longestOf lengths) lengths) L).toNat = (ofLength lengths L).card := by
  rw [countAt, UInt32.toNat_toUInt64, toNat_getD_tally hn]

/-- The stop of a length is its Kraft sum, if its start is exact. -/
lemma toNat_stop_of_start (hn : lengths.length ≤ maxSymbols) (hL : L ≤ 32)
    (hbelow : below lengths L ≤ 2 ^ L)
    (hstart : (start (tally (longestOf lengths) lengths) L).toNat = below lengths L) :
    (stop (tally (longestOf lengths) lengths) L).toNat = kraft lengths L := by
  have hpow : 2 ^ L ≤ 2 ^ 32 := Nat.pow_le_pow_right Nat.two_pos hL
  have hcard := card_ofLength_le lengths L
  simp only [maxSymbols] at hn
  rw [stop, UInt64.toNat_add, toNat_countAt hn, hstart, kraft_eq_below_add]
  omega

/-- The start of a length is the number of strings that begin with a shorter codeword, as
long as there are enough strings for those. -/
theorem toNat_start (hn : lengths.length ≤ maxSymbols) (hL : L ≤ 32)
    (hfit : ∀ k < L, kraft lengths k ≤ 2 ^ k) :
    (start (tally (longestOf lengths) lengths) L).toNat = below lengths L := by
  -- along the lengths: the sum and the shift are exact because the Kraft sum before was small
  induction L with
  | zero => rw [below_zero]; rfl
  | succ L ih =>
    have hkraft := hfit L (by omega)
    have hpow : 2 ^ L ≤ 2 ^ 32 := Nat.pow_le_pow_right Nat.two_pos (by omega)
    have hbelow : below lengths L ≤ 2 ^ L := by
      rw [kraft_eq_below_add] at hkraft
      omega
    have hstop := toNat_stop_of_start hn (by omega) hbelow
      (ih (by omega) fun k hk => hfit k (by omega))
    rw [start, ← stop, UInt64.toNat_shiftLeft, hstop, below_succ, UInt64.toNat_one,
      Nat.one_mod, Nat.shiftLeft_eq, Nat.pow_one]
    omega

theorem toNat_stop (hn : lengths.length ≤ maxSymbols) (hL : L ≤ 32)
    (hfit : ∀ k < L, kraft lengths k ≤ 2 ^ k) :
    (stop (tally (longestOf lengths) lengths) L).toNat = kraft lengths L := by
  refine toNat_stop_of_start hn hL ?_ (toNat_start hn hL hfit)
  cases L with
  | zero => rw [below_zero]; exact Nat.zero_le _
  | succ L =>
    rw [below_succ, Nat.pow_succ']
    exact Nat.mul_le_mul_left 2 (hfit L (by omega))

/-! ### Overfull lengths -/

/-- A length is found overfull exactly if its Kraft sum is the first that is too large: up
to there the words are exact. -/
theorem overfull?_eq_find?_kraft (hn : lengths.length ≤ maxSymbols)
    (hlong : maxBits lengths ≤ 32) :
    overfull? (longestOf lengths) (tally (longestOf lengths) lengths) =
      (List.range' 1 (maxBits lengths)).find? fun L => 2 ^ L < kraft lengths L := by
  rw [overfull?, toNat_longestOf]
  refine List.find?_range'_congr fun L h1 hL hfit => ?_
  -- there are enough strings of each shorter length, so the words are exact at this one
  have hfit : ∀ k < L, kraft lengths k ≤ 2 ^ k := by
    intro k hk
    by_cases h0 : k = 0
    · rw [h0, kraft_zero]
      exact Nat.zero_le _
    · simpa using hfit k (by omega) hk
  refine decide_eq_decide.2 ?_
  rw [UInt64.lt_iff_toNat_lt, toNat_capacity (by omega), toNat_stop hn (by omega) hfit]

/-- No length is found overfull exactly if there are enough strings of the greatest length. -/
theorem overfull?_eq_none_iff (hn : lengths.length ≤ maxSymbols) (hlong : maxBits lengths ≤ 32) :
    overfull? (longestOf lengths) (tally (longestOf lengths) lengths) = none ↔
      kraft lengths (maxBits lengths) ≤ 2 ^ maxBits lengths := by
  rw [overfull?_eq_find?_kraft hn hlong, List.find?_range'_eq_none]
  simp only [Bool.not_eq_true', decide_eq_false_iff_not, Nat.not_lt]
  constructor
  · intro h
    by_cases h0 : maxBits lengths = 0
    · rw [h0, kraft_zero]
      exact Nat.zero_le _
    · exact h _ (by omega) (by omega)
  · intro h L _ hL
    exact kraft_le_of_le (by omega) h

/-- The length that is found overfull is the least one with too few strings. -/
theorem overfull?_eq_some_iff (hn : lengths.length ≤ maxSymbols) (hlong : maxBits lengths ≤ 32) :
    overfull? (longestOf lengths) (tally (longestOf lengths) lengths) = some L ↔
      1 ≤ L ∧ L ≤ maxBits lengths ∧ 2 ^ L < kraft lengths L ∧
        ∀ k, 1 ≤ k → k < L → kraft lengths k ≤ 2 ^ k := by
  rw [overfull?_eq_find?_kraft hn hlong, List.find?_range'_eq_some, List.mem_range'_1]
  simp only [decide_eq_true_eq, Bool.not_eq_true', decide_eq_false_iff_not, Nat.not_lt]
  constructor
  · rintro ⟨hover, ⟨h1, hL⟩, hbefore⟩
    exact ⟨h1, by omega, hover, hbefore⟩
  · rintro ⟨h1, hL, hover, hbefore⟩
    exact ⟨hover, ⟨h1, by omega⟩, hbefore⟩

/-! ### Lengths that are too long -/

lemma tooLong?_eq_none_iff {max : UInt8} :
    tooLong? max lengths = none ↔ maxBits lengths ≤ max.toNat := by
  rw [maxBits_le_iff, tooLong?, List.find?_eq_none]
  simp only [decide_eq_true_eq, UInt8.lt_iff_toNat_lt, Nat.not_lt]
  constructor
  · intro h l hl
    obtain ⟨s, hs⟩ := List.mem_iff_getElem?.1 hl
    exact h (l, s) (List.mk_mem_zipIdx_iff_getElem?.2 hs)
  · rintro h ⟨l, s⟩ hmem
    exact h l (List.mem_of_getElem? (List.mk_mem_zipIdx_iff_getElem?.1 hmem))

/-- The entry that is found too long is the first one. -/
lemma tooLong?_eq_some_iff {max l : UInt8} {s : Nat} :
    tooLong? max lengths = some (l, s) ↔ lengths[s]? = some l ∧ max < l ∧
      ∀ r k, r < s → lengths[r]? = some k → k ≤ max := by
  rw [tooLong?, List.find?_eq_some_iff_getElem]
  simp only [decide_eq_true_eq, Bool.not_eq_true', decide_eq_false_iff_not, UInt8.not_lt,
    List.getElem_zipIdx, List.length_zipIdx, Prod.mk.injEq, Nat.zero_add]
  constructor
  · rintro ⟨hlt, i, hi, ⟨hl, rfl⟩, hbefore⟩
    refine ⟨by rw [List.getElem?_eq_getElem hi, hl], hlt, fun r k hr hk => ?_⟩
    obtain ⟨hr', rfl⟩ := List.getElem?_eq_some_iff.1 hk
    exact hbefore r hr
  · rintro ⟨hs, hlt, hbefore⟩
    obtain ⟨hi, rfl⟩ := List.getElem?_eq_some_iff.1 hs
    exact ⟨hlt, s, hi, ⟨rfl, rfl⟩, fun r hr =>
      hbefore r _ hr (List.getElem?_eq_getElem (by omega))⟩

/-! ### Accepted layouts -/

/-- What the fields of a layout say about the lengths that it was made for. -/
structure Describes (layout : Layout) (lengths : List UInt8) : Prop where
  realizable : Realizable lengths
  toNat_longest : layout.longest.toNat = maxBits lengths
  size_starts : layout.starts.size = maxBits lengths + 1
  toNat_count : ∀ L, (layout.count L).toNat = (ofLength lengths L).card
  toNat_first : ∀ L ≤ maxBits lengths, (layout.first L).toNat = below lengths L
  complete_iff : layout.complete = true ↔
    kraft lengths (maxBits lengths) = 2 ^ maxBits lengths

/-- Every field of a layout made from counts is exact. -/
lemma describes_mk (hn : lengths.length ≤ maxSymbols) (hpos : 0 < maxBits lengths)
    (hlong : maxBits lengths ≤ 32)
    (hkraft : kraft lengths (maxBits lengths) ≤ 2 ^ maxBits lengths) :
    Describes
      { longest := longestOf lengths
        counts := tally (longestOf lengths) lengths
        starts := (Array.range ((longestOf lengths).toNat + 1)).map fun L =>
          (start (tally (longestOf lengths) lengths) L).toUInt32
        complete := stop (tally (longestOf lengths) lengths) (longestOf lengths).toNat ==
          capacity (longestOf lengths).toNat } lengths := by
  have hreal : Realizable lengths := ⟨hn, hpos, hlong, hkraft⟩
  have hfit : ∀ k < maxBits lengths, kraft lengths k ≤ 2 ^ k := fun k _ =>
    hreal.kraft_le_two_pow k
  refine ⟨hreal, toNat_longestOf lengths, by simp [toNat_longestOf], toNat_getD_tally hn,
    fun L hL => ?_, ?_⟩
  · have hstart := toNat_start hn (hL.trans hlong) fun k hk => hfit k (by omega)
    have hlt := hreal.below_lt_two_pow hL
    have hpow : 2 ^ L ≤ 2 ^ 32 := Nat.pow_le_pow_right Nat.two_pos (hL.trans hlong)
    simp only [first, Array.getD_eq_getD_getElem?, Array.getElem?_map, toNat_longestOf]
    rw [Array.getElem?_range, if_pos (by omega), Option.map_some, Option.getD_some,
      UInt64.toNat_toUInt32, hstart, Nat.mod_eq_of_lt (by omega)]
  · simp only [beq_iff_eq, ← UInt64.toNat_inj, toNat_longestOf]
    rw [toNat_stop hn hlong hfit, toNat_capacity (by omega)]

/-- What laying out counts comes to: some length has too many codewords; or there are enough
bit strings, but not all are taken where they have to be; or there is a layout. -/
theorem ofCounts_cases (requireComplete : Bool) (hn : lengths.length ≤ maxSymbols)
    (hpos : 0 < maxBits lengths) (hlong : maxBits lengths ≤ 32) :
    (∃ L, overfull? (longestOf lengths) (tally (longestOf lengths) lengths) = some L ∧
      ofCounts requireComplete (longestOf lengths) (tally (longestOf lengths) lengths) =
        .error (.oversubscribed L.toUInt8)) ∨
    (∃ unused total, requireComplete = true ∧
      kraft lengths (maxBits lengths) < 2 ^ maxBits lengths ∧
      unused.toNat = 2 ^ maxBits lengths - kraft lengths (maxBits lengths) ∧
      total.toNat = 2 ^ maxBits lengths ∧
      ofCounts requireComplete (longestOf lengths) (tally (longestOf lengths) lengths) =
        .error (.incomplete (longestOf lengths) unused total)) ∨
    ∃ layout : Layout, layout.Describes lengths ∧
      (requireComplete = true → layout.complete = true) ∧
      ofCounts requireComplete (longestOf lengths) (tally (longestOf lengths) lengths) =
        .ok layout := by
  cases hover : overfull? (longestOf lengths) (tally (longestOf lengths) lengths) with
  | some L => exact Or.inl ⟨L, rfl, by rw [ofCounts, hover]⟩
  | none =>
    have hkraft := (overfull?_eq_none_iff hn hlong).1 hover
    have htotal := toNat_capacity (L := maxBits lengths) (by omega)
    have hused := toNat_stop hn hlong fun k hk => kraft_le_of_le hk.le hkraft
    rw [ofCounts, hover]
    dsimp only
    rw [toNat_longestOf]
    -- the words are compared and subtracted as the numbers that they stand for
    split
    · rename_i hinc
      rw [Bool.and_eq_true, bne_iff_ne, ne_eq, ← UInt64.toNat_inj, hused, htotal] at hinc
      have hle : stop (tally (longestOf lengths) lengths) (maxBits lengths) ≤
          capacity (maxBits lengths) := by
        rw [UInt64.le_iff_toNat_le, hused, htotal]
        exact hkraft
      refine Or.inr (Or.inl ⟨_, _, hinc.1, by omega, ?_, htotal, rfl⟩)
      rw [UInt64.toNat_sub_of_le _ _ hle, htotal, hused]
    · rename_i hinc
      have hdesc := describes_mk hn hpos hlong hkraft
      rw [toNat_longestOf] at hdesc
      refine Or.inr (Or.inr ⟨_, hdesc, fun hreq => ?_, rfl⟩)
      rw [hreq, Bool.true_and, Bool.not_eq_true, bne_eq_false_iff_eq] at hinc
      exact beq_iff_eq.2 hinc

/-- A layout made from counts describes the lengths, and is complete where it has to be. -/
theorem describes_of_ofCounts {requireComplete : Bool} {layout : Layout}
    (hn : lengths.length ≤ maxSymbols) (hpos : 0 < maxBits lengths) (hlong : maxBits lengths ≤ 32)
    (h : ofCounts requireComplete (longestOf lengths) (tally (longestOf lengths) lengths) =
      .ok layout) :
    layout.Describes lengths ∧ (requireComplete = true → layout.complete = true) := by
  rcases ofCounts_cases requireComplete hn hpos hlong with
    ⟨_, -, hres⟩ | ⟨_, _, -, -, -, -, hres⟩ | ⟨_, hdesc, hcomplete, hres⟩ <;>
    rw [hres] at h <;> cases h
  exact ⟨hdesc, hcomplete⟩

lemma longestOf_eq_zero_iff : longestOf lengths = 0 ↔ ¬ 0 < maxBits lengths := by
  rw [← UInt8.toNat_inj, toNat_longestOf, Nat.not_lt, Nat.le_zero]
  rfl

/-- Some code can have codewords of up to `max` bits. -/
lemma not_unsupported_iff {max : UInt8} :
    ¬ (max = 0 ∨ supportedMaxLength < max) ↔ max ≠ 0 ∧ max ≤ 32 := by
  rw [not_or, UInt8.not_lt, supportedMaxLength]

/-- Lengths that pass all tests are laid out by their counts. -/
theorem ofLengths_eq_ofCounts {limits : Limits} (hne : limits.maxLength ≠ 0)
    (hsupp : limits.maxLength ≤ 32) (hn : lengths.length ≤ maxSymbols)
    (hmax : maxBits lengths ≤ limits.maxLength.toNat) (hpos : 0 < maxBits lengths) :
    ofLengths limits lengths =
      ofCounts limits.requireComplete (longestOf lengths) (tally (longestOf lengths) lengths) := by
  rw [ofLengths, if_neg (not_unsupported_iff.2 ⟨hne, hsupp⟩), if_neg (Nat.not_lt.2 hn),
    tooLong?_eq_none_iff.2 hmax]
  dsimp only
  rw [if_neg fun h0 => longestOf_eq_zero_iff.1 h0 hpos]

/-- Lengths are laid out exactly if they pass all tests, and then by their counts. -/
theorem ofLengths_eq_ok_iff {limits : Limits} {layout : Layout} :
    ofLengths limits lengths = .ok layout ↔
      limits.maxLength ≠ 0 ∧ limits.maxLength ≤ 32 ∧ lengths.length ≤ maxSymbols ∧
        maxBits lengths ≤ limits.maxLength.toNat ∧ 0 < maxBits lengths ∧
          ofCounts limits.requireComplete (longestOf lengths)
            (tally (longestOf lengths) lengths) = .ok layout := by
  constructor
  · intro h
    rw [ofLengths] at h
    split at h
    · cases h
    rename_i hsupported
    split at h
    · cases h
    rename_i hn
    split at h
    · cases h
    rename_i hshort
    dsimp only at h
    split at h
    · cases h
    rename_i hpos
    rw [longestOf_eq_zero_iff, not_not] at hpos
    obtain ⟨hne, hsupp⟩ := not_unsupported_iff.1 hsupported
    exact ⟨hne, hsupp, Nat.not_lt.1 hn, tooLong?_eq_none_iff.1 hshort, hpos, h⟩
  · rintro ⟨hne, hsupp, hn, hmax, hpos, h⟩
    rw [ofLengths_eq_ofCounts hne hsupp hn hmax hpos, h]

/-- An accepted layout describes its lengths. -/
theorem describes_of_ofLengths {limits : Limits} {layout : Layout}
    (h : ofLengths limits lengths = .ok layout) : layout.Describes lengths := by
  obtain ⟨-, hsupp, hn, hmax, hpos, hcounts⟩ := ofLengths_eq_ok_iff.1 h
  exact (describes_of_ofCounts hn hpos (hmax.trans (UInt8.le_iff_toNat_le.1 hsupp)) hcounts).1

/-- An accepted layout is complete where it has to be. -/
theorem complete_of_ofLengths {limits : Limits} {layout : Layout}
    (h : ofLengths limits lengths = .ok layout) (hreq : limits.requireComplete = true) :
    layout.complete = true := by
  obtain ⟨-, hsupp, hn, hmax, hpos, hcounts⟩ := ofLengths_eq_ok_iff.1 h
  exact (describes_of_ofCounts hn hpos (hmax.trans (UInt8.le_iff_toNat_le.1 hsupp)) hcounts).2 hreq

/-- Whether the code has to be complete makes no difference to what is laid out. -/
lemma ofCounts_ok_unique {requireComplete requireComplete' : Bool} {longest : UInt8}
    {counts : Array UInt32} {layout layout' : Layout}
    (h : ofCounts requireComplete longest counts = .ok layout)
    (h' : ofCounts requireComplete' longest counts = .ok layout') : layout' = layout := by
  cases hover : overfull? longest counts with
  | some L =>
    rw [ofCounts, hover] at h
    cases h
  | none =>
    rw [ofCounts, hover] at h h'
    dsimp only at h h'
    split at h
    · cases h
    split at h'
    · cases h'
    rw [← Except.ok.inj h, ← Except.ok.inj h']

end PrefixCode.Layout
