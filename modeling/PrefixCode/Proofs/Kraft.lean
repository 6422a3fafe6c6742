/-
# Kraft sums

The lengths of a code are weighed here without any code at hand: a codeword of `l` bits
begins `2 ^ (L - l)` of the bit strings of `L` bits, and `kraft lengths L` adds this up over
the codewords of at most `L` bits.  Restricted to the codewords that come before the one of
a given symbol, shorter ones first and those of one length in the order of their symbols,
the same sum is `place lengths s`: the number of bit strings, as long as the codeword of
`s`, that begin with an earlier codeword.

Both sums obey the recurrence by which a canonical code is laid out: `below_succ` and
`kraft_eq_below_add` go from one length to the next, and `place_eq_below_add_count` counts off
the symbols of one length.
The two inequalities on which prefix-freeness rests are `place_step`, between two symbols,
and `two_pow_mul_place_add_one_le`, between a symbol and the whole sum.
-/
import Mathlib.Algebra.BigOperators.Ring.Finset
import Mathlib.Algebra.Order.BigOperators.Group.Finset
import Mathlib.Order.Lattice.Nat
import PrefixCode.Limits

namespace Finset

lemma card_filter_lt_succ (S : Finset Nat) (n : Nat) :
    {r ∈ S | r < n + 1}.card = {r ∈ S | r < n}.card + if n ∈ S then 1 else 0 := by
  have hsplit : {r ∈ S | r < n + 1} = {r ∈ S | r < n} ∪ {r ∈ S | r = n} := by
    rw [← Finset.filter_or]
    exact Finset.filter_congr fun r _ => by omega
  have hdisj : Disjoint {r ∈ S | r < n} {r ∈ S | r = n} :=
    Finset.disjoint_filter.2 fun r _ hlt heq => by omega
  rw [hsplit, Finset.card_union_of_disjoint hdisj, Finset.filter_eq']
  split <;> simp

end Finset

namespace PrefixCode.Lengths

/-! ### Definitions -/

/-- The number of bits in the codeword of a symbol, zero if the symbol has none. -/
def bitsOf (lengths : List UInt8) (s : Nat) : Nat :=
  (lengths.getD s 0).toNat

/-- The symbols that have a codeword. -/
def active (lengths : List UInt8) : Finset Nat :=
  {s ∈ Finset.range lengths.length | bitsOf lengths s ≠ 0}

/-- The symbols whose codewords have `L` bits. -/
def ofLength (lengths : List UInt8) (L : Nat) : Finset Nat :=
  {s ∈ active lengths | bitsOf lengths s = L}

/-- The length of the longest codewords. -/
def maxBits (lengths : List UInt8) : Nat :=
  (active lengths).sup (bitsOf lengths)

/-- How many bit strings of `L` bits begin with a codeword, if no codeword begins with
another one. -/
def kraft (lengths : List UInt8) (L : Nat) : Nat :=
  ∑ s ∈ active lengths with bitsOf lengths s ≤ L, 2 ^ (L - bitsOf lengths s)

/-- The same for the codewords of less than `L` bits. -/
def below (lengths : List UInt8) (L : Nat) : Nat :=
  ∑ s ∈ active lengths with bitsOf lengths s < L, 2 ^ (L - bitsOf lengths s)

/-- The order in which codewords are handed out: by length, then by symbol. -/
def Before (lengths : List UInt8) (r s : Nat) : Prop :=
  bitsOf lengths r < bitsOf lengths s ∨ bitsOf lengths r = bitsOf lengths s ∧ r < s

instance (lengths : List UInt8) (r s : Nat) : Decidable (Before lengths r s) :=
  inferInstanceAs (Decidable (_ ∨ _))

/-- How many bit strings, as long as the codeword of `s`, begin with an earlier codeword. -/
def place (lengths : List UInt8) (s : Nat) : Nat :=
  ∑ r ∈ active lengths with Before lengths r s, 2 ^ (bitsOf lengths s - bitsOf lengths r)

variable {lengths : List UInt8} {L r s : Nat}

/-! ### Symbols and their lengths -/

lemma bitsOf_eq {l : UInt8} (h : lengths[s]? = some l) : bitsOf lengths s = l.toNat := by
  rw [bitsOf, List.getD_eq_getElem?_getD, h, Option.getD_some]

/-- Symbols that are added at the end of the alphabet leave the lengths of the others alone. -/
lemma bitsOf_append_of_lt (more : List UInt8) (hs : s < lengths.length) :
    bitsOf (lengths ++ more) s = bitsOf lengths s := by
  rw [bitsOf, bitsOf, List.getD_eq_getElem?_getD, List.getElem?_append_left hs,
    List.getD_eq_getElem?_getD]

lemma mem_active : s ∈ active lengths ↔ bitsOf lengths s ≠ 0 := by
  simp only [active, Finset.mem_filter, Finset.mem_range, and_iff_right_iff_imp]
  intro h
  by_contra hs
  rw [bitsOf, List.getD_eq_getElem?_getD, List.getElem?_eq_none (by omega)] at h
  exact h rfl

lemma not_mem_active_iff : s ∉ active lengths ↔ lengths.getD s 0 = 0 := by
  rw [mem_active, not_not, bitsOf, ← UInt8.toNat_inj]
  rfl

lemma mem_active_iff_getElem? : s ∈ active lengths ↔ ∃ l, lengths[s]? = some l ∧ l ≠ 0 := by
  rw [mem_active, bitsOf, List.getD_eq_getElem?_getD]
  cases lengths[s]? with
  | none => simp
  | some l =>
    have hl : l.toNat = 0 ↔ l = 0 := UInt8.toNat_inj (b := 0)
    simp [hl]

lemma lt_length_of_mem_active (h : s ∈ active lengths) : s < lengths.length := by
  simp only [active, Finset.mem_filter, Finset.mem_range] at h
  exact h.1

lemma bitsOf_pos (h : s ∈ active lengths) : 0 < bitsOf lengths s :=
  Nat.pos_of_ne_zero (mem_active.1 h)

lemma mem_ofLength : s ∈ ofLength lengths L ↔ s ∈ active lengths ∧ bitsOf lengths s = L := by
  simp [ofLength]

lemma bitsOf_le_maxBits (h : s ∈ active lengths) : bitsOf lengths s ≤ maxBits lengths :=
  Finset.le_sup h

lemma toNat_le_maxBits {l : UInt8} (hs : lengths[s]? = some l) (hl : l ≠ 0) :
    l.toNat ≤ maxBits lengths := by
  rw [← bitsOf_eq hs]
  exact bitsOf_le_maxBits (mem_active_iff_getElem?.2 ⟨l, hs, hl⟩)

lemma ofLength_eq_empty (h : maxBits lengths < L) : ofLength lengths L = ∅ := by
  refine Finset.filter_eq_empty_iff.2 fun s hs => ?_
  have := bitsOf_le_maxBits hs
  omega

lemma le_maxBits_of_card_pos (h : 0 < (ofLength lengths L).card) : L ≤ maxBits lengths := by
  by_contra hL
  rw [ofLength_eq_empty (by omega), Finset.card_empty] at h
  exact Nat.lt_irrefl 0 h

/-- Some codeword is as long as the longest ones. -/
lemma ofLength_maxBits_nonempty (h : maxBits lengths ≠ 0) :
    (ofLength lengths (maxBits lengths)).Nonempty := by
  have hne : (active lengths).Nonempty := by
    rw [Finset.nonempty_iff_ne_empty]
    intro hempty
    exact h (by rw [maxBits, hempty, Finset.sup_empty, Nat.bot_eq_zero])
  obtain ⟨s, hs, hlen⟩ := Finset.exists_mem_eq_sup (active lengths) hne (bitsOf lengths)
  exact ⟨s, mem_ofLength.2 ⟨hs, hlen.symm⟩⟩

/-! ### Counting the symbols of one length -/

lemma mem_ofLength_toNat {l : UInt8} (hl : l ≠ 0) :
    s ∈ ofLength lengths l.toNat ↔ lengths[s]? = some l := by
  rw [mem_ofLength, mem_active_iff_getElem?]
  constructor
  · rintro ⟨⟨k, hk, -⟩, hbits⟩
    rw [bitsOf_eq hk, UInt8.toNat_inj] at hbits
    rw [hk, hbits]
  · intro h
    exact ⟨⟨l, h, hl⟩, bitsOf_eq h⟩

/-- The symbols of one length before `n` are as many as its entries among the first `n`. -/
lemma card_ofLength_lt (lengths : List UInt8) {l : UInt8} (hl : l ≠ 0) (n : Nat) :
    {r ∈ ofLength lengths l.toNat | r < n}.card = (lengths.take n).count l := by
  induction n with
  | zero => simp
  | succ n ih =>
    rw [Finset.card_filter_lt_succ, ih, List.take_add_one, List.count_append]
    congr 1
    by_cases hn : lengths[n]? = some l
    · rw [if_pos ((mem_ofLength_toNat hl).2 hn), hn]
      simp
    · rw [if_neg fun h => hn ((mem_ofLength_toNat hl).1 h)]
      cases hk : lengths[n]? with
      | none => simp
      | some k =>
        have hne : k ≠ l := fun h => hn (by rw [hk, h])
        simp [hne]

/-- The symbols of one length are as many as its entries. -/
lemma card_ofLength (lengths : List UInt8) {l : UInt8} (hl : l ≠ 0) :
    (ofLength lengths l.toNat).card = lengths.count l := by
  have h := card_ofLength_lt lengths hl lengths.length
  rw [List.take_length] at h
  rw [← h, Finset.filter_true_of_mem]
  intro s hs
  exact lt_length_of_mem_active (mem_ofLength.1 hs).1

lemma card_ofLength_le (lengths : List UInt8) (L : Nat) :
    (ofLength lengths L).card ≤ lengths.length := by
  have hsub : ofLength lengths L ⊆ Finset.range lengths.length :=
    (Finset.filter_subset _ _).trans (Finset.filter_subset _ _)
  simpa using Finset.card_le_card hsub

/-! ### Shorter codewords apart from those of one length -/

lemma disjoint_shorter_ofLength (lengths : List UInt8) (L : Nat) :
    Disjoint {s ∈ active lengths | bitsOf lengths s < L} (ofLength lengths L) :=
  Finset.disjoint_filter.2 fun s _ hlt heq => by omega

lemma filter_bitsOf_le (lengths : List UInt8) (L : Nat) :
    {s ∈ active lengths | bitsOf lengths s ≤ L} =
      {s ∈ active lengths | bitsOf lengths s < L} ∪ ofLength lengths L := by
  rw [ofLength, ← Finset.filter_or]
  exact Finset.filter_congr fun s _ => by omega

lemma filter_bitsOf_lt_succ (lengths : List UInt8) (L : Nat) :
    {s ∈ active lengths | bitsOf lengths s < L + 1} =
      {s ∈ active lengths | bitsOf lengths s ≤ L} :=
  Finset.filter_congr fun _ _ => Nat.lt_succ_iff

/-- The codewords before the one of `s` are the shorter ones, and those of its own length that
belong to smaller symbols. -/
lemma filter_before (lengths : List UInt8) (s : Nat) :
    {r ∈ active lengths | Before lengths r s} =
      {r ∈ active lengths | bitsOf lengths r < bitsOf lengths s} ∪
        {r ∈ ofLength lengths (bitsOf lengths s) | r < s} := by
  rw [ofLength, Finset.filter_filter, ← Finset.filter_or]
  rfl

lemma disjoint_before (lengths : List UInt8) (s : Nat) :
    Disjoint {r ∈ active lengths | bitsOf lengths r < bitsOf lengths s}
      {r ∈ ofLength lengths (bitsOf lengths s) | r < s} :=
  (disjoint_shorter_ofLength lengths _).mono_right (Finset.filter_subset _ _)

/-! ### Weights -/

/-- Of the strings of `L` bits, each codeword of `L` bits begins one. -/
lemma sum_weights_of_subset {S : Finset Nat} (hS : S ⊆ ofLength lengths L) :
    ∑ s ∈ S, 2 ^ (L - bitsOf lengths s) = S.card := by
  rw [Finset.card_eq_sum_ones]
  refine Finset.sum_congr rfl fun s hs => ?_
  rw [(mem_ofLength.1 (hS hs)).2, Nat.sub_self, Nat.pow_zero]

/-- Lengthening the strings from `k` to `L` bits multiplies those that begin with one of some
codewords. -/
lemma two_pow_mul_sum_weights {S : Finset Nat} {k : Nat} (h : k ≤ L)
    (hS : ∀ s ∈ S, bitsOf lengths s ≤ k) :
    2 ^ (L - k) * ∑ s ∈ S, 2 ^ (k - bitsOf lengths s) =
      ∑ s ∈ S, 2 ^ (L - bitsOf lengths s) := by
  rw [Finset.mul_sum]
  refine Finset.sum_congr rfl fun s hs => ?_
  have hle := hS s hs
  rw [← Nat.pow_add]
  congr 1
  omega

/-! ### The recurrence -/

lemma below_zero (lengths : List UInt8) : below lengths 0 = 0 := by
  simp [below]

/-- No codeword is shorter than one bit. -/
lemma kraft_zero (lengths : List UInt8) : kraft lengths 0 = 0 := by
  rw [kraft, Finset.filter_eq_empty_iff.2, Finset.sum_empty]
  intro s hs
  have := bitsOf_pos hs
  omega

/-- One more bit doubles the strings that begin with a shorter codeword. -/
lemma below_succ (lengths : List UInt8) (L : Nat) :
    below lengths (L + 1) = 2 * kraft lengths L := by
  rw [below, filter_bitsOf_lt_succ, ← two_pow_mul_sum_weights (Nat.le_succ L) fun s hs =>
    (Finset.mem_filter.1 hs).2, kraft, Nat.succ_sub (Nat.le_refl L), Nat.sub_self, Nat.pow_one]

/-- The codewords of `L` bits come after the strings that begin with a shorter one. -/
lemma kraft_eq_below_add (lengths : List UInt8) (L : Nat) :
    kraft lengths L = below lengths L + (ofLength lengths L).card := by
  rw [kraft, filter_bitsOf_le, Finset.sum_union (disjoint_shorter_ofLength lengths L),
    sum_weights_of_subset Finset.Subset.rfl, below]

/-- Lengthening the strings multiplies those that begin with a codeword. -/
lemma two_pow_mul_kraft_le (lengths : List UInt8) {k : Nat} (h : k ≤ L) :
    2 ^ (L - k) * kraft lengths k ≤ kraft lengths L := by
  rw [kraft, two_pow_mul_sum_weights h fun s hs => (Finset.mem_filter.1 hs).2, kraft]
  exact Finset.sum_le_sum_of_subset (Finset.monotone_filter_right _ fun s _ hs => hs.trans h)

/-- From the greatest length on, no codeword comes in addition. -/
lemma kraft_eq_two_pow_mul (h : maxBits lengths ≤ L) :
    kraft lengths L = 2 ^ (L - maxBits lengths) * kraft lengths (maxBits lengths) := by
  have hall : ∀ n, maxBits lengths ≤ n →
      {s ∈ active lengths | bitsOf lengths s ≤ n} = active lengths := fun n hn =>
    Finset.filter_true_of_mem fun s hs => (bitsOf_le_maxBits hs).trans hn
  rw [kraft, kraft, hall L h, hall _ le_rfl, two_pow_mul_sum_weights h]
  intro s hs
  exact bitsOf_le_maxBits hs

/-- If there are enough strings of one length, there are enough of each smaller length. -/
theorem kraft_le_of_le {k : Nat} (h : k ≤ L) (hL : kraft lengths L ≤ 2 ^ L) :
    kraft lengths k ≤ 2 ^ k := by
  have hmul : 2 ^ (L - k) * kraft lengths k ≤ 2 ^ (L - k) * 2 ^ k := by
    rw [← Nat.pow_add, Nat.sub_add_cancel h]
    exact (two_pow_mul_kraft_le lengths h).trans hL
  exact Nat.le_of_mul_le_mul_left hmul (Nat.two_pow_pos _)

/-! ### The order of the codewords -/

lemma Before.bitsOf_le (h : Before lengths r s) : bitsOf lengths r ≤ bitsOf lengths s := by
  rcases h with h | ⟨h, -⟩ <;> omega

lemma not_before_self (lengths : List UInt8) (s : Nat) : ¬ Before lengths s s := by
  rintro (h | ⟨-, h⟩) <;> omega

lemma Before.trans {t : Nat} (h : Before lengths r s) (h' : Before lengths s t) :
    Before lengths r t := by
  rcases h with h | ⟨h, hrs⟩ <;> rcases h' with h' | ⟨h', hst⟩
  · exact Or.inl (by omega)
  · exact Or.inl (by omega)
  · exact Or.inl (by omega)
  · exact Or.inr ⟨by omega, by omega⟩

lemma before_or_before (lengths : List UInt8) (h : r ≠ s) :
    Before lengths r s ∨ Before lengths s r := by
  rcases Nat.lt_trichotomy (bitsOf lengths r) (bitsOf lengths s) with hlt | heq | hlt
  · exact Or.inl (Or.inl hlt)
  · rcases Nat.lt_or_gt_of_ne h with hrs | hrs
    · exact Or.inl (Or.inr ⟨heq, hrs⟩)
    · exact Or.inr (Or.inr ⟨heq.symm, hrs⟩)
  · exact Or.inr (Or.inl hlt)

/-! ### Places -/

/-- A place counts the shorter codewords first, then the ones of the same length. -/
theorem place_eq_below_add_card (lengths : List UInt8) (s : Nat) :
    place lengths s = below lengths (bitsOf lengths s) +
      {r ∈ ofLength lengths (bitsOf lengths s) | r < s}.card := by
  rw [place, filter_before, Finset.sum_union (disjoint_before lengths s),
    sum_weights_of_subset (Finset.filter_subset _ _), below]

/-- The place of a symbol by the entries in front of it. -/
theorem place_eq_below_add_count {l : UInt8} (h : lengths[s]? = some l) (hl : l ≠ 0) :
    place lengths s = below lengths l.toNat + (lengths.take s).count l := by
  rw [place_eq_below_add_card, bitsOf_eq h, card_ofLength_lt lengths hl]

/-- The strings of `L` bits that begin with a codeword earlier than the one of `s`. -/
lemma two_pow_mul_place (lengths : List UInt8) (h : bitsOf lengths s ≤ L) :
    2 ^ (L - bitsOf lengths s) * place lengths s =
      ∑ r ∈ active lengths with Before lengths r s, 2 ^ (L - bitsOf lengths r) := by
  rw [place, two_pow_mul_sum_weights h fun r hr => (Finset.mem_filter.1 hr).2.bitsOf_le]

/-- The strings of `L` bits that begin with the codeword of `r` or an earlier one. -/
lemma two_pow_mul_place_add_one (hr : r ∈ active lengths) (h : bitsOf lengths r ≤ L) :
    2 ^ (L - bitsOf lengths r) * (place lengths r + 1) =
      ∑ t ∈ active lengths with Before lengths t r ∨ t = r, 2 ^ (L - bitsOf lengths t) := by
  -- the codeword of `r` adds one more term to those that make up its place
  have hdisj : Disjoint {t ∈ active lengths | Before lengths t r}
      {t ∈ active lengths | t = r} := by
    refine Finset.disjoint_filter.2 fun t _ hbefore heq => ?_
    subst heq
    exact not_before_self lengths t hbefore
  rw [Finset.filter_or, Finset.sum_union hdisj, Finset.filter_eq', if_pos hr,
    Finset.sum_singleton, Nat.mul_add, Nat.mul_one, two_pow_mul_place lengths h]

/-- The strings that begin with the codeword of `r` end where the place of a later symbol
begins, or before. -/
theorem place_step (hr : r ∈ active lengths) (h : Before lengths r s) :
    2 ^ (bitsOf lengths s - bitsOf lengths r) * (place lengths r + 1) ≤ place lengths s := by
  rw [two_pow_mul_place_add_one hr h.bitsOf_le, place]
  refine Finset.sum_le_sum_of_subset (Finset.monotone_filter_right _ fun t _ ht => ?_)
  rcases ht with ht | rfl
  · exact ht.trans h
  · exact h

/-- The strings that begin with the codeword of `s` are among those that the Kraft sum
counts. -/
theorem two_pow_mul_place_add_one_le (hs : s ∈ active lengths) (h : bitsOf lengths s ≤ L) :
    2 ^ (L - bitsOf lengths s) * (place lengths s + 1) ≤ kraft lengths L := by
  rw [two_pow_mul_place_add_one hs h, kraft]
  refine Finset.sum_le_sum_of_subset (Finset.monotone_filter_right _ fun t _ ht => ?_)
  rcases ht with ht | rfl
  · exact ht.bitsOf_le.trans h
  · exact h

/-- The places of codewords of one length are in the order of the symbols. -/
lemma place_lt_place (hr : r ∈ active lengths) (hbits : bitsOf lengths r = bitsOf lengths s)
    (h : Before lengths r s) : place lengths r < place lengths s := by
  have hstep := place_step hr h
  rw [hbits, Nat.sub_self, Nat.pow_zero, Nat.one_mul] at hstep
  exact hstep

/-- Different symbols have different places, if their codewords are of one length. -/
lemma eq_of_place_eq (hr : r ∈ active lengths) (hs : s ∈ active lengths)
    (hbits : bitsOf lengths r = bitsOf lengths s) (h : place lengths r = place lengths s) :
    r = s := by
  by_contra hne
  rcases before_or_before lengths hne with hrs | hsr
  · exact (place_lt_place hr hbits hrs).ne h
  · exact (place_lt_place hs hbits.symm hsr).ne h.symm

/-! ### Lengths for which there is a code -/

/-- There are enough bit strings for codewords of these lengths, and a table has room for
them. -/
structure Realizable (lengths : List UInt8) : Prop where
  length_le : lengths.length ≤ maxSymbols
  maxBits_pos : 0 < maxBits lengths
  maxBits_le : maxBits lengths ≤ 32
  kraft_le : kraft lengths (maxBits lengths) ≤ 2 ^ maxBits lengths

namespace Realizable

/-- There are enough bit strings of every length, longer ones than the codewords included. -/
theorem kraft_le_two_pow (h : Realizable lengths) (L : Nat) : kraft lengths L ≤ 2 ^ L := by
  rcases Nat.le_total L (maxBits lengths) with hle | hge
  · exact kraft_le_of_le hle h.kraft_le
  · calc kraft lengths L
        = 2 ^ (L - maxBits lengths) * kraft lengths (maxBits lengths) := kraft_eq_two_pow_mul hge
      _ ≤ 2 ^ (L - maxBits lengths) * 2 ^ maxBits lengths := Nat.mul_le_mul_left _ h.kraft_le
      _ = 2 ^ L := by rw [← Nat.pow_add, Nat.sub_add_cancel hge]

/-- The codewords of one length start at a bit string of that length, since one of the
greatest length is left over for a codeword. -/
theorem below_lt_two_pow (h : Realizable lengths) (hL : L ≤ maxBits lengths) :
    below lengths L < 2 ^ L := by
  have hcard : 0 < (ofLength lengths (maxBits lengths)).card :=
    Finset.card_pos.2 (ofLength_maxBits_nonempty h.maxBits_pos.ne')
  have htop : below lengths (maxBits lengths) < 2 ^ maxBits lengths := by
    have := h.kraft_le
    rw [kraft_eq_below_add] at this
    omega
  rcases Nat.lt_or_eq_of_le hL with hlt | rfl
  · obtain ⟨m, hm⟩ : ∃ m, maxBits lengths = m + 1 := ⟨maxBits lengths - 1, by omega⟩
    rw [hm, below_succ, Nat.pow_succ'] at htop
    have hscale : 2 ^ (m - L) * kraft lengths L ≤ kraft lengths m :=
      two_pow_mul_kraft_le lengths (by omega)
    have hlt : 2 ^ (m - L) * below lengths L < 2 ^ (m - L) * 2 ^ L := by
      have hle : 2 ^ (m - L) * below lengths L ≤ 2 ^ (m - L) * kraft lengths L :=
        Nat.mul_le_mul_left _ (by rw [kraft_eq_below_add]; omega)
      rw [← Nat.pow_add, show m - L + L = m by omega]
      omega
    exact Nat.lt_of_mul_lt_mul_left hlt
  · exact htop

/-- The place of a symbol is a bit string as long as its codeword. -/
theorem place_lt_two_pow (h : Realizable lengths) (hs : s ∈ active lengths) :
    place lengths s < 2 ^ bitsOf lengths s := by
  have hle := two_pow_mul_place_add_one_le hs le_rfl
  rw [Nat.sub_self, Nat.pow_zero, Nat.one_mul] at hle
  have := h.kraft_le_two_pow (bitsOf lengths s)
  omega

/-- A place fits into a word. -/
lemma place_lt (h : Realizable lengths) (hs : s ∈ active lengths) :
    place lengths s < 2 ^ 32 :=
  (h.place_lt_two_pow hs).trans_le
    (Nat.pow_le_pow_right Nat.two_pos ((bitsOf_le_maxBits hs).trans h.maxBits_le))

lemma toNat_ofNat_place (h : Realizable lengths) (hs : s ∈ active lengths) :
    (UInt32.ofNat (place lengths s)).toNat = place lengths s := by
  rw [UInt32.toNat_ofNat']
  exact Nat.mod_eq_of_lt (h.place_lt hs)

/-- A symbol of the alphabet fits into 16 bits. -/
lemma toNat_toUInt16 (h : Realizable lengths) (hs : s < lengths.length) :
    s.toUInt16.toNat = s := by
  rw [Nat.toUInt16_eq, UInt16.toNat_ofNat']
  exact Nat.mod_eq_of_lt (hs.trans_le h.length_le)

end Realizable

end PrefixCode.Lengths
