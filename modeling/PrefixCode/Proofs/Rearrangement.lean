/-
# Rearranging lengths

A layout is made from counts, and these do not tell which symbol asked for a length, nor how many
symbols ask for none.  So lists that are `Rearranged` into each other, with zeros put in or left out
at will, come to the same layout or are refused for the same cause
(`Layout.ofLengths_of_rearranged`); only the symbol that is named with a length that is too long
may be another one.

The tables of one layout differ at most in the symbols that stand behind the codewords.  To a view
that shows nothing of the symbols they are `Alike` (`Table.alike_ofLayout`), and so decoding with
them yields as many symbols, or the same error.
-/
import PrefixCode.Codebook
import PrefixCode.Proofs.Acceptance
import PrefixCode.Proofs.Renaming

namespace PrefixCode

open PrefixCode.Lengths

/-! ### Rearranged lists -/

namespace Lengths

/-- Both lists consist of the same lengths, each as often, in any order and with any number of
zeros in between. -/
def Rearranged (a b : List UInt8) : Prop :=
  (a.filter (· ≠ 0)).Perm (b.filter (· ≠ 0))

instance (a b : List UInt8) : Decidable (Rearranged a b) :=
  inferInstanceAs (Decidable (List.Perm _ _))

variable {a b : List UInt8}

namespace Rearranged

lemma symm (h : Rearranged a b) : Rearranged b a := List.Perm.symm h

lemma count_eq (h : Rearranged a b) {l : UInt8} (hl : l ≠ 0) : a.count l = b.count l := by
  have hcount := List.Perm.count_eq h l
  rwa [List.count_filter (by simpa using hl), List.count_filter (by simpa using hl)] at hcount

lemma card_active_eq (h : Rearranged a b) : (active a).card = (active b).card := by
  rw [card_active, card_active, List.Perm.length_eq h]

lemma maxBits_le (h : Rearranged a b) : maxBits a ≤ maxBits b := by
  refine Layout.maxBits_le_iff.2 fun l hl => ?_
  by_cases h0 : l = 0
  · rw [h0]
    exact Nat.zero_le _
  · have hmem : l ∈ b.filter (· ≠ 0) :=
      (List.Perm.mem_iff h).1 (List.mem_filter.2 ⟨hl, by simpa using h0⟩)
    exact Layout.maxBits_le_iff.1 le_rfl l (List.mem_filter.1 hmem).1

lemma maxBits_eq (h : Rearranged a b) : maxBits a = maxBits b :=
  Nat.le_antisymm h.maxBits_le h.symm.maxBits_le

lemma longestOf_eq (h : Rearranged a b) : Layout.longestOf a = Layout.longestOf b := by
  rw [← UInt8.toNat_inj, Layout.toNat_longestOf, Layout.toNat_longestOf, h.maxBits_eq]

/-- Rearranged lists are counted alike. -/
theorem tally_eq (h : Rearranged a b) (longest : UInt8) :
    Layout.tally longest a = Layout.tally longest b := by
  have hsize : ∀ lengths, (Layout.tally longest lengths).size = longest.toNat + 1 :=
    Layout.size_tally longest
  refine Array.ext ((hsize a).trans (hsize b).symm) fun L hL hL' => ?_
  rw [Array.getElem_eq_getD 0, Array.getElem_eq_getD 0]
  by_cases h0 : L = 0
  · rw [h0, Layout.getD_tally_zero, Layout.getD_tally_zero]
  · obtain ⟨l, hne, hle, rfl⟩ := Layout.exists_length_eq h0 (Nat.le_of_lt_succ (hsize a ▸ hL))
    rw [Layout.getD_tally a hne hle, Layout.getD_tally b hne hle, h.count_eq hne]

end Rearranged

end Lengths

variable {limits : Limits} {a b : List UInt8} {layout : Layout} {A B : Table}

/-! ### The same layout, or the same cause -/

/-- Two reports are of the same cause.  Where a length is too long, another symbol may have been
met first. -/
inductive LengthsError.SameCause : LengthsError → LengthsError → Prop
  | refl (e : LengthsError) : SameCause e e
  | lengthTooLong (r s : Nat) (k l max : UInt8) :
    SameCause (.lengthTooLong r k max) (.lengthTooLong s l max)

/-- If no codeword is too long, it makes no difference which symbol asks for which length. -/
lemma Layout.ofLengths_eq_of_rearranged (h : Rearranged a b) (ha : a.length ≤ maxSymbols)
    (hb : b.length ≤ maxSymbols) (hshort : maxBits a ≤ limits.maxLength.toNat) :
    ofLengths limits a = ofLengths limits b := by
  have hshort' : maxBits b ≤ limits.maxLength.toNat := h.maxBits_eq ▸ hshort
  simp only [ofLengths, if_neg (Nat.not_lt.2 ha), if_neg (Nat.not_lt.2 hb),
    tooLong?_eq_none_iff.2 hshort, tooLong?_eq_none_iff.2 hshort', h.longestOf_eq, h.tally_eq]

/-- Rearranged lists have one layout, or neither has one, for the same cause. -/
theorem Layout.ofLengths_of_rearranged (limits : Limits) (h : Rearranged a b)
    (ha : a.length ≤ maxSymbols) (hb : b.length ≤ maxSymbols) :
    (∃ layout, ofLengths limits a = .ok layout ∧ ofLengths limits b = .ok layout) ∨
    ∃ e e', ofLengths limits a = .error e ∧ ofLengths limits b = .error e' ∧ e.SameCause e' := by
  by_cases hshort : maxBits a ≤ limits.maxLength.toNat
  · rw [ofLengths_eq_of_rearranged h ha hb hshort]
    cases ofLengths limits b with
    | ok layout => exact Or.inl ⟨layout, rfl, rfl⟩
    | error e => exact Or.inr ⟨e, e, rfl, rfl, .refl e⟩
  right
  by_cases hsupp : limits.maxLength = 0 ∨ supportedMaxLength < limits.maxLength
  · rw [ofLengths, ofLengths, if_pos hsupp, if_pos hsupp]
    exact ⟨_, _, rfl, rfl, .refl _⟩
  · obtain ⟨hne, hle⟩ := not_unsupported_iff.1 hsupp
    obtain ⟨r, k, -, -, hr⟩ := ofLengths_of_lt_maxBits hne hle ha (Nat.not_le.1 hshort)
    obtain ⟨s, l, -, -, hs⟩ :=
      ofLengths_of_lt_maxBits hne hle hb (h.maxBits_eq ▸ Nat.not_le.1 hshort)
    exact ⟨_, _, hr, hs, .lengthTooLong r s k l _⟩

/-! ### Tables of one layout -/

namespace Table

/-- Nothing that can be asked of two tables tells them apart, but for the symbols that they
find. -/
structure SameCodeSpace (A B : Table) : Prop where
  contains_eq : ∀ code, A.contains code = B.contains code
  minCode?_eq : ∀ length, A.minCode? length = B.minCode? length
  maxCode?_eq : ∀ length, A.maxCode? length = B.maxCode? length
  size_symbolsOfLength_eq : ∀ length,
    (A.symbolsOfLength length).size = (B.symbolsOfLength length).size
  shortest_eq : A.shortest = B.shortest
  longest_eq : A.longest = B.longest
  size_eq : A.size = B.size
  complete_eq : A.complete = B.complete
  length_decodeAll_eq : ∀ bits,
    (A.decodeAll bits).map List.length = (B.decodeAll bits).map List.length

/-- Codewords are found in the same slots, whatever is stored there. -/
lemma alike_ofLayout (hsize : (sortSymbols layout a).size = (sortSymbols layout b).size) :
    Alike (fun _ => ()) (fun _ => ()) (ofLayout layout a) (ofLayout layout b) where
  longest_eq := rfl
  map_decode_eq code := by
    have hslot : (ofLayout layout a).slot? code = (ofLayout layout b).slot? code := rfl
    rw [decode, decode, hslot]
    cases (ofLayout layout b).slot? code with
    | none => rfl
    | some slot =>
      show (sortSymbols layout a)[slot]?.map _ = (sortSymbols layout b)[slot]?.map _
      by_cases hlt : slot < (sortSymbols layout a).size
      · rw [Array.getElem?_eq_getElem hlt, Array.getElem?_eq_getElem (hsize ▸ hlt)]
        rfl
      · rw [Array.getElem?_eq_none (by omega), Array.getElem?_eq_none (by omega)]

/-- The symbols of a table make no difference to its code space, as long as there are as many. -/
theorem sameCodeSpace_ofLayout
    (hsize : (sortSymbols layout a).size = (sortSymbols layout b).size) :
    SameCodeSpace (ofLayout layout a) (ofLayout layout b) where
  contains_eq _ := rfl
  minCode?_eq _ := rfl
  maxCode?_eq _ := rfl
  shortest_eq := rfl
  longest_eq := rfl
  size_eq := hsize
  complete_eq := rfl
  size_symbolsOfLength_eq length := by
    have hblock : (ofLayout layout a).block? length = (ofLayout layout b).block? length := rfl
    rw [symbolsOfLength, symbolsOfLength, hblock]
    cases (ofLayout layout b).block? length with
    | none => rfl
    | some block => simp [ofLayout, hsize]
  length_decodeAll_eq bits := by
    have hlength : ∀ result : Except DecodeError (List UInt16),
        (result.map (List.map fun _ => ())).map List.length = result.map List.length := by
      intro result
      cases result <;> simp [Except.map]
    rw [← hlength, (alike_ofLayout hsize).map_decodeAll_eq bits, hlength]

/-- **A code space depends on nothing but how often each length occurs.**  Let two lists, neither
of them too long, be rearranged into each other, with zeros put in or left out.  Under the same
limits both have a table, and then these differ only in the symbols that stand behind the
codewords: the same codewords are found, there are as many symbols of each length, and every bit
string decodes to as many symbols, or fails with the same error.  Or neither has a table, for the
same cause.  For codebooks it is the same. -/
theorem code_space_of_rearranged_lengths (limits : Limits) (ha : a.length ≤ maxSymbols)
    (hb : b.length ≤ maxSymbols) (h : Rearranged a b) :
    (∃ A B p q, Table.ofLengths limits a = .ok A ∧ Table.ofLengths limits b = .ok B ∧
      Codebook.ofLengths limits a = .ok p ∧ Codebook.ofLengths limits b = .ok q ∧
      SameCodeSpace A B) ∨
    ∃ e e' : LengthsError, e.SameCause e' ∧
      Table.ofLengths limits a = .error e ∧ Table.ofLengths limits b = .error e' ∧
      Codebook.ofLengths limits a = .error e ∧ Codebook.ofLengths limits b = .error e' := by
  rcases Layout.ofLengths_of_rearranged limits h ha hb with
    ⟨layout, hA, hB⟩ | ⟨e, e', hA, hB, hcause⟩
  · have hsize : (sortSymbols layout a).size = (sortSymbols layout b).size := by
      rw [size_sortSymbols (Layout.describes_of_ofLengths hA),
        size_sortSymbols (Layout.describes_of_ofLengths hB), h.card_active_eq]
    exact Or.inl ⟨_, _, _, _, Except.map_eq_ok_iff.2 ⟨layout, hA, rfl⟩,
      Except.map_eq_ok_iff.2 ⟨layout, hB, rfl⟩, Except.map_eq_ok_iff.2 ⟨layout, hA, rfl⟩,
      Except.map_eq_ok_iff.2 ⟨layout, hB, rfl⟩, sameCodeSpace_ofLayout hsize⟩
  · exact Or.inr ⟨e, e', hcause, Except.map_eq_error_iff.2 hA, Except.map_eq_error_iff.2 hB,
      Except.map_eq_error_iff.2 hA, Except.map_eq_error_iff.2 hB⟩

/-- The bits `110010` are three symbols, in whichever order the lengths 1, 2, 3 and 3 are listed;
and where two bits are the most that is accepted, such lists are refused for one cause. -/
theorem rearrangement_of_four_lengths :
    (∃ A B, Table.ofLengths .deflate [2, 1, 0, 3, 3] = .ok A ∧
      Table.ofLengths .deflate [3, 2, 3, 1] = .ok B ∧
      A.decodeAll [true, true, false, false, true, false] = .ok [3, 1, 0] ∧
      (B.decodeAll [true, true, false, false, true, false]).map List.length = .ok 3) ∧
    ∃ e e' : LengthsError, e.SameCause e' ∧
      Table.ofLengths ⟨2, false⟩ [2, 1, 0, 3, 3] = .error e ∧
      Table.ofLengths ⟨2, false⟩ [3, 2, 3, 1] = .error e' := by
  have h : Rearranged [2, 1, 0, 3, 3] [3, 2, 3, 1] := by decide
  have hA : Table.ofLengths .deflate [2, 1, 0, 3, 3] =
      .ok ⟨3, #[⟨0, 1, 0⟩, ⟨2, 1, 1⟩, ⟨6, 2, 2⟩], #[1, 0, 3, 4], true⟩ := by decide +kernel
  have hlong : Table.ofLengths ⟨2, false⟩ [2, 1, 0, 3, 3] = .error (.lengthTooLong 3 3 2) := by
    decide +kernel
  constructor
  · rcases code_space_of_rearranged_lengths .deflate (by decide) (by decide) h with
      ⟨A, B, p, q, hA', hB, -, -, hsame⟩ | ⟨e, e', -, hA', -⟩
    · cases hA.symm.trans hA'
      have hmessage : decodeAll ⟨3, #[⟨0, 1, 0⟩, ⟨2, 1, 1⟩, ⟨6, 2, 2⟩], #[1, 0, 3, 4], true⟩
          [true, true, false, false, true, false] = .ok [3, 1, 0] := by decide +kernel
      have hlength := hsame.length_decodeAll_eq [true, true, false, false, true, false]
      rw [hmessage] at hlength
      exact ⟨_, B, hA, hB, hmessage, hlength.symm⟩
    · cases hA.symm.trans hA'
  · rcases code_space_of_rearranged_lengths ⟨2, false⟩ (by decide) (by decide) h with
      ⟨A, B, p, q, hA', -⟩ | ⟨e, e', hcause, hA', hB', -⟩
    · cases hlong.symm.trans hA'
    · exact ⟨e, e', hcause, hA', hB'⟩

end Table

end PrefixCode
