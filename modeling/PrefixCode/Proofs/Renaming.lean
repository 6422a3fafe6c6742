/-
# Renaming symbols

What a decoder does depends on which codewords its table finds, and not on the symbols that it
finds for them.  Tables that are `Alike`, as far as two views of their symbols show, are in the same
state after the same bits (`push_alike`) and decode to lists of symbols that are alike too
(`Alike.map_decodeAll_eq`).

A renaming of symbols may move them past each other, as long as each keeps its length and those of
one length keep their order.  Then the symbols before a given one are renamed into those before its
new name, so its place and its codeword stay the same (`IsRenaming.place_eq`), and decoding yields
the new names.  Symbols without codewords have no part in this: wherever they are put into a list of
lengths or left out of it, the others are renamed in order (`isRenaming_realign`).
-/
import Mathlib.Data.Nat.Nth
import PrefixCode.Proofs.RoundTrip

namespace PrefixCode

open PrefixCode.Lengths

/-! ### Tables that look codewords up alike -/

/-- Two tables look up every codeword alike, as far as `f` and `g` show of the symbols. -/
structure Table.Alike {γ : Type} (f g : UInt16 → γ) (A B : Table) : Prop where
  longest_eq : A.longest = B.longest
  map_decode_eq : ∀ code, (A.decode code).map f = (B.decode code).map g

section Alike

variable {γ : Type} {f g : UInt16 → γ} {A B : Table}

/-- To decoders that have read the same bits since the last codeword, one more bit brings the same,
or two symbols that are alike. -/
theorem Decoder.push_alike (h : Table.Alike f g A B) (begun : Codeword) (bit : Bool) :
    (∃ s t, f s = g t ∧ (mk A begun).push bit = (.symbol s, new A) ∧
      (mk B begun).push bit = (.symbol t, new B)) ∨
    (∃ code, (mk A begun).push bit = (.invalid code, new A) ∧
      (mk B begun).push bit = (.invalid code, new B)) ∨
    ∃ code, (mk A begun).push bit = (.incomplete, mk A code) ∧
      (mk B begun).push bit = (.incomplete, mk B code) := by
  have hdecode := h.map_decode_eq (begun.extend bit)
  cases hA : A.decode (begun.extend bit) with
  | some s =>
    rw [hA, Option.map_some] at hdecode
    obtain ⟨t, hB, hst⟩ := Option.map_eq_some_iff.1 hdecode.symm
    exact Or.inl ⟨s, t, hst.symm, by simp [push, hA, reset], by simp [push, hB, reset]⟩
  | none =>
    rw [hA, Option.map_none] at hdecode
    have hB := Option.map_eq_none_iff.1 hdecode.symm
    by_cases hlong : A.longest ≤ (begun.extend bit).length
    · have hlong' : B.longest ≤ (begun.extend bit).length := h.longest_eq ▸ hlong
      exact Or.inr (Or.inl ⟨begun.extend bit, by simp [push, hA, hlong, reset],
        by simp [push, hB, hlong', reset]⟩)
    · have hlong' : ¬ B.longest ≤ (begun.extend bit).length := h.longest_eq ▸ hlong
      exact Or.inr (Or.inr ⟨begun.extend bit, by simp [push, hA, hlong],
        by simp [push, hB, hlong']⟩)

/-- Decoders in the same state come to results that are alike. -/
theorem Decoder.finish_alike (h : Table.Alike f g A B) (begun : Codeword)
    {symbols symbols' : Array UInt16}
    (hsymbols : symbols.toList.map f = symbols'.toList.map g) (bits : List Bool) :
    ((mk A begun).finish symbols bits).map (fun result => result.toList.map f) =
      ((mk B begun).finish symbols' bits).map (fun result => result.toList.map g) := by
  induction bits generalizing begun symbols symbols' with
  | nil =>
    have hpending : (mk A begun).pending? = (mk B begun).pending? := rfl
    rw [finish, finish, hpending]
    split
    · rfl
    · exact congrArg Except.ok hsymbols
  | cons bit bits ih =>
    rcases push_alike h begun bit with
      ⟨s, t, hst, hA, hB⟩ | ⟨code, hA, hB⟩ | ⟨code, hA, hB⟩
    -- both have read a codeword, and go on from the beginning
    · rw [finish, finish, hA, hB]
      exact ih _ (by simp [hsymbols, hst])
    · rw [finish, finish, hA, hB]
      rfl
    · rw [finish, finish, hA, hB]
      exact ih code hsymbols

/-- Tables that are alike decode the same bit strings, to symbols that are alike, and fail on all
others with the same error. -/
theorem Table.Alike.map_decodeAll_eq (h : Table.Alike f g A B) (bits : List Bool) :
    (A.decodeAll bits).map (List.map f) = (B.decodeAll bits).map (List.map g) := by
  have hview : ∀ (table : Table) (view : UInt16 → γ),
      (table.decodeAll bits).map (List.map view) =
        ((Decoder.new table).finish #[] bits).map fun result => result.toList.map view := by
    intro table view
    rw [decodeAll]
    cases (Decoder.new table).finish #[] bits <;> rfl
  rw [hview, hview]
  exact Decoder.finish_alike h .empty rfl bits

end Alike

/-! ### Renamings -/

namespace Lengths

variable {a b : List UInt8} {f : Nat → Nat} {r s : Nat} {code : Codeword}

/-- The symbols with codewords get new names in another alphabet.  Each keeps the length of its
codeword, and the symbols of one length keep their order. -/
structure IsRenaming (a b : List UInt8) (f : Nat → Nat) : Prop where
  bijOn : Set.BijOn f (active a) (active b)
  getElem?_eq : ∀ s ∈ active a, b[f s]? = a[s]?
  lt_iff_lt : ∀ r ∈ active a, ∀ s ∈ active a, a[r]? = a[s]? → (r < s ↔ f r < f s)

namespace IsRenaming

lemma mem_active (h : IsRenaming a b f) (hs : s ∈ active a) : f s ∈ active b :=
  h.bijOn.mapsTo hs

lemma exists_of_mem_active (h : IsRenaming a b f) {t : Nat} (ht : t ∈ active b) :
    ∃ s ∈ active a, f s = t :=
  h.bijOn.surjOn ht

lemma bitsOf_eq (h : IsRenaming a b f) (hs : s ∈ active a) : bitsOf b (f s) = bitsOf a s := by
  rw [bitsOf, bitsOf, List.getD_eq_getElem?_getD, List.getD_eq_getElem?_getD, h.getElem?_eq s hs]

/-- What comes before a symbol comes before it under the new names. -/
lemma before_iff (h : IsRenaming a b f) (hr : r ∈ active a) (hs : s ∈ active a) :
    Before b (f r) (f s) ↔ Before a r s := by
  rw [Before, Before, h.bitsOf_eq hr, h.bitsOf_eq hs]
  refine or_congr_right (and_congr_right fun hbits => (h.lt_iff_lt r hr s hs ?_).symm)
  obtain ⟨l, hl, -⟩ := mem_active_iff_getElem?.1 hr
  obtain ⟨k, hk, -⟩ := mem_active_iff_getElem?.1 hs
  rw [Lengths.bitsOf_eq hl, Lengths.bitsOf_eq hk, UInt8.toNat_inj] at hbits
  rw [hl, hk, hbits]

/-- A symbol keeps its place. -/
theorem place_eq (h : IsRenaming a b f) (hs : s ∈ active a) : place b (f s) = place a s := by
  -- the symbols before `s` are renamed into those before its new name, with the same weights
  symm
  refine Finset.sum_nbij f ?_ ?_ ?_ ?_
  · intro r hr
    rw [Finset.mem_filter] at hr ⊢
    exact ⟨h.mem_active hr.1, (h.before_iff hr.1 hs).2 hr.2⟩
  · exact h.bijOn.injOn.mono fun r hr => (Finset.mem_filter.1 (Finset.mem_coe.1 hr)).1
  · intro t ht
    rw [Finset.mem_coe, Finset.mem_filter] at ht
    obtain ⟨r, hr, rfl⟩ := h.exists_of_mem_active ht.1
    exact ⟨r, Finset.mem_coe.2 (Finset.mem_filter.2 ⟨hr, (h.before_iff hr hs).1 ht.2⟩), rfl⟩
  · intro r hr
    rw [h.bitsOf_eq hs, h.bitsOf_eq (Finset.mem_filter.1 hr).1]

lemma maxBits_eq (h : IsRenaming a b f) : maxBits b = maxBits a := by
  have himage : active b = (active a).image f := by
    ext t
    rw [Finset.mem_image]
    exact ⟨h.exists_of_mem_active, fun ⟨s, hs, hst⟩ => hst ▸ h.mem_active hs⟩
  rw [maxBits, maxBits, himage, Finset.sup_image]
  exact Finset.sup_congr rfl fun s hs => h.bitsOf_eq hs

/-- A symbol keeps its codeword. -/
theorem isCanonical_iff (h : IsRenaming a b f) (hs : s ∈ active a) :
    IsCanonical b (f s) code ↔ IsCanonical a s code := by
  constructor
  · intro hcode
    exact ⟨hs, hcode.toNat_length.trans (h.bitsOf_eq hs), hcode.toNat_value.trans (h.place_eq hs)⟩
  · intro hcode
    exact ⟨h.mem_active hs, hcode.toNat_length.trans (h.bitsOf_eq hs).symm,
      hcode.toNat_value.trans (h.place_eq hs).symm⟩

end IsRenaming

/-! ### Symbols without codewords -/

/-- The active symbols before a symbol are as many as the lengths other than zero before its
own. -/
lemma count_active (a : List UInt8) (n : Nat) :
    Nat.count (· ∈ active a) n = ((a.take n).filter (· ≠ 0)).length := by
  induction n with
  | zero => rfl
  | succ n ih =>
    rw [Nat.count_succ, ih, List.take_add_one, List.filter_append, List.length_append]
    congr 1
    cases hn : a[n]? with
    | none => simp [mem_active_iff_getElem?, hn]
    | some l => by_cases hl : l = 0 <;> simp [mem_active_iff_getElem?, hn, hl]

lemma card_active (a : List UInt8) : (active a).card = (a.filter (· ≠ 0)).length := by
  have hcount := count_active a a.length
  rw [List.take_length, Nat.count_eq_card_filter_range, Finset.filter_mem_eq_inter,
    Finset.inter_eq_right.2] at hcount
  · exact hcount
  · intro s hs
    exact Finset.mem_range.2 (lt_length_of_mem_active hs)

/-- The length of an active symbol stands among the lengths other than zero where the symbol stands
among the active symbols. -/
lemma getElem?_filter_count (hs : s ∈ active a) :
    (a.filter (· ≠ 0))[Nat.count (· ∈ active a) s]? = a[s]? := by
  obtain ⟨l, hl, hne⟩ := mem_active_iff_getElem?.1 hs
  obtain ⟨hlt, rfl⟩ := List.getElem?_eq_some_iff.1 hl
  have hsplit : a.filter (· ≠ 0) =
      (a.take s).filter (· ≠ 0) ++ a[s] :: (a.drop (s + 1)).filter (· ≠ 0) := by
    rw [← List.filter_cons_of_pos (by simpa using hne), ← List.filter_append,
      ← List.drop_eq_getElem_cons hlt, List.take_append_drop]
  rw [count_active, hsplit, List.getElem?_append_right le_rfl, Nat.sub_self,
    List.getElem?_cons_zero, hl]

/-- The symbol of `b` that has as many active symbols before it as `s` has in `a`. -/
noncomputable def realign (a b : List UInt8) (s : Nat) : Nat :=
  Nat.nth (· ∈ active b) (Nat.count (· ∈ active a) s)

section Realign

variable (h : a.filter (· ≠ 0) = b.filter (· ≠ 0))

include h

/-- The lists have as many active symbols, so there is one in the place that is looked for. -/
lemma realign_mem_active_and_count (hs : s ∈ active a) :
    realign a b s ∈ active b ∧
      Nat.count (· ∈ active b) (realign a b s) = Nat.count (· ∈ active a) s := by
  have hlt : Nat.count (· ∈ active a) s < (active b).card := by
    obtain ⟨l, hl, -⟩ := mem_active_iff_getElem?.1 hs
    obtain ⟨hlt, -⟩ := List.getElem?_eq_some_iff.1 ((getElem?_filter_count hs).trans hl)
    rwa [card_active, ← h]
  have hfinite : ∀ hf : (Set.ofPred (· ∈ active b)).Finite,
      Nat.count (· ∈ active a) s < hf.toFinset.card := by
    intro hf
    have heq : hf.toFinset = active b := by
      ext t
      simp
    rwa [heq]
  exact ⟨Nat.nth_mem _ hfinite, Nat.count_nth hfinite⟩

lemma realign_realign (hs : s ∈ active a) : realign b a (realign a b s) = s := by
  rw [realign, (realign_mem_active_and_count h hs).2]
  exact Nat.nth_count hs

lemma strictMonoOn_realign : StrictMonoOn (realign a b) (active a) := by
  intro r hr s hs hrs
  refine Nat.lt_of_count_lt_count (p := (· ∈ active b)) ?_
  rw [(realign_mem_active_and_count h hr).2, (realign_mem_active_and_count h hs).2]
  exact Nat.count_strict_mono hr hrs

/-- Lists that differ only in their zeros are renamed into each other without changing the order
of any symbols. -/
theorem isRenaming_realign : IsRenaming a b (realign a b) := by
  have hmono := strictMonoOn_realign h
  refine ⟨⟨?_, hmono.injOn, ?_⟩, ?_, ?_⟩
  · intro s hs
    exact (realign_mem_active_and_count h hs).1
  · intro t ht
    exact ⟨realign b a t, (realign_mem_active_and_count h.symm ht).1, realign_realign h.symm ht⟩
  -- a symbol and its new name stand in the same place among the lengths other than zero
  · intro s hs
    obtain ⟨hmem, hcount⟩ := realign_mem_active_and_count h hs
    rw [← getElem?_filter_count hmem, hcount, ← h, getElem?_filter_count hs]
  · intro r hr s hs _
    exact (hmono.lt_iff_lt hr hs).symm

end Realign

end Lengths

/-! ### Tables and codebooks -/

/-- The new name of a symbol that a table yields. -/
def Lengths.rename (f : Nat → Nat) (symbol : UInt16) : UInt16 :=
  (f symbol.toNat).toUInt16

/-- Where the one table finds a symbol, the other one finds its new name. -/
theorem Lengths.IsRenaming.alike {a b : List UInt8} {f : Nat → Nat} {A B : Table}
    (h : IsRenaming a b f) (hA : A.Decodes a) (hB : B.Decodes b) :
    Table.Alike (rename f) id A B where
  longest_eq := by
    rw [← UInt8.toNat_inj, hA.toNat_longest, hB.toNat_longest, h.maxBits_eq]
  map_decode_eq code := by
    ext t
    rw [Option.map_id, id, hB.decode_eq_some_iff, Option.map_eq_some_iff]
    constructor
    · rintro ⟨symbol, hsymbol, rfl⟩
      have hcode := hA.decode_eq_some_iff.1 hsymbol
      have hrenamed := (h.isCanonical_iff hcode.active).2 hcode
      rwa [rename, hrenamed.toNat_toUInt16 hB.realizable]
    · intro hcode
      obtain ⟨s, hs, hst⟩ := h.exists_of_mem_active hcode.active
      rw [← hst, h.isCanonical_iff hs] at hcode
      have hs16 := hcode.toNat_toUInt16 hA.realizable
      refine ⟨s.toUInt16, hA.decode_eq_some_iff.2 (hs16.symm ▸ hcode), ?_⟩
      rw [rename, hs16, hst, Nat.toUInt16_eq, UInt16.ofNat_toNat]

namespace Table

variable {limits limits' : Limits} {a b : List UInt8} {A B : Table} {p q : Codebook}

/-- **To rename symbols is to rename what is decoded.**  Let each symbol with a codeword get a new
name that has the same length, in such a way that the symbols of one length keep their order.  Then
each keeps its codeword too, and every bit string is decoded to the new names of the symbols that
it was decoded to, or fails as it did.  In particular this is so wherever symbols of length zero
are inserted or left out, and then no two symbols at all change their order. -/
theorem renaming_renames_what_is_decoded (hA : Table.ofLengths limits a = .ok A)
    (hp : Codebook.ofLengths limits a = .ok p) (hB : Table.ofLengths limits' b = .ok B)
    (hq : Codebook.ofLengths limits' b = .ok q) :
    (∀ f, IsRenaming a b f →
      (∀ s ∈ active a, ∃ code, p.code? s = some code ∧ q.code? (f s) = some code) ∧
      ∀ bits, B.decodeAll bits = (A.decodeAll bits).map (List.map (rename f))) ∧
    (a.filter (· ≠ 0) = b.filter (· ≠ 0) →
      ∃ f, IsRenaming a b f ∧ StrictMonoOn f (active a)) := by
  have hAdecodes := decodes_of_ofLengths hA
  have hBdecodes := decodes_of_ofLengths hB
  constructor
  · intro f hf
    constructor
    · intro s hs
      obtain ⟨code, hcode⟩ := exists_isCanonical hAdecodes.realizable hs
      refine ⟨code, (Codebook.code?_eq_some_iff hp).2 hcode, ?_⟩
      exact (Codebook.code?_eq_some_iff hq).2 ((hf.isCanonical_iff hs).2 hcode)
    · intro bits
      have hdecode := (hf.alike hAdecodes hBdecodes).map_decodeAll_eq bits
      rw [hdecode, List.map_id_fun]
      exact (id_map _).symm
  · intro hzeros
    exact ⟨realign a b, isRenaming_realign hzeros, strictMonoOn_realign hzeros⟩

/-- Where the symbols 0, 1, 3 and 4 are renamed 2, 5, 0 and 3, the bits of the message of 3, 1 and 0
are those of the message of 0, 5 and 2. -/
theorem renaming_of_four_symbols : ∃ A B,
    Table.ofLengths .deflate [2, 1, 0, 3, 3] = .ok A ∧
    Table.ofLengths .deflate [3, 0, 2, 3, 0, 1] = .ok B ∧
    A.decodeAll [true, true, false, false, true, false] = .ok [3, 1, 0] ∧
    B.decodeAll [true, true, false, false, true, false] = .ok [0, 5, 2] := by
  have hA : Table.ofLengths .deflate [2, 1, 0, 3, 3] =
      .ok ⟨3, #[⟨0, 1, 0⟩, ⟨2, 1, 1⟩, ⟨6, 2, 2⟩], #[1, 0, 3, 4], true⟩ := by decide +kernel
  have hp : Codebook.ofLengths .deflate [2, 1, 0, 3, 3] =
      .ok ⟨#[some ⟨2, 2⟩, some ⟨0, 1⟩, none, some ⟨6, 3⟩, some ⟨7, 3⟩]⟩ := by decide +kernel
  have hB : Table.ofLengths .deflate [3, 0, 2, 3, 0, 1] =
      .ok ⟨3, #[⟨0, 1, 0⟩, ⟨2, 1, 1⟩, ⟨6, 2, 2⟩], #[5, 2, 0, 3], true⟩ := by decide +kernel
  have hq : Codebook.ofLengths .deflate [3, 0, 2, 3, 0, 1] =
      .ok ⟨#[some ⟨6, 3⟩, none, some ⟨2, 2⟩, some ⟨7, 3⟩, none, some ⟨0, 1⟩]⟩ := by decide +kernel
  have hinj : ∀ r ∈ active [2, 1, 0, 3, 3], ∀ s ∈ active [2, 1, 0, 3, 3],
      [2, 5, 0, 0, 3].getD r 0 = [2, 5, 0, 0, 3].getD s 0 → r = s := by decide
  have hsurj : ∀ t ∈ active [3, 0, 2, 3, 0, 1], ∃ s ∈ active [2, 1, 0, 3, 3],
      [2, 5, 0, 0, 3].getD s 0 = t := by decide
  have hrenaming : IsRenaming [2, 1, 0, 3, 3] [3, 0, 2, 3, 0, 1] fun s =>
      [2, 5, 0, 0, 3].getD s 0 :=
    ⟨⟨by decide, fun r hr s hs => hinj r hr s hs, hsurj⟩, by decide, by decide⟩
  have hdecode := ((renaming_renames_what_is_decoded hA hp hB hq).1 _ hrenaming).2
    [true, true, false, false, true, false]
  have hmessage : decodeAll ⟨3, #[⟨0, 1, 0⟩, ⟨2, 1, 1⟩, ⟨6, 2, 2⟩], #[1, 0, 3, 4], true⟩
      [true, true, false, false, true, false] = .ok [3, 1, 0] := by decide +kernel
  rw [hmessage] at hdecode
  exact ⟨_, _, hA, hB, hmessage, hdecode⟩

end Table

end PrefixCode
