/-
# Extending an alphabet

New symbols are added at the end of an alphabet, with codewords that are no shorter than the old
ones.  They come last in the order in which codewords are handed out, so nothing before an old
symbol changes, and its place does not move (`place_append`), although there may be longer codewords
now and the tables are laid out anew.  A codebook of the new alphabet therefore begins with that of
the old one, and encodes the old messages as before; and since encoding and decoding undo each
other, bits that were a message of the old alphabet are the same message of the new one
(`extending_keeps_codewords_and_messages`).
-/
import PrefixCode.Proofs.RoundTrip

namespace PrefixCode

open PrefixCode.Lengths

/-! ### The places of the old symbols -/

namespace Lengths

variable {a t : List UInt8} {r s : Nat} {code : Codeword}

/-- The symbols of `t`, added to those of `a`, have no codewords or some that are no shorter. -/
def ComesLast (a t : List UInt8) : Prop :=
  ∀ l ∈ t, l = 0 ∨ maxBits a ≤ l.toNat

lemma mem_active_append_iff (t : List UInt8) (hs : s < a.length) :
    s ∈ active (a ++ t) ↔ s ∈ active a := by
  rw [mem_active, mem_active, bitsOf_append_of_lt t hs]

lemma ComesLast.maxBits_le_bitsOf (h : ComesLast a t) (hs : s ∈ active (a ++ t))
    (hnew : a.length ≤ s) : maxBits a ≤ bitsOf (a ++ t) s := by
  obtain ⟨l, hl, hne⟩ := mem_active_iff_getElem?.1 hs
  rw [bitsOf_eq hl]
  rw [List.getElem?_append_right hnew] at hl
  exact (h l (List.mem_of_getElem? hl)).resolve_left hne

/-- No new symbol comes before an old one. -/
lemma ComesLast.not_before (h : ComesLast a t) (hr : r ∈ active (a ++ t)) (hnew : a.length ≤ r)
    (hs : s ∈ active a) : ¬ Before (a ++ t) r s := by
  have hold := lt_length_of_mem_active hs
  have hlong := h.maxBits_le_bitsOf hr hnew
  have hle := bitsOf_le_maxBits hs
  rw [Before, bitsOf_append_of_lt t hold]
  omega

/-- An old symbol has the same symbols before it as it had. -/
lemma ComesLast.filter_before_append (h : ComesLast a t) (hs : s ∈ active a) :
    {r ∈ active (a ++ t) | Before (a ++ t) r s} = {r ∈ active a | Before a r s} := by
  ext r
  rw [Finset.mem_filter, Finset.mem_filter]
  rcases Nat.lt_or_ge r a.length with hold | hnew
  · rw [mem_active_append_iff t hold, Before, Before, bitsOf_append_of_lt t hold,
      bitsOf_append_of_lt t (lt_length_of_mem_active hs)]
  · constructor
    · rintro ⟨hr, hbefore⟩
      exact absurd hbefore (h.not_before hr hnew hs)
    · rintro ⟨hr, -⟩
      exact absurd (lt_length_of_mem_active hr) (Nat.not_lt.2 hnew)

/-- An old symbol keeps its place. -/
theorem ComesLast.place_append (h : ComesLast a t) (hs : s ∈ active a) :
    place (a ++ t) s = place a s := by
  rw [place, place, h.filter_before_append hs, bitsOf_append_of_lt t (lt_length_of_mem_active hs)]
  refine Finset.sum_congr rfl fun r hr => ?_
  rw [bitsOf_append_of_lt t (lt_length_of_mem_active (Finset.mem_filter.1 hr).1)]

/-- An old symbol keeps its codeword. -/
theorem ComesLast.isCanonical_append (h : ComesLast a t) (hs : IsCanonical a s code) :
    IsCanonical (a ++ t) s code where
  active := (mem_active_append_iff t (lt_length_of_mem_active hs.active)).2 hs.active
  toNat_length := by
    rw [hs.toNat_length, bitsOf_append_of_lt t (lt_length_of_mem_active hs.active)]
  toNat_value := by
    rw [hs.toNat_value, h.place_append hs.active]

end Lengths

/-! ### Codebooks and messages -/

namespace Codebook

variable {a t : List UInt8} {layout layout' : Layout} {p q : Codebook} {message : List UInt16}
  {bits : List Bool}

/-- The entries of the new codebook begin with those of the old one. -/
theorem entries_prefix_of_comesLast (h : ComesLast a t) (ha : layout.Describes a)
    (hat : layout'.Describes (a ++ t)) :
    (ofLayout layout a).entries.toList <+: (ofLayout layout' (a ++ t)).entries.toList := by
  rw [List.prefix_iff_getElem?]
  intro s hs
  rw [← List.getElem?_eq_getElem hs, Array.getElem?_toList, Array.getElem?_toList]
  rw [Array.length_toList, size_entries_ofLayout] at hs
  have hold : a[s]? = some a[s] := List.getElem?_eq_getElem hs
  have hnew : (a ++ t)[s]? = some a[s] := by rw [List.getElem?_append_left hs, hold]
  rw [getElem?_entries_ofLayout ha hold, getElem?_entries_ofLayout hat hnew]
  split
  · rfl
  · rename_i hne
    rw [h.place_append (mem_active_iff_getElem?.2 ⟨_, hold, hne⟩)]

/-- A codebook that has all the codewords of another one encodes its messages by the same bits. -/
lemma encode?_of_code?_imp (h : ∀ s code, p.code? s = some code → q.code? s = some code)
    (hbits : p.encode? message = some bits) : q.encode? message = some bits := by
  induction message generalizing bits with
  | nil => rwa [encode?_nil] at hbits ⊢
  | cons symbol message ih =>
    rw [encode?_cons, Option.bind_eq_some_iff] at hbits ⊢
    obtain ⟨code, hcode, hbits⟩ := hbits
    obtain ⟨more, hmore, rfl⟩ := Option.map_eq_some_iff.1 hbits
    exact ⟨code, h _ code hcode, Option.map_eq_some_iff.2 ⟨more, ih hmore, rfl⟩⟩

end Codebook

namespace Table

variable {limits limits' : Limits} {a t : List UInt8} {A B : Table}

/-- **Extending an alphabet at its end keeps the codewords and the messages.**  Let each of the
symbols that are added have no codeword, or one that is no shorter than those of the old alphabet,
and let the new lengths be accepted, be it under other limits.  Then the new codebook begins with
the old one, and all bits that the old table decodes are decoded to the same message by the new
one. -/
theorem extending_keeps_codewords_and_messages (hA : Table.ofLengths limits a = .ok A)
    (ht : ∀ l ∈ t, l = 0 ∨ A.longest ≤ l) (hB : Table.ofLengths limits' (a ++ t) = .ok B) :
    (∃ p q, Codebook.ofLengths limits a = .ok p ∧ Codebook.ofLengths limits' (a ++ t) = .ok q ∧
      p.entries.toList <+: q.entries.toList) ∧
    ∀ bits message, A.decodeAll bits = .ok message → B.decodeAll bits = .ok message := by
  have hAdecodes := decodes_of_ofLengths hA
  have hBdecodes := decodes_of_ofLengths hB
  have hlast : ComesLast a t := by
    simpa only [ComesLast, ← hAdecodes.toNat_longest, ← UInt8.le_iff_toNat_le] using ht
  obtain ⟨layout, hlayout, -⟩ := Except.map_eq_ok_iff.1 hA
  obtain ⟨layout', hlayout', -⟩ := Except.map_eq_ok_iff.1 hB
  have hp : Codebook.ofLengths limits a = .ok (.ofLayout layout a) :=
    Except.map_eq_ok_iff.2 ⟨layout, hlayout, rfl⟩
  have hq : Codebook.ofLengths limits' (a ++ t) = .ok (.ofLayout layout' (a ++ t)) :=
    Except.map_eq_ok_iff.2 ⟨layout', hlayout', rfl⟩
  refine ⟨⟨_, _, hp, hq, ?_⟩, fun bits message hmessage => ?_⟩
  · exact Codebook.entries_prefix_of_comesLast hlast (Layout.describes_of_ofLengths hlayout)
      (Layout.describes_of_ofLengths hlayout')
  · rw [decodeAll_eq_ok_iff hAdecodes hp] at hmessage
    rw [decodeAll_eq_ok_iff hBdecodes hq]
    refine Codebook.encode?_of_code?_imp (fun s code hcode => ?_) hmessage
    rw [Codebook.code?_eq_some_iff hp] at hcode
    exact (Codebook.code?_eq_some_iff hq).2 (hlast.isCanonical_append hcode)

/-- Beside the codewords of 2, 1 and 3 bits there is room for two of four bits; the bits of the
message of 3, 1 and 0 stay what they were. -/
theorem extension_by_two_codewords : ∃ A B,
    Table.ofLengths .deflate [2, 1, 0, 3] = .ok A ∧
    Table.ofLengths .deflate ([2, 1, 0, 3] ++ [0, 4, 4]) = .ok B ∧
    A.decodeAll [true, true, false, false, true, false] = .ok [3, 1, 0] ∧
    B.decodeAll [true, true, false, false, true, false] = .ok [3, 1, 0] := by
  have hA : Table.ofLengths .deflate [2, 1, 0, 3] =
      .ok ⟨3, #[⟨0, 1, 0⟩, ⟨2, 1, 1⟩, ⟨6, 1, 2⟩], #[1, 0, 3], false⟩ := by decide +kernel
  have hB : Table.ofLengths .deflate ([2, 1, 0, 3] ++ [0, 4, 4]) =
      .ok ⟨4, #[⟨0, 1, 0⟩, ⟨2, 1, 1⟩, ⟨6, 1, 2⟩, ⟨14, 2, 3⟩], #[1, 0, 3, 5, 6], true⟩ := by
    decide +kernel
  have hmessage : decodeAll ⟨3, #[⟨0, 1, 0⟩, ⟨2, 1, 1⟩, ⟨6, 1, 2⟩], #[1, 0, 3], false⟩
      [true, true, false, false, true, false] = .ok [3, 1, 0] := by decide +kernel
  obtain ⟨-, hdecode⟩ := extending_keeps_codewords_and_messages hA (by simp) hB
  exact ⟨_, _, hA, hB, hmessage, hdecode _ _ hmessage⟩

end Table

end PrefixCode
