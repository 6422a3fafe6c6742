/-
# What the bits of a complete code begin

A table says that it is complete when nothing is left of the code space.  On streams this is seen in
two ways: no bits are ever reported as not being a codeword, and what has been received can at any
time be completed to a message by some more bits, fewer than the longest codewords have.  Both
follow from there being no bits that are missed.  For bits that are not yet a message have stopped
in the middle of a codeword: with enough zeros after the last of them there is a codeword in front,
and as there was none before, it begins with them (`RunsOut.exists_codeword`).  Bits that are
missed, on the other hand, are missed whatever follows.
-/
import PrefixCode.Proofs.Coverage
import PrefixCode.Proofs.ReadAll

namespace PrefixCode.Table

variable {limits : Limits} {lengths : List UInt8} {table : Table} {bits rest : List Bool}
  {symbol : UInt16} {symbols : List UInt16} {result : Except DecodeError (List UInt16)}

/-! ### What a reader answers -/

/-- A reader answers a symbol exactly if the codeword of it comes first. -/
theorem read_eq_ok_iff (h : table.Recognizes lengths) :
    table.read bits = (.ok symbol, rest) ↔
      ∃ code, table.decode code = some symbol ∧ code.bits ++ rest = bits := by
  constructor
  · intro hread
    by_cases hfront : ∃ code symbol, table.InFront bits code symbol
    · obtain ⟨code, symbol', hfront⟩ := hfront
      have htaken := hfront.read_eq h
      obtain ⟨hdecode, rest', rfl⟩ := hfront
      rw [htaken, ← Codeword.length_bits, List.drop_left, Prod.mk.injEq, Except.ok.injEq] at hread
      obtain ⟨rfl, rfl⟩ := hread
      exact ⟨code, hdecode, rfl⟩
    · simp only [not_exists] at hfront
      rw [read_of_not_inFront h hfront] at hread
      split at hread <;> cases hread
  · rintro ⟨code, hdecode, rfl⟩
    rw [InFront.read_eq h ⟨hdecode, List.prefix_append _ _⟩, ← Codeword.length_bits,
      List.drop_left]

/-- What follows the bits makes no difference to a symbol that has been read from them. -/
lemma read_append_of_ok (h : table.Recognizes lengths)
    (hread : table.read bits = (.ok symbol, rest)) (more : List Bool) :
    table.read (bits ++ more) = (.ok symbol, rest ++ more) := by
  obtain ⟨code, hdecode, rfl⟩ := (read_eq_ok_iff h).1 hread
  exact (read_eq_ok_iff h).2 ⟨code, hdecode, (List.append_assoc _ _ _).symm⟩

/-- If no bits are missed, a reader only fails when it runs out of bits. -/
lemma runsOut_of_read_eq_error (h : table.Recognizes lengths) (hnone : ¬ table.Misses bits)
    {error : DecodeError} (hread : table.read bits = (.error error, rest)) :
    table.RunsOut bits := by
  have hfront := not_inFront_of_read_eq_error h hread
  exact ⟨hfront, Nat.lt_of_not_le fun hle => hnone ⟨hfront, hle⟩⟩

/-! ### Bits that are missed -/

/-- If decoding reports bits that are no codeword, some bits are missed. -/
lemma exists_misses_of_readsAll (h : table.Recognizes lengths)
    (hreads : table.ReadsAll symbols bits result) {code : Codeword}
    (hresult : result = .error (.noSymbol code)) : ∃ missed, table.Misses missed := by
  induction hreads with
  | done => cases hresult
  | stop _ hread =>
    cases hresult
    exact ⟨_, (read_eq_noSymbol_iff h).1 ⟨code, _, hread⟩⟩
  | next _ _ _ ih => exact ih hresult

/-- Bits that are missed are reported by decoding. -/
lemma Misses.decodeAll_eq (h : table.Recognizes lengths) (hmiss : table.Misses bits) :
    ∃ code, table.decodeAll bits = .error (.noSymbol code) := by
  obtain ⟨code, left, hread⟩ := (read_eq_noSymbol_iff h).2 hmiss
  have hne : bits ≠ [] := by
    rintro rfl
    exact absurd h.longest_pos (Nat.not_lt.2 hmiss.2)
  exact ⟨code, (readsAll_iff_decodeAll_eq h).1 (.stop hne hread)⟩

/-- No message begins with bits that are missed. -/
theorem Misses.decodeAll_append_ne_ok (h : table.Recognizes lengths) (hmiss : table.Misses bits)
    (more : List Bool) (message : List UInt16) : table.decodeAll (bits ++ more) ≠ .ok message := by
  obtain ⟨code, hdecode⟩ := ((misses_append_iff h.toDecodes hmiss.2).2 hmiss).decodeAll_eq h
  rw [hdecode]
  exact nofun

/-! ### Bits that run out -/

/-- If no bits are missed, those that run out are the beginning of a codeword. -/
theorem RunsOut.exists_codeword (hnone : ∀ bits, ¬ table.Misses bits)
    (hout : table.RunsOut bits) :
    ∃ code symbol more, table.decode code = some symbol ∧ code.bits = bits ++ more := by
  have hpadded : table.longest.toNat ≤
      (bits ++ List.replicate (table.longest.toNat - bits.length) false).length := by
    rw [List.length_append, List.length_replicate]
    omega
  by_contra hcodeword
  refine hnone _ ⟨fun code symbol hfront => ?_, hpadded⟩
  -- a codeword in front of the padded bits would be within them or begin with them
  rcases List.prefix_or_prefix_of_prefix hfront.2 (List.prefix_append bits _) with hpre | hpre
  · exact hout.1 code symbol ⟨hfront.1, hpre⟩
  · obtain ⟨more, hmore⟩ := hpre
    exact hcodeword ⟨code, symbol, more, hfront.1, hmore.symm⟩

/-- If no bits are missed, a message can be made of any bits by fewer more than the longest
codewords have. -/
theorem ReadsAll.exists_message (h : table.Recognizes lengths)
    (hnone : ∀ bits, ¬ table.Misses bits) (hreads : table.ReadsAll symbols bits result) :
    ∃ more, more.length < table.longest.toNat ∧
      ∃ message, table.ReadsAll symbols (bits ++ more) (.ok message) := by
  -- along the calls: only the last one, when the bits run out, is given any more
  induction hreads with
  | done => exact ⟨[], h.longest_pos, _, .done⟩
  | @stop symbols bits rest error hne hread =>
    have hout := runsOut_of_read_eq_error h (hnone bits) hread
    obtain ⟨code, symbol, more, hdecode, hbits⟩ := hout.exists_codeword hnone
    have hle := h.length_le (h.spells_of_decode hdecode)
    have hpos := List.length_pos_of_ne_nil hne
    rw [hbits, List.length_append] at hle
    have hread' : table.read (bits ++ more) = (.ok symbol, []) :=
      (read_eq_ok_iff h).2 ⟨code, hdecode, by rw [List.append_nil, hbits]⟩
    exact ⟨more, by omega, _, .next (List.append_ne_nil_of_left_ne_nil hne more) hread' .done⟩
  | @next symbols bits rest symbol result hne hread _ ih =>
    obtain ⟨more, hlt, message, hrest⟩ := ih
    exact ⟨more, hlt, message, .next (List.append_ne_nil_of_left_ne_nil hne more)
      (read_append_of_ok h hread more) hrest⟩

/-! ### Completeness -/

/-- **A complete code is one in which every bit string begins a message.**  A table says that it
is complete exactly if decoding never reports bits that are no codeword; and exactly if every bit
string can be extended to a message by fewer bits than the longest codewords have.  If a table
is incomplete, there are bits that nothing extends to a message. -/
theorem complete_iff_messages_begin (htable : ofLengths limits lengths = .ok table) :
    (table.complete = true ↔ ∀ bits code, table.decodeAll bits ≠ .error (.noSymbol code)) ∧
    (table.complete = true ↔ ∀ bits, ∃ more, more.length < table.longest.toNat ∧
      ∃ message, table.decodeAll (bits ++ more) = .ok message) ∧
    (table.complete = false →
      ∃ bits, ∀ more message, table.decodeAll (bits ++ more) ≠ .ok message) := by
  have h := recognizes_of_ofLengths htable
  rw [complete_iff_not_misses htable]
  refine ⟨⟨fun hnone bits code hdecode => ?_, fun hall bits hmiss => ?_⟩,
    ⟨fun hnone bits => ?_, fun hall bits hmiss => ?_⟩, fun hcomplete => ?_⟩
  · obtain ⟨missed, hmiss⟩ :=
      exists_misses_of_readsAll h ((readsAll_iff_decodeAll_eq h).2 hdecode) rfl
    exact hnone missed hmiss
  · obtain ⟨code, hdecode⟩ := hmiss.decodeAll_eq h
    exact hall bits code hdecode
  · obtain ⟨result, hreads⟩ := exists_readsAll h [] bits
    obtain ⟨more, hlt, message, hmessage⟩ := hreads.exists_message h hnone
    exact ⟨more, hlt, message, (readsAll_iff_decodeAll_eq h).1 hmessage⟩
  · obtain ⟨more, -, message, hdecode⟩ := hall bits
    exact hmiss.decodeAll_append_ne_ok h more message hdecode
  · obtain ⟨bits, hmiss⟩ := exists_misses htable hcomplete
    exact ⟨bits, hmiss.decodeAll_append_ne_ok h⟩

/-- In the complete code of `0`, `10`, `110` and `111`, any bits may be extended to a message by at
most two more, and none are reported; in the code of `0` and `10` alone, this is not so. -/
theorem messages_of_two_codes : ∃ full part,
    ofLengths .deflate [2, 1, 0, 3, 3] = .ok full ∧
    (∀ bits, ∃ more, more.length < 3 ∧
      ∃ message, full.decodeAll (bits ++ more) = .ok message) ∧
    (∀ bits code, full.decodeAll bits ≠ .error (.noSymbol code)) ∧
    ofLengths .deflate [1, 2] = .ok part ∧
    ∃ bits, ∀ more message, part.decodeAll (bits ++ more) ≠ .ok message := by
  have hfull : ofLengths .deflate [2, 1, 0, 3, 3] =
      .ok ⟨3, #[⟨0, 1, 0⟩, ⟨2, 1, 1⟩, ⟨6, 2, 2⟩], #[1, 0, 3, 4], true⟩ := by decide +kernel
  have hpart : ofLengths .deflate [1, 2] =
      .ok ⟨2, #[⟨0, 1, 0⟩, ⟨2, 1, 1⟩], #[0, 1], false⟩ := by decide +kernel
  obtain ⟨hquiet, hextend, -⟩ := complete_iff_messages_begin hfull
  obtain ⟨-, -, hstuck⟩ := complete_iff_messages_begin hpart
  exact ⟨_, _, hfull, hextend.1 rfl, hquiet.1 rfl, hpart, hstuck rfl⟩

end PrefixCode.Table
