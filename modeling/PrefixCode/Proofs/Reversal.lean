/-
# Codewords for writers that start with the least significant bit

In DEFLATE a byte is filled from its least significant bit on, and so are numbers written, whereas a
codeword is sent with its most significant bit first.  A writer of numbers is therefore given the
reversed codeword.  Reversing moves the bit in place `i` to the place as far from the other end
(`testBit_reversed`), and bits beyond the length of the codeword are left out; so what the writer
puts out are the bits of the codeword (`lowBits_reversed`).
-/
import PrefixCode.Proofs.RoundTrip

namespace List

lemma exists_of_mem_of_mapM_eq_some {α β : Type} {f : α → Option β} {xs : List α} {ys : List β}
    (h : xs.mapM f = some ys) {y : β} (hy : y ∈ ys) : ∃ x ∈ xs, f x = some y := by
  induction xs generalizing ys with
  | nil =>
    rw [List.mapM_nil, Option.pure_def, Option.some.injEq] at h
    exact absurd (h ▸ hy) List.not_mem_nil
  | cons x xs ih =>
    simp only [List.mapM_cons, Option.bind_eq_bind, Option.bind_eq_some_iff, Option.pure_def,
      Option.some.injEq] at h
    obtain ⟨first, hfirst, others, hothers, rfl⟩ := h
    rcases List.mem_cons.1 hy with rfl | hy
    · exact ⟨x, List.mem_cons_self, hfirst⟩
    · obtain ⟨x', hx', hy⟩ := ih hothers hy
      exact ⟨x', List.mem_cons_of_mem _ hx', hy⟩

end List

namespace PrefixCode

open PrefixCode.Lengths

/-! ### One codeword -/

namespace Codeword

variable {c : Codeword}

/-- The low bits of a word, as many as asked for, the least significant one first. -/
def lowBits (value : UInt32) (count : Nat) : List Bool :=
  (List.range count).map value.toNat.testBit

/-- The bits of the reversed codeword are those of the codeword, counted from the other end. -/
theorem testBit_reversed (h : c.length.toNat ≤ 32) (i : Nat) :
    c.reversed.toNat.testBit i =
      (decide (i < c.length.toNat) && c.value.toNat.testBit (c.length.toNat - 1 - i)) := by
  have hbit : c.reversed.toNat.testBit i =
      c.value.toBitVec.reverse.getLsbD (32 - c.length.toNat + i) := by
    rw [reversed, UInt32.toNat_ofBitVec, BitVec.testBit_toNat, BitVec.getLsbD_ushiftRight]
  rw [hbit, BitVec.getLsbD_reverse, BitVec.getMsbD_eq_getLsbD]
  by_cases hi : i < c.length.toNat
  · have hin : 32 - c.length.toNat + i < 32 := by omega
    have hplace : 32 - 1 - (32 - c.length.toNat + i) = c.length.toNat - 1 - i := by omega
    rw [hplace]
    simp [hi, hin, BitVec.getLsbD]
  -- the shift has moved the first bit of the word beyond the length of the codeword
  · have hout : ¬ 32 - c.length.toNat + i < 32 := by omega
    simp [hi, hout]

/-- Reversed, a codeword has no bits beyond its length. -/
theorem toNat_reversed_lt (h : c.length.toNat ≤ 32) : c.reversed.toNat < 2 ^ c.length.toNat := by
  refine Nat.lt_pow_two_of_testBit _ fun i hi => ?_
  simp [testBit_reversed h, Nat.not_lt.2 hi]

/-- Written with the least significant bit first, the reversed codeword is the codeword. -/
theorem lowBits_reversed (h : c.length.toNat ≤ 32) :
    lowBits c.reversed c.length.toNat = c.bits := by
  apply List.ext_getElem?
  intro i
  rcases Nat.lt_or_ge i c.length.toNat with hi | hi
  · rw [getElem?_bits hi]
    simp [lowBits, testBit_reversed h, hi]
  · have hbits : c.bits[i]? = none := List.getElem?_eq_none (by rwa [length_bits])
    rw [hbits]
    simp [lowBits, hi]

/-- Reversing twice leaves the bits that belong to the codeword. -/
theorem toNat_reversed_reversed (h : c.length.toNat ≤ 32) :
    (Codeword.mk c.reversed c.length).reversed.toNat = c.value.toNat % 2 ^ c.length.toNat := by
  apply Nat.eq_of_testBit_eq
  intro i
  rw [Nat.testBit_mod_two_pow, testBit_reversed (c := ⟨c.reversed, c.length⟩) h]
  by_cases hi : i < c.length.toNat
  · have hback : c.length.toNat - 1 - (c.length.toNat - 1 - i) = i := by omega
    have hlt : c.length.toNat - 1 - i < c.length.toNat := by omega
    simp [testBit_reversed h, hi, hlt, hback]
  · simp [hi]

end Codeword

/-! ### Messages -/

variable {limits : Limits} {lengths : List UInt8} {table : Table} {book : Codebook}

namespace Codebook

/-- The bits that are put out by a writer which starts with the least significant bit and is given
the reversed codewords of a message. -/
def encodeReversed? (book : Codebook) (message : List UInt16) : Option (List Bool) :=
  (message.mapM fun symbol => book.code? symbol.toNat).map
    (·.flatMap fun code => Codeword.lowBits code.reversed code.length.toNat)

/-- Such a writer puts out the bits of the message. -/
theorem encodeReversed?_eq_encode? (h : Codebook.ofLengths limits lengths = .ok book)
    (message : List UInt16) : book.encodeReversed? message = book.encode? message := by
  refine Option.map_congr fun codes hcodes => List.flatMap_congr fun code hcode => ?_
  obtain ⟨symbol, -, hcode⟩ := List.exists_of_mem_of_mapM_eq_some hcodes hcode
  have hfits := ((code?_eq_some_iff h).1 hcode).fits (realizable_of_ofLengths h)
  exact Codeword.lowBits_reversed hfits.length_le

end Codebook

namespace Table

/-- **Reversed codewords are for writers that start with the least significant bit.**  Whatever bits
a word has beyond the length of the codeword, its reversal has none.  Its bits, from the least
significant one on, are those of the codeword, and to reverse it once more takes it back.  So what
is written of a message in this way decodes to the message. -/
theorem reversed_codewords_are_written_low_bit_first :
    (∀ c : Codeword, c.length ≤ 32 →
      c.reversed.toNat < 2 ^ c.length.toNat ∧
      Codeword.lowBits c.reversed c.length.toNat = c.bits ∧
      (Codeword.mk c.reversed c.length).reversed.toNat = c.value.toNat % 2 ^ c.length.toNat) ∧
    ∀ limits lengths table, Table.ofLengths limits lengths = .ok table →
      ∃ book, Codebook.ofLengths limits lengths = .ok book ∧
        ∀ message : List UInt16, (∀ s ∈ message, ∃ l, lengths[s.toNat]? = some l ∧ l ≠ 0) →
          ∃ bits, book.encodeReversed? message = some bits ∧ table.decodeAll bits = .ok message := by
  refine ⟨fun c hc => ?_, fun limits lengths table htable => ?_⟩
  · have hle : c.length.toNat ≤ 32 := UInt8.le_iff_toNat_le.1 hc
    exact ⟨Codeword.toNat_reversed_lt hle, Codeword.lowBits_reversed hle,
      Codeword.toNat_reversed_reversed hle⟩
  · obtain ⟨book, hbook⟩ := exists_codebook htable
    refine ⟨book, hbook, fun message hmessage => ?_⟩
    obtain ⟨bits, hbits⟩ := Codebook.exists_encode?_eq_some hbook hmessage
    rw [Codebook.encodeReversed?_eq_encode? hbook]
    exact ⟨bits, hbits, (decodeAll_eq_ok_iff (decodes_of_ofLengths htable) hbook).2 hbits⟩

/-- The three low bits of fourteen are the codeword `110`.  The fourth bit is lost when it is
reversed, and the reversal is written as `110`.  So the message of the symbols 3, 1 and 0 is written
as it is sent. -/
theorem written_message_of_three_symbols : ∃ table book bits,
    Table.ofLengths .deflate [2, 1, 0, 3, 3] = .ok table ∧
    Codebook.ofLengths .deflate [2, 1, 0, 3, 3] = .ok book ∧
    (⟨14, 3⟩ : Codeword).length ≤ 32 ∧
    (⟨14, 3⟩ : Codeword).reversed.toNat < 2 ^ 3 ∧
    Codeword.lowBits (⟨14, 3⟩ : Codeword).reversed 3 = [true, true, false] ∧
    (Codeword.mk (⟨14, 3⟩ : Codeword).reversed 3).reversed.toNat = 6 ∧
    book.encodeReversed? [3, 1, 0] = some bits ∧ table.decodeAll bits = .ok [3, 1, 0] := by
  have htable : Table.ofLengths .deflate [2, 1, 0, 3, 3] =
      .ok ⟨3, #[⟨0, 1, 0⟩, ⟨2, 1, 1⟩, ⟨6, 2, 2⟩], #[1, 0, 3, 4], true⟩ := by decide +kernel
  have hmessage : ∀ s ∈ ([3, 1, 0] : List UInt16),
      ∃ l, ([2, 1, 0, 3, 3] : List UInt8)[s.toNat]? = some l ∧ l ≠ 0 := by simp
  have hlength : (⟨14, 3⟩ : Codeword).length ≤ 32 := by decide
  obtain ⟨hreversed, hwritten⟩ := reversed_codewords_are_written_low_bit_first
  obtain ⟨hlt, hlow, htwice⟩ := hreversed ⟨14, 3⟩ hlength
  obtain ⟨book, hbook, hmessages⟩ := hwritten _ _ _ htable
  obtain ⟨bits, hbits, hdecode⟩ := hmessages [3, 1, 0] hmessage
  exact ⟨_, book, bits, htable, hbook, hlength, hlt, hlow, htwice, hbits, hdecode⟩

end Table

end PrefixCode
