/-
# Decoders inside of a codeword

Between two bits a decoder keeps the bits of the codeword that it is in; they are fewer than
the longest codewords have, so they fit into a word and none is lost.  The next bit completes
a codeword, or makes the bits as long as the longest codewords without being one, or neither
(`push_after_cases`).  As the code is prefix-free, bits that are the beginning of a codeword
are read on up to its end (`finish_codeword`).
-/
import PrefixCode.Decoder
import PrefixCode.Proofs.Lookup

namespace PrefixCode

open PrefixCode.Lengths

variable {lengths : List UInt8} {table : Table} {bits : List Bool} {symbol : UInt16}

/-! ### Looking bits up -/

namespace Table.Decodes

lemma longest_pos (h : table.Decodes lengths) : 0 < table.longest.toNat := by
  rw [h.toNat_longest]
  exact h.realizable.maxBits_pos

lemma longest_le (h : table.Decodes lengths) : table.longest.toNat ≤ 32 := by
  rw [h.toNat_longest]
  exact h.realizable.maxBits_le

lemma length_le (h : table.Decodes lengths) {s : Nat} (hs : Spells lengths bits s) :
    bits.length ≤ table.longest.toNat := by
  rw [h.toNat_longest]
  exact hs.length_le

lemma spells_of_decode (h : table.Decodes lengths) {code : Codeword}
    (hcode : table.decode code = some symbol) : Spells lengths code.bits symbol.toNat :=
  ⟨code, h.decode_eq_some_iff.1 hcode, rfl⟩

/-- As many bits as the longest codewords have are a word of the greatest length. -/
lemma length_ofBits_eq_longest (h : table.Decodes lengths)
    (hlength : bits.length = table.longest.toNat) :
    (Codeword.ofBits bits).length = table.longest := by
  rw [← UInt8.toNat_inj, Codeword.toNat_length_ofBits (hlength.trans_le h.longest_le), hlength]

/-- Bits are looked up as the codeword that they are. -/
theorem decode_ofBits_eq_some_iff (h : table.Decodes lengths) (hle : bits.length ≤ 32) :
    table.decode (.ofBits bits) = some symbol ↔ Spells lengths bits symbol.toNat := by
  rw [h.decode_eq_some_iff]
  constructor
  · intro hcode
    exact ⟨.ofBits bits, hcode, Codeword.bits_ofBits hle⟩
  · rintro ⟨code, hcode, rfl⟩
    rw [Codeword.ofBits_bits (hcode.fits h.realizable)]
    exact hcode

end Table.Decodes

/-! ### One more bit -/

namespace Decoder

/-- A decoder that has read these bits since the last codeword. -/
def after (table : Table) (begun : List Bool) : Decoder :=
  ⟨table, .ofBits begun⟩

variable {begun rest more : List Bool} {bit : Bool}

lemma after_nil (table : Table) : after table [] = new table := rfl

/-- The bits read since the last codeword, if there are any. -/
lemma pending?_after (hle : begun.length ≤ 32) :
    (after table begun).pending? = if begun = [] then none else some (.ofBits begun) := by
  have hpos : 0 < (after table begun).begun.length ↔ ¬ begun = [] := by
    rw [after, UInt8.lt_iff_toNat_lt, Codeword.toNat_length_ofBits hle]
    exact List.length_pos_iff
  by_cases hbegun : begun = []
  · rw [pending?, if_neg fun h => hpos.1 h hbegun, if_pos hbegun]
  · rw [pending?, if_pos (hpos.2 hbegun), if_neg hbegun]
    rfl

/-- What the next bit brings about is decided by looking up the bits with it. -/
lemma push_after (table : Table) (begun : List Bool) (bit : Bool) :
    (after table begun).push bit =
      match table.decode (.ofBits (begun ++ [bit])) with
      | some symbol => (.symbol symbol, new table)
      | none =>
        if table.longest ≤ (Codeword.ofBits (begun ++ [bit])).length then
          (.invalid (.ofBits (begun ++ [bit])), new table)
        else (.incomplete, after table (begun ++ [bit])) := by
  simp only [after, Codeword.ofBits_concat]
  rfl

/-- The last bit of a codeword makes its symbol known. -/
theorem push_after_of_spells (h : table.Decodes lengths)
    (hs : Spells lengths (begun ++ [bit]) symbol.toNat) :
    (after table begun).push bit = (.symbol symbol, new table) := by
  have hle := (h.length_le hs).trans h.longest_le
  rw [push_after, (h.decode_ofBits_eq_some_iff hle).2 hs]

/-- Bits that are not a codeword are kept until they are as many as codewords have. -/
theorem push_after_of_not_spells (h : table.Decodes lengths)
    (hnone : ∀ symbol : UInt16, ¬ Spells lengths (begun ++ [bit]) symbol.toNat)
    (hlt : begun.length < table.longest.toNat) :
    (after table begun).push bit =
      if begun.length + 1 = table.longest.toNat then
        (.invalid (.ofBits (begun ++ [bit])), new table)
      else (.incomplete, after table (begun ++ [bit])) := by
  have hlength : (begun ++ [bit]).length = begun.length + 1 := List.length_append
  have hle : (begun ++ [bit]).length ≤ 32 := hlength ▸ Nat.le_trans hlt h.longest_le
  have hdecode : table.decode (.ofBits (begun ++ [bit])) = none :=
    Option.eq_none_iff_forall_ne_some.2 fun symbol hsymbol =>
      hnone symbol ((h.decode_ofBits_eq_some_iff hle).1 hsymbol)
  have hiff : table.longest ≤ (Codeword.ofBits (begun ++ [bit])).length ↔
      begun.length + 1 = table.longest.toNat := by
    rw [UInt8.le_iff_toNat_le, Codeword.toNat_length_ofBits hle, hlength]
    omega
  simp only [push_after, hdecode, hiff]

/-- A decoder that has read fewer bits than the longest codewords have is either done with a
codeword after the next bit, or keeps fewer bits than those again, or gives its bits up. -/
theorem push_after_cases (h : table.Decodes lengths) (hlt : begun.length < table.longest.toNat)
    (bit : Bool) :
    (∃ symbol : UInt16, Spells lengths (begun ++ [bit]) symbol.toNat ∧
      (after table begun).push bit = (.symbol symbol, new table)) ∨
    ((∀ symbol : UInt16, ¬ Spells lengths (begun ++ [bit]) symbol.toNat) ∧
      begun.length + 1 < table.longest.toNat ∧
      (after table begun).push bit = (.incomplete, after table (begun ++ [bit]))) ∨
    ((∀ symbol : UInt16, ¬ Spells lengths (begun ++ [bit]) symbol.toNat) ∧
      begun.length + 1 = table.longest.toNat ∧
      (after table begun).push bit = (.invalid (.ofBits (begun ++ [bit])), new table)) := by
  by_cases hs : ∃ symbol : UInt16, Spells lengths (begun ++ [bit]) symbol.toNat
  · obtain ⟨symbol, hs⟩ := hs
    exact Or.inl ⟨symbol, hs, push_after_of_spells h hs⟩
  · have hnone := not_exists.1 hs
    have hpush := push_after_of_not_spells h hnone hlt
    rcases Nat.lt_or_eq_of_le (Nat.succ_le_of_lt hlt) with hlt | heq
    · rw [if_neg hlt.ne] at hpush
      exact Or.inr (Or.inl ⟨hnone, hlt, hpush⟩)
    · rw [if_pos heq] at hpush
      exact Or.inr (Or.inr ⟨hnone, heq, hpush⟩)

/-! ### Up to the end of a codeword -/

/-- The beginning of a codeword with one more bit of it is no codeword, unless it was the last
bit. -/
lemma not_spells_of_append (hreal : Realizable lengths) {s : Nat} {next : Bool}
    (hs : Spells lengths (begun ++ bit :: next :: rest) s) (r : Nat) :
    ¬ Spells lengths (begun ++ [bit]) r := by
  intro hr
  rw [List.append_cons] at hs
  exact List.cons_ne_nil _ _ (hr.eq_nil_of_append hreal hs)

/-- A decoder inside of a codeword reads the rest of it and starts afresh. -/
theorem finish_codeword (h : table.Decodes lengths) (begun : List Bool)
    (hs : Spells lengths (begun ++ rest) symbol.toNat) (hrest : rest ≠ [])
    (symbols : Array UInt16) (more : List Bool) :
    (after table begun).finish symbols (rest ++ more) =
      (new table).finish (symbols.push symbol) more := by
  -- along the rest of the codeword: only its last bit makes the bits read a codeword
  induction rest generalizing begun with
  | nil => exact absurd rfl hrest
  | cons bit rest ih =>
    rw [List.cons_append, finish]
    cases rest with
    | nil => rw [push_after_of_spells h hs, List.nil_append]
    | cons next rest =>
      have hlength := h.length_le hs
      rw [List.length_append, List.length_cons, List.length_cons] at hlength
      rw [push_after_of_not_spells h
        (fun symbol => not_spells_of_append h.realizable hs symbol.toNat) (by omega),
        if_neg (by omega)]
      exact ih _ (by rw [← List.append_cons]; exact hs) (List.cons_ne_nil _ _)

end Decoder

end PrefixCode
