/-
# Reading by prefix

A reader looks for the codeword at the front of a bit string.  As the code is prefix-free there
is at most one, and no bits before its end are a codeword; so the reader, which stops at the
first bits that are, takes that codeword and no bit more (`readFrom_codeword`).  If there is no
codeword at the front, it takes as many bits as the longest codewords have, or all bits if they
are fewer (`readFrom_of_unspelled`).
-/
import PrefixCode.Proofs.Decoder
import PrefixCode.Reader

namespace PrefixCode

open PrefixCode.Lengths

variable {limits : Limits} {lengths : List UInt8} {table : Table} {begun bits rest : List Bool}
  {bit : Bool} {symbol : UInt16} {room : Nat}

/-- No codeword is at the front of these bits. -/
def Unspelled (lengths : List UInt8) (bits : List Bool) : Prop :=
  ∀ front s, front <+: bits → ¬ Spells lengths front s

namespace Table

/-! ### Telling codewords from other bits -/

/-- A table decodes the canonical code, and tells its codewords from all others. -/
structure Recognizes (table : Table) (lengths : List UInt8) : Prop extends
    table.Decodes lengths where
  contains_iff : ∀ {code : Codeword},
    table.contains code = true ↔ ∃ symbol, table.decode code = some symbol

lemma contains_ofLayout_iff {layout : Layout} (h : layout.Describes lengths) {code : Codeword} :
    (ofLayout layout lengths).contains code = true ↔ ∃ s, IsCanonical lengths s code := by
  rw [contains, Option.isSome_iff_exists]
  constructor
  · rintro ⟨slot, hslot⟩
    obtain ⟨s, hs, -⟩ := (slot?_eq_some_iff_rank h).1 hslot
    exact ⟨s, hs⟩
  · rintro ⟨s, hs⟩
    exact ⟨_, (slot?_eq_some_iff_rank h).2 ⟨s, hs, rfl⟩⟩

/-- The codeword of a symbol is decoded as it, since symbols fit into 16 bits. -/
lemma Decodes.decode_eq_some (h : table.Decodes lengths) {s : Nat} {code : Codeword}
    (hs : IsCanonical lengths s code) : table.decode code = some s.toUInt16 := by
  rw [h.decode_eq_some_iff, hs.toNat_toUInt16 h.realizable]
  exact hs

theorem recognizes_of_ofLengths (h : ofLengths limits lengths = .ok table) :
    table.Recognizes lengths := by
  have hdecodes := decodes_of_ofLengths h
  refine ⟨hdecodes, fun {code} => ?_⟩
  obtain ⟨layout, hlayout, rfl⟩ := Except.map_eq_ok_iff.1 h
  rw [contains_ofLayout_iff (Layout.describes_of_ofLengths hlayout)]
  constructor
  · rintro ⟨s, hs⟩
    exact ⟨s.toUInt16, hdecodes.decode_eq_some hs⟩
  · rintro ⟨symbol, hsymbol⟩
    exact ⟨symbol.toNat, hdecodes.decode_eq_some_iff.1 hsymbol⟩

lemma Recognizes.contains_ofBits_iff (h : table.Recognizes lengths) (hle : bits.length ≤ 32) :
    table.contains (.ofBits bits) = true ↔ ∃ symbol : UInt16, Spells lengths bits symbol.toNat := by
  rw [h.contains_iff]
  exact exists_congr fun symbol => h.decode_ofBits_eq_some_iff hle

/-! ### One more bit -/

/-- The last bit of a codeword ends the reading. -/
theorem readFrom_of_spells (h : table.Recognizes lengths)
    (hs : Spells lengths (begun ++ [bit]) symbol.toNat) (room : Nat) (bits : List Bool) :
    table.readFrom (room + 1) (.ofBits begun) (bit :: bits) = (.ok symbol, bits) := by
  have hle := (h.length_le hs).trans h.longest_le
  have hget : table.get (.ofBits (begun ++ [bit])) = .ok symbol :=
    get_eq_ok_iff.2 ((h.decode_ofBits_eq_some_iff hle).2 hs)
  rw [readFrom, ← Codeword.ofBits_concat, if_pos ((h.contains_ofBits_iff hle).2 ⟨symbol, hs⟩), hget]

/-- Bits that are not a codeword are read on from. -/
theorem readFrom_of_not_spells (h : table.Recognizes lengths)
    (hnone : ∀ symbol : UInt16, ¬ Spells lengths (begun ++ [bit]) symbol.toNat)
    (hlt : begun.length < 32) (room : Nat) (bits : List Bool) :
    table.readFrom (room + 1) (.ofBits begun) (bit :: bits) =
      table.readFrom room (.ofBits (begun ++ [bit])) bits := by
  have hle : (begun ++ [bit]).length ≤ 32 := by
    rw [List.length_append]
    exact hlt
  have hmiss : ¬ table.contains (.ofBits (begun ++ [bit])) = true := by
    rw [h.contains_ofBits_iff hle, not_exists]
    exact hnone
  rw [readFrom, ← Codeword.ofBits_concat, if_neg hmiss]

/-! ### Up to the end of a codeword -/

/-- A reader inside of a codeword reads the rest of it and leaves what follows. -/
theorem readFrom_codeword (h : table.Recognizes lengths) (begun : List Bool)
    (hs : Spells lengths (begun ++ rest) symbol.toNat) (hrest : rest ≠ [])
    (hroom : rest.length ≤ room) (more : List Bool) :
    table.readFrom room (.ofBits begun) (rest ++ more) = (.ok symbol, more) := by
  -- along the rest of the codeword: only its last bit makes the bits read a codeword
  induction rest generalizing begun room with
  | nil => exact absurd rfl hrest
  | cons bit rest ih =>
    have hlength := (h.length_le hs).trans h.longest_le
    rw [List.length_append, List.length_cons] at hlength
    rw [List.length_cons] at hroom
    obtain ⟨room, rfl⟩ : ∃ k, room = k + 1 := ⟨room - 1, by omega⟩
    rw [List.cons_append]
    cases rest with
    | nil => rw [readFrom_of_spells h hs, List.nil_append]
    | cons next rest =>
      rw [readFrom_of_not_spells h
        (fun symbol => Decoder.not_spells_of_append h.realizable hs symbol.toNat) (by omega)]
      exact ih _ (by rw [← List.append_cons]; exact hs) (List.cons_ne_nil _ _) (by omega)

/-- A reader that meets no codeword takes all the bits that it has room for. -/
theorem readFrom_of_unspelled (h : table.Recognizes lengths) (begun bits : List Bool)
    (hnone : Unspelled lengths (begun ++ bits)) (hroom : begun.length + room ≤ 32) :
    table.readFrom room (.ofBits begun) bits =
      if bits.length < room then (.error .endOfInput, [])
      else (.error (.noSymbol (.ofBits (begun ++ bits.take room))), bits.drop room) := by
  induction room generalizing begun bits with
  | zero => simp [readFrom]
  | succ room ih =>
    cases bits with
    | nil => simp [readFrom]
    | cons bit bits =>
      have happend : begun ++ bit :: bits = (begun ++ [bit]) ++ bits := by simp
      rw [happend] at hnone
      rw [readFrom_of_not_spells h (fun symbol => hnone _ _ (List.prefix_append _ _)) (by omega),
        ih _ _ hnone (by rw [List.length_append, List.length_singleton]; omega)]
      simp

/-! ### The codeword in front -/

/-- The codeword of this symbol is at the front of the bits. -/
def InFront (table : Table) (bits : List Bool) (code : Codeword) (symbol : UInt16) : Prop :=
  table.decode code = some symbol ∧ code.bits <+: bits

namespace InFront

variable {code : Codeword}

/-- At most one codeword is at the front of the bits. -/
lemma unique (h : table.Recognizes lengths) {code' : Codeword} {symbol' : UInt16}
    (hfront : table.InFront bits code symbol) (hfront' : table.InFront bits code' symbol') :
    code' = code ∧ symbol' = symbol := by
  obtain ⟨hdecode, hpre⟩ := hfront
  obtain ⟨hdecode', hpre'⟩ := hfront'
  have hcode := h.decode_eq_some_iff.1 hdecode
  have hcode' := h.decode_eq_some_iff.1 hdecode'
  have hsymbol : symbol'.toNat = symbol.toNat := by
    rcases List.prefix_or_prefix_of_prefix hpre' hpre with hle | hle
    · exact hcode'.symbol_eq_of_bits_prefix h.realizable hcode hle
    · exact (hcode.symbol_eq_of_bits_prefix h.realizable hcode' hle).symm
  rw [hsymbol] at hcode'
  exact ⟨hcode'.code_eq hcode, UInt16.toNat_inj.1 hsymbol⟩

/-- The codeword in front is what a reader takes. -/
lemma read_eq (h : table.Recognizes lengths) (hfront : table.InFront bits code symbol) :
    table.read bits = (.ok symbol, bits.drop code.length.toNat) := by
  obtain ⟨hdecode, rest, rfl⟩ := hfront
  have hs := h.spells_of_decode hdecode
  rw [← Codeword.length_bits, List.drop_left]
  exact readFrom_codeword h [] hs hs.ne_nil (h.length_le hs) rest

end InFront

/-- A reader that fails has not met a codeword. -/
lemma not_inFront_of_read_eq_error (h : table.Recognizes lengths) {error : DecodeError}
    (hread : table.read bits = (.error error, rest)) (code : Codeword) (symbol : UInt16) :
    ¬ table.InFront bits code symbol := by
  intro hfront
  rw [hfront.read_eq h] at hread
  cases hread

/-- No codeword is at the front of the bits, which are fewer than the longest codewords have. -/
def RunsOut (table : Table) (bits : List Bool) : Prop :=
  (∀ code symbol, ¬ table.InFront bits code symbol) ∧ bits.length < table.longest.toNat

/-- No codeword is at the front of the bits, though there are enough for any codeword. -/
def Misses (table : Table) (bits : List Bool) : Prop :=
  (∀ code symbol, ¬ table.InFront bits code symbol) ∧ table.longest.toNat ≤ bits.length

lemma read_of_not_inFront (h : table.Recognizes lengths)
    (hnone : ∀ code symbol, ¬ table.InFront bits code symbol) :
    table.read bits =
      if bits.length < table.longest.toNat then (.error .endOfInput, [])
      else (.error (.noSymbol (.ofBits (bits.take table.longest.toNat))),
        bits.drop table.longest.toNat) := by
  have hunspelled : Unspelled lengths bits := by
    rintro _ s hpre ⟨code, hcode, rfl⟩
    exact hnone code s.toUInt16 ⟨h.decode_eq_some hcode, hpre⟩
  exact readFrom_of_unspelled h [] bits hunspelled (by simpa using h.longest_le)

lemma RunsOut.read_eq (h : table.Recognizes lengths) (hout : table.RunsOut bits) :
    table.read bits = (.error .endOfInput, []) := by
  rw [read_of_not_inFront h hout.1, if_pos hout.2]

/-- The bits that are missed are reported as a number of the greatest length. -/
lemma Misses.read_eq (h : table.Recognizes lengths) (hmiss : table.Misses bits) :
    ∃ code : Codeword, code.length = table.longest ∧
      code.value.toNat = Codeword.numberOf (bits.take table.longest.toNat) ∧
      table.read bits = (.error (.noSymbol code), bits.drop table.longest.toNat) := by
  have hlength : (bits.take table.longest.toNat).length = table.longest.toNat :=
    List.length_take_of_le hmiss.2
  have hle := hlength.trans_le h.longest_le
  refine ⟨_, h.length_ofBits_eq_longest hlength, Codeword.toNat_value_ofBits hle, ?_⟩
  rw [read_of_not_inFront h hmiss.1, if_neg (Nat.not_lt.2 hmiss.2)]

/-- **A reader takes the codeword in front of the bits.**  If there is one, it is the only
one, and its symbol is returned with the bits after it.  If there is none, the bits are all
taken if they are fewer than the longest codewords have; otherwise as many as those have are
taken and reported.  One of the three is the case, and only one. -/
theorem read_takes_codeword_in_front (h : ofLengths limits lengths = .ok table)
    (bits : List Bool) :
    (∀ code symbol, table.InFront bits code symbol →
      (∀ code' symbol', table.InFront bits code' symbol' → code' = code ∧ symbol' = symbol) ∧
      table.read bits = (.ok symbol, bits.drop code.length.toNat)) ∧
    (table.RunsOut bits → table.read bits = (.error .endOfInput, [])) ∧
    (table.Misses bits → ∃ code : Codeword, code.length = table.longest ∧
      code.value.toNat = Codeword.numberOf (bits.take table.longest.toNat) ∧
      table.read bits = (.error (.noSymbol code), bits.drop table.longest.toNat)) ∧
    ((∃ code symbol, table.InFront bits code symbol) ∧ ¬ table.RunsOut bits ∧
        ¬ table.Misses bits ∨
      (¬ ∃ code symbol, table.InFront bits code symbol) ∧ table.RunsOut bits ∧
        ¬ table.Misses bits ∨
      (¬ ∃ code symbol, table.InFront bits code symbol) ∧ ¬ table.RunsOut bits ∧
        table.Misses bits) := by
  have hrec := recognizes_of_ofLengths h
  refine ⟨fun code symbol hfront => ⟨fun code' symbol' => hfront.unique hrec,
    hfront.read_eq hrec⟩, RunsOut.read_eq hrec, Misses.read_eq hrec, ?_⟩
  by_cases hfront : ∃ code symbol, table.InFront bits code symbol
  · obtain ⟨code, symbol, hfront⟩ := hfront
    exact Or.inl ⟨⟨code, symbol, hfront⟩, fun hout => hout.1 code symbol hfront,
      fun hmiss => hmiss.1 code symbol hfront⟩
  · have hnone : ∀ code symbol, ¬ table.InFront bits code symbol := by
      intro code symbol h'
      exact hfront ⟨code, symbol, h'⟩
    rcases Nat.lt_or_ge bits.length table.longest.toNat with hlt | hge
    · exact Or.inr (Or.inl ⟨hfront, ⟨hnone, hlt⟩, fun hmiss => absurd hlt (Nat.not_lt.2 hmiss.2)⟩)
    · exact Or.inr (Or.inr ⟨hfront, fun hout => absurd hout.2 (Nat.not_lt.2 hge), hnone, hge⟩)

/-- In the code of `0` and `10`, the bits `100` begin with the codeword of the second symbol,
and of the bits `110` the first two are missed. -/
theorem reads_of_two_symbols : ∃ table, Table.ofLengths .deflate [1, 2] = .ok table ∧
    table.read [true, false, false] = (.ok 1, [false]) ∧
    table.Misses [true, true, false] ∧
    ∃ code : Codeword, code.length = 2 ∧ code.value.toNat = 3 ∧
      table.read [true, true, false] = (.error (.noSymbol code), [false]) := by
  have htable : Table.ofLengths .deflate [1, 2] =
      .ok ⟨2, #[⟨0, 1, 0⟩, ⟨2, 1, 1⟩], #[0, 1], false⟩ := by decide +kernel
  obtain ⟨hfront, -⟩ := read_takes_codeword_in_front htable [true, false, false]
  obtain ⟨hfront', -, hmisses, -⟩ := read_takes_codeword_in_front htable [true, true, false]
  have hmiss : Misses ⟨2, #[⟨0, 1, 0⟩, ⟨2, 1, 1⟩], #[0, 1], false⟩ [true, true, false] := by
    refine ⟨fun code symbol h => ?_, by decide⟩
    -- a codeword in front would be read
    have hread := (hfront' code symbol h).2
    have hmissed : Table.read ⟨2, #[⟨0, 1, 0⟩, ⟨2, 1, 1⟩], #[0, 1], false⟩ [true, true, false] =
        (.error (.noSymbol ⟨3, 2⟩), [false]) := by decide +kernel
    rw [hmissed] at hread
    cases hread
  exact ⟨_, htable, (hfront ⟨2, 2⟩ 1 ⟨by decide +kernel, by decide +kernel⟩).2, hmiss,
    hmisses hmiss⟩

end Table

end PrefixCode
