/-
# No bit is lost

A decoder is given bits and is reset in between, as often and at whatever places one likes.
Between two of these acts, the bits that it has kept are fewer than the longest codewords have,
and no codeword is at the front of them (`Begun`); so there is room for the next bit.  Each act
adds at most one bit to the bits kept, and those that are not kept any more make up a codeword,
or are given up or forgotten as they are (`act_after`).  Along a run, all the bits that the
decoder has been given are therefore found again, in order.
-/
import PrefixCode.Proofs.PrefixFree
import PrefixCode.Proofs.Reader

namespace PrefixCode

open PrefixCode.Lengths

/-! ### Bits and resets -/

namespace Decoder

/-- What is done to a decoder: it is given a bit, or it is reset. -/
inductive Act
  | push (bit : Bool)
  | reset
  deriving DecidableEq

/-- The bits that the decoder is given. -/
def Act.bits : Act → List Bool
  | push bit => [bit]
  | reset => []

/-- What becomes of bits that a decoder has kept. -/
inductive Event
  /-- They are the codeword of this symbol. -/
  | symbol (symbol : UInt16)
  /-- They are as long as the longest codewords but are none. -/
  | invalid (code : Codeword)
  /-- They are forgotten when the decoder is reset. -/
  | forgotten (code : Codeword)
  deriving DecidableEq

/-- The bits that an event is about, where symbols have the codewords of this codebook. -/
def Event.bits (book : Codebook) : Event → List Bool
  | symbol s => book.word s.toNat
  | invalid code => code.bits
  | forgotten code => code.bits

/-- The event that a step is, unless more bits are needed. -/
def Step.event? : Step → Option Event
  | .incomplete => none
  | .symbol s => some (.symbol s)
  | .invalid code => some (.invalid code)

/-- Gives the decoder a bit or resets it. -/
def act (decoder : Decoder) : Act → Option Event × Decoder
  | .push bit => ((decoder.push bit).1.event?, (decoder.push bit).2)
  | .reset => (decoder.pending?.map .forgotten, decoder.reset)

/-- Performs acts one after the other, and returns the events that they bring about. -/
def run (decoder : Decoder) : List Act → List Event × Decoder
  | [] => ([], decoder)
  | act :: acts =>
    let (event?, decoder) := decoder.act act
    let (events, decoder) := decoder.run acts
    (event?.toList ++ events, decoder)

/-- What an event says is so: a symbol has a codeword, and bits that are given up are as many as
the longest codewords have. -/
def Event.Holds (table : Table) (book : Codebook) : Event → Prop
  | symbol s => ∃ code, book.code? s.toNat = some code ∧ table.decode code = some s
  | invalid code => code.length = table.longest
  | forgotten code => 0 < code.length

/-- What holds of a decoder between two acts: the bits that it has kept are fewer than the longest
codewords have, their number has no further bits, and no codeword is at the front of them.  So
the shift that makes room for the next bit loses none, and the length stays within the word. -/
structure Waits (decoder : Decoder) : Prop where
  length_lt : decoder.begun.length < decoder.table.longest
  value_lt : decoder.begun.value.toNat < 2 ^ decoder.begun.length.toNat
  decode_eq_none : ∀ code : Codeword, code.bits <+: decoder.begun.bits →
    decoder.table.decode code = none
  toNat_shiftLeft : (decoder.begun.value <<< 1).toNat = 2 * decoder.begun.value.toNat
  length_extend_le : ∀ bit, (decoder.begun.extend bit).length.toNat ≤ 32

end Decoder

variable {limits : Limits} {lengths : List UInt8} {table : Table} {book : Codebook}
  {kept : List Bool} {bit : Bool}

/-! ### Bits that are kept -/

lemma Spells.word_eq (hbook : Codebook.ofLengths limits lengths = .ok book) {bits : List Bool}
    {s : Nat} (h : Spells lengths bits s) : book.word s = bits := by
  obtain ⟨code, hcode, rfl⟩ := h
  rw [Codebook.word, Codebook.codeword_eq_of_code? ((Codebook.code?_eq_some_iff hbook).2 hcode)]

lemma unspelled_nil (lengths : List UInt8) : Unspelled lengths [] := by
  intro front s hpre hs
  exact hs.ne_nil (List.prefix_nil.1 hpre)

/-- The codewords at the front of more bits are those before and the bits as a whole. -/
lemma Unspelled.concat (h : Unspelled lengths kept)
    (hnone : ∀ s, ¬ Spells lengths (kept ++ [bit]) s) :
    Unspelled lengths (kept ++ [bit]) := by
  intro front s hpre hs
  rcases List.prefix_concat_iff.1 hpre with rfl | hpre
  · exact hnone s hs
  · exact h front s hpre hs

/-- Every symbol with a codeword fits into the words that symbols are kept in. -/
lemma Table.Decodes.not_spells (h : table.Decodes lengths) {bits : List Bool}
    (hnone : ∀ symbol : UInt16, ¬ Spells lengths bits symbol.toNat) (s : Nat) :
    ¬ Spells lengths bits s := by
  rintro ⟨code, hcode, hbits⟩
  have hs := hcode.toNat_toUInt16 h.realizable
  exact hnone s.toUInt16 ⟨code, hs.symm ▸ hcode, hbits⟩

namespace Decoder

/-- Bits that a decoder may have kept. -/
structure Begun (table : Table) (lengths : List UInt8) (kept : List Bool) : Prop where
  length_lt : kept.length < table.longest.toNat
  unspelled : Unspelled lengths kept

lemma begun_nil (h : table.Decodes lengths) : Begun table lengths [] :=
  ⟨h.longest_pos, unspelled_nil lengths⟩

namespace Begun

lemma length_le (hkept : Begun table lengths kept) (h : table.Decodes lengths) :
    kept.length ≤ 32 :=
  hkept.length_lt.le.trans h.longest_le

/-- The bits kept are the bits pending. -/
lemma bits_pending? (hkept : Begun table lengths kept) (h : table.Decodes lengths) :
    (after table kept).pending?.elim [] Codeword.bits = kept := by
  rw [pending?_after (hkept.length_le h)]
  split
  · rename_i hnil
    rw [hnil, Option.elim_none]
  · rw [Option.elim_some, Codeword.bits_ofBits (hkept.length_le h)]

theorem waits (hkept : Begun table lengths kept) (h : table.Decodes lengths) :
    (after table kept).Waits := by
  have hle := hkept.length_le h
  have hlongest := h.longest_le
  have hlt := hkept.length_lt
  have hlength : (after table kept).begun.length.toNat = kept.length :=
    Codeword.toNat_length_ofBits hle
  have hvalue : (after table kept).begun.value.toNat < 2 ^ (after table kept).begun.length.toNat :=
    (Codeword.fits_ofBits hle).value_lt
  refine ⟨?_, hvalue, fun code hpre => ?_, ?_, fun bit => ?_⟩
  · rw [UInt8.lt_iff_toNat_lt, hlength]
    exact hlt
  · refine Option.eq_none_iff_forall_ne_some.2 fun symbol hsymbol => ?_
    have hbits : (after table kept).begun.bits = kept := Codeword.bits_ofBits hle
    rw [hbits] at hpre
    exact hkept.unspelled _ _ hpre (h.spells_of_decode hsymbol)
  -- fewer bits than the longest codewords have leave the highest bit of the word free
  · have hpow : 2 ^ (after table kept).begun.length.toNat ≤ 2 ^ 31 :=
      Nat.pow_le_pow_right Nat.two_pos (by omega)
    rw [UInt32.toNat_shiftLeft, UInt32.toNat_one, Nat.one_mod, Nat.shiftLeft_eq, Nat.pow_one]
    omega
  · rw [Codeword.length_extend (by omega), hlength]
    omega

end Begun

/-! ### One act -/

/-- What an act adds to the bits kept, and takes from them. -/
theorem act_after (h : table.Decodes lengths)
    (hbook : Codebook.ofLengths limits lengths = .ok book) (hkept : Begun table lengths kept)
    (act : Act) :
    ∃ event? kept', (after table kept).act act = (event?, after table kept') ∧
      Begun table lengths kept' ∧
      kept ++ act.bits = event?.toList.flatMap (Event.bits book) ++ kept' ∧
      ∀ event ∈ event?, event.Holds table book := by
  cases act with
  | push bit =>
    rcases push_after_cases h hkept.length_lt bit with
      ⟨symbol, hs, hpush⟩ | ⟨hnone, hlt, hpush⟩ | ⟨hnone, heq, hpush⟩
    -- the bit ends a codeword
    · refine ⟨some (.symbol symbol), [], ?_, begun_nil h, ?_, ?_⟩
      · rw [Decoder.act, hpush]
        rfl
      · simp [Act.bits, Event.bits, hs.word_eq hbook]
      · rintro _ ⟨⟩
        obtain ⟨code, hcode, -⟩ := hs
        exact ⟨code, (Codebook.code?_eq_some_iff hbook).2 hcode, h.decode_eq_some_iff.2 hcode⟩
    -- the bit is kept with the others
    · refine ⟨none, kept ++ [bit], ?_, ⟨?_, hkept.unspelled.concat (h.not_spells hnone)⟩, ?_, ?_⟩
      · rw [Decoder.act, hpush]
        rfl
      · rw [List.length_append, List.length_singleton]
        exact hlt
      · rfl
      · rintro _ ⟨⟩
    -- the bits are given up
    · have hlength : (kept ++ [bit]).length = table.longest.toNat := by
        rw [List.length_append, List.length_singleton, heq]
      have hle := hlength.trans_le h.longest_le
      refine ⟨some (.invalid (.ofBits (kept ++ [bit]))), [], ?_, begun_nil h, ?_, ?_⟩
      · rw [Decoder.act, hpush]
        rfl
      · simp [Act.bits, Event.bits, Codeword.bits_ofBits hle]
      · rintro _ ⟨⟩
        exact h.length_ofBits_eq_longest hlength
  | reset =>
    refine ⟨(after table kept).pending?.map .forgotten, [], rfl, begun_nil h, ?_, ?_⟩
    · have hbits := hkept.bits_pending? h
      cases hpending : (after table kept).pending? with
      | none =>
        rw [hpending, Option.elim_none] at hbits
        simp [Act.bits, ← hbits]
      | some code =>
        rw [hpending, Option.elim_some] at hbits
        simp [Act.bits, Event.bits, hbits]
    · intro event hevent
      obtain ⟨code, hcode, rfl⟩ := Option.map_eq_some_iff.1 hevent
      rw [pending?, Option.ite_none_right_eq_some] at hcode
      obtain ⟨hpos, ⟨⟩⟩ := hcode
      exact hpos

/-! ### Whole runs -/

/-- Along a run, the bits given are those of the events and the ones kept at the end. -/
theorem run_after (h : table.Decodes lengths)
    (hbook : Codebook.ofLengths limits lengths = .ok book) (hkept : Begun table lengths kept)
    (acts : List Act) :
    ∃ events kept', (after table kept).run acts = (events, after table kept') ∧
      Begun table lengths kept' ∧
      kept ++ acts.flatMap Act.bits = events.flatMap (Event.bits book) ++ kept' ∧
      ∀ event ∈ events, event.Holds table book := by
  induction acts generalizing kept with
  | nil => exact ⟨[], kept, rfl, hkept, by simp, by simp⟩
  | cons act acts ih =>
    obtain ⟨event?, mid, hact, hmid, hbits, hholds⟩ := act_after h hbook hkept act
    obtain ⟨events, kept', hrun, hkept', hmore, hall⟩ := ih hmid
    refine ⟨event?.toList ++ events, kept', ?_, hkept', ?_, ?_⟩
    · rw [run, hact]
      dsimp only
      rw [hrun]
    · rw [List.flatMap_cons, ← List.append_assoc, hbits, List.append_assoc, hmore]
      simp
    · intro event hevent
      rcases List.mem_append.1 hevent with hevent | hevent
      · exact hholds event (Option.mem_toList.1 hevent)
      · exact hall event hevent

/-- **No bit is lost.**  Whatever bits a new decoder is given, and whenever it is reset, it waits
within a codeword for the next bit.  The bits that it has been given are, in order, the codewords of
the symbols that it has found, the bits that it has given up, as many each time as the longest
codewords have, the bits that it has forgotten when it was reset, and those that are pending. -/
theorem no_bit_is_lost (htable : Table.ofLengths limits lengths = .ok table)
    (hbook : Codebook.ofLengths limits lengths = .ok book) (acts : List Act) :
    ∃ events decoder, (new table).run acts = (events, decoder) ∧
      decoder.table = table ∧ decoder.Waits ∧
      acts.flatMap Act.bits =
        events.flatMap (Event.bits book) ++ decoder.pending?.elim [] Codeword.bits ∧
      (∀ s, .symbol s ∈ events →
        ∃ code, book.code? s.toNat = some code ∧ table.decode code = some s) ∧
      ∀ code, .invalid code ∈ events → code.length = table.longest := by
  have h := Table.decodes_of_ofLengths htable
  obtain ⟨events, kept, hrun, hkept, hbits, hholds⟩ := run_after h hbook (begun_nil h) acts
  refine ⟨events, after table kept, hrun, rfl, hkept.waits h, ?_, fun s hs => hholds _ hs,
    fun code hcode => hholds _ hcode⟩
  rw [hkept.bits_pending? h]
  exact hbits

/-- In the code of `0` and `10`, a decoder is reset after one bit; of the bits that follow, `11` are
given up, `0` is the codeword of the first symbol, and `1` is pending. -/
theorem no_bit_of_five_is_lost : ∃ table book decoder,
    Table.ofLengths .deflate [1, 2] = .ok table ∧ Codebook.ofLengths .deflate [1, 2] = .ok book ∧
    (new table).run [.push true, .reset, .push true, .push true, .push false, .push true] =
      ([.forgotten ⟨1, 1⟩, .invalid ⟨3, 2⟩, .symbol 0], decoder) ∧
    decoder.Waits ∧ decoder.pending? = some ⟨1, 1⟩ ∧
    [true, true, true, false, true] =
      [.forgotten ⟨1, 1⟩, .invalid ⟨3, 2⟩, .symbol 0].flatMap (Event.bits book) ++ [true] := by
  have htable : Table.ofLengths .deflate [1, 2] =
      .ok ⟨2, #[⟨0, 1, 0⟩, ⟨2, 1, 1⟩], #[0, 1], false⟩ := by decide +kernel
  have hbook : Codebook.ofLengths .deflate [1, 2] = .ok ⟨#[some ⟨0, 1⟩, some ⟨2, 2⟩]⟩ := by
    decide +kernel
  have hsteps : (new ⟨2, #[⟨0, 1, 0⟩, ⟨2, 1, 1⟩], #[0, 1], false⟩).run
      [.push true, .reset, .push true, .push true, .push false, .push true] =
        ([.forgotten ⟨1, 1⟩, .invalid ⟨3, 2⟩, .symbol 0], ⟨_, ⟨1, 1⟩⟩) := rfl
  obtain ⟨events, decoder, hrun, -, hwaits, hbits, -⟩ := no_bit_is_lost htable hbook
    [.push true, .reset, .push true, .push true, .push false, .push true]
  rw [hsteps, Prod.mk.injEq] at hrun
  obtain ⟨rfl, rfl⟩ := hrun
  exact ⟨_, _, _, htable, hbook, hsteps, hwaits, rfl, hbits⟩

end Decoder

end PrefixCode
