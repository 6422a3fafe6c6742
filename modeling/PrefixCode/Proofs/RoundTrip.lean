/-
# Encoding and decoding undo each other

A message is encoded by the codewords of its symbols, one after the other.  Decoding is
followed from the beginning of one codeword to the beginning of the next: the codeword of a
symbol is read up to its end, whatever follows (`finish_encode?`), and conversely, whatever a
decoder accepts falls apart into codewords, the first of which begins with the bits that the
decoder has kept (`encode?_of_finish`).
-/
import PrefixCode.Proofs.Decoder

namespace PrefixCode

open PrefixCode.Lengths

variable {limits : Limits} {lengths : List UInt8} {table : Table} {book : Codebook}

/-! ### Encoding symbol by symbol -/

namespace Codebook

variable {symbol : UInt16} {message : List UInt16} {bits more : List Bool}

/-- A message begins with the codeword of its first symbol. -/
lemma encode?_cons_eq_some_iff (h : Codebook.ofLengths limits lengths = .ok book) :
    book.encode? (symbol :: message) = some bits ↔
      ∃ begun more, Spells lengths begun symbol.toNat ∧ book.encode? message = some more ∧
        begun ++ more = bits := by
  rw [encode?_cons]
  simp only [Option.bind_eq_some_iff, Option.map_eq_some_iff, code?_eq_some_iff h]
  constructor
  · rintro ⟨code, hcode, more, hmore, rfl⟩
    exact ⟨code.bits, more, ⟨code, hcode, rfl⟩, hmore, rfl⟩
  · rintro ⟨_, more, ⟨code, hcode, rfl⟩, hmore, rfl⟩
    exact ⟨code, hcode, more, hmore, rfl⟩

/-- A message has as many bits as the codewords of its symbols. -/
lemma length_eq_of_encode?_eq_some (h : Codebook.ofLengths limits lengths = .ok book)
    (hbits : book.encode? message = some bits) :
    bits.length = (message.map fun symbol => bitsOf lengths symbol.toNat).sum := by
  induction message generalizing bits with
  | nil =>
    rw [encode?_nil, Option.some.injEq] at hbits
    simp [← hbits]
  | cons symbol message ih =>
    obtain ⟨begun, more, hbegun, hmore, rfl⟩ := (encode?_cons_eq_some_iff h).1 hbits
    rw [List.length_append, hbegun.length_eq, ih hmore, List.map_cons, List.sum_cons]

/-- There are bits for every message whose symbols have codewords. -/
theorem exists_encode?_eq_some_iff :
    (∃ bits, book.encode? message = some bits) ↔
      ∀ symbol ∈ message, ∃ code, book.code? symbol.toNat = some code := by
  induction message with
  | nil => simp [encode?_nil]
  | cons symbol message ih =>
    rw [List.forall_mem_cons, ← ih, encode?_cons]
    simp only [Option.bind_eq_some_iff, Option.map_eq_some_iff]
    constructor
    · rintro ⟨_, code, hcode, more, hmore, -⟩
      exact ⟨⟨code, hcode⟩, more, hmore⟩
    · rintro ⟨⟨code, hcode⟩, more, hmore⟩
      exact ⟨_, code, hcode, more, hmore, rfl⟩

/-- There are bits for every message whose symbols have lengths other than zero. -/
lemma exists_encode?_eq_some (h : Codebook.ofLengths limits lengths = .ok book)
    (hmessage : ∀ s ∈ message, ∃ l, lengths[s.toNat]? = some l ∧ l ≠ 0) :
    ∃ bits, book.encode? message = some bits := by
  refine exists_encode?_eq_some_iff.2 fun s hs => ?_
  obtain ⟨code, hcode, -⟩ := exists_code?_eq_some h (mem_active_iff_getElem?.2 (hmessage s hs))
  exact ⟨code, hcode⟩

/-- The strings of codewords are the bits of messages. -/
theorem exists_encode?_eq_some_iff_codes (h : Codebook.ofLengths limits lengths = .ok book)
    (hreal : Realizable lengths) :
    (∃ message, book.encode? message = some bits) ↔
      ∃ codes : List Codeword, (∀ code ∈ codes, ∃ s, book.code? s = some code) ∧
        codes.flatMap Codeword.bits = bits := by
  constructor
  · rintro ⟨message, hmessage⟩
    induction message generalizing bits with
    | nil =>
      rw [encode?_nil, Option.some.injEq] at hmessage
      exact ⟨[], by simp, hmessage⟩
    | cons symbol message ih =>
      obtain ⟨_, more, ⟨code, hcode, rfl⟩, hmore, rfl⟩ := (encode?_cons_eq_some_iff h).1 hmessage
      obtain ⟨codes, hcodes, rfl⟩ := ih hmore
      have hsymbol := (code?_eq_some_iff h).2 hcode
      exact ⟨code :: codes, List.forall_mem_cons.2 ⟨⟨_, hsymbol⟩, hcodes⟩, List.flatMap_cons⟩
  · rintro ⟨codes, hcodes, rfl⟩
    induction codes with
    | nil => exact ⟨[], encode?_nil book⟩
    | cons code codes ih =>
      obtain ⟨⟨s, hs⟩, hcodes⟩ := List.forall_mem_cons.1 hcodes
      obtain ⟨message, hmessage⟩ := ih hcodes
      -- a symbol of the alphabet fits into the words that messages consist of
      have hcode := (code?_eq_some_iff h).1 hs
      have hs16 := hcode.toNat_toUInt16 hreal
      refine ⟨s.toUInt16 :: message, (encode?_cons_eq_some_iff h).2 ?_⟩
      exact ⟨code.bits, _, ⟨code, hs16.symm ▸ hcode, rfl⟩, hmessage, rfl⟩

end Codebook

/-! ### From encoding to decoding -/

namespace Decoder

open PrefixCode.Codebook

/-- A decoder reads the bits of a message and appends its symbols. -/
theorem finish_encode? (h : table.Decodes lengths)
    (hbook : Codebook.ofLengths limits lengths = .ok book) {message : List UInt16}
    {bits : List Bool} (hbits : book.encode? message = some bits) (symbols : Array UInt16) :
    (new table).finish symbols bits = .ok (symbols ++ message.toArray) := by
  induction message generalizing bits symbols with
  | nil =>
    rw [encode?_nil, Option.some.injEq] at hbits
    subst hbits
    simp [finish, pending?_new]
  | cons symbol message ih =>
    obtain ⟨begun, more, hs, hmore, rfl⟩ := (encode?_cons_eq_some_iff hbook).1 hbits
    have hfinish := finish_codeword h [] hs hs.ne_nil symbols more
    rw [after_nil, ih hmore] at hfinish
    rw [hfinish]
    simp

/-! ### From decoding to encoding -/

/-- What a decoder accepts is the rest of the codeword that it is in, and then codewords. -/
theorem encode?_of_finish (h : table.Decodes lengths)
    (hbook : Codebook.ofLengths limits lengths = .ok book) (begun : List Bool)
    (hbegun : begun.length < table.longest.toNat) {bits : List Bool}
    {symbols result : Array UInt16}
    (hfinish : (after table begun).finish symbols bits = .ok result) :
    ∃ message, result = symbols ++ message.toArray ∧
      book.encode? message = some (begun ++ bits) := by
  -- along the bits; the decoder never keeps as many bits as the longest codewords have
  induction bits generalizing begun symbols with
  | nil =>
    rw [finish, pending?_after (hbegun.le.trans h.longest_le)] at hfinish
    by_cases hnil : begun = []
    · subst hnil
      cases hfinish
      exact ⟨[], by simp, encode?_nil book⟩
    · rw [if_neg hnil] at hfinish
      cases hfinish
  | cons bit bits ih =>
    rcases push_after_cases h hbegun bit with
      ⟨symbol, hs, hpush⟩ | ⟨-, hlt, hpush⟩ | ⟨-, -, hpush⟩
    -- the bit ends the first codeword
    · rw [finish, hpush] at hfinish
      obtain ⟨message, rfl, hmessage⟩ := ih [] h.longest_pos hfinish
      refine ⟨symbol :: message, by simp, (encode?_cons_eq_some_iff hbook).2 ?_⟩
      exact ⟨begun ++ [bit], bits, hs, hmessage, by simp⟩
    -- the bit belongs to the first codeword, and there is more of it
    · rw [finish, hpush] at hfinish
      obtain ⟨message, hresult, hmessage⟩ := ih _ (by simpa using hlt) hfinish
      exact ⟨message, hresult, by rw [hmessage, ← List.append_cons]⟩
    · rw [finish, hpush] at hfinish
      cases hfinish

end Decoder

/-! ### Whole messages -/

namespace Table

open PrefixCode.Codebook

/-- Lengths that have a table have a codebook. -/
lemma exists_codebook (h : Table.ofLengths limits lengths = .ok table) :
    ∃ book, Codebook.ofLengths limits lengths = .ok book := by
  obtain ⟨layout, hlayout, -⟩ := Except.map_eq_ok_iff.1 h
  exact ⟨_, Except.map_eq_ok_iff.2 ⟨layout, hlayout, rfl⟩⟩

/-- The bit strings that decode to a message are those that it is encoded by. -/
theorem decodeAll_eq_ok_iff (h : table.Decodes lengths)
    (hbook : Codebook.ofLengths limits lengths = .ok book) {bits : List Bool}
    {message : List UInt16} :
    table.decodeAll bits = .ok message ↔ book.encode? message = some bits := by
  rw [decodeAll]
  constructor
  · intro hdecode
    cases hfinish : (Decoder.new table).finish #[] bits with
    | error e =>
      rw [hfinish] at hdecode
      cases hdecode
    | ok result =>
      rw [hfinish] at hdecode
      cases hdecode
      obtain ⟨message, rfl, hmessage⟩ :=
        Decoder.encode?_of_finish h hbook [] h.longest_pos hfinish
      simpa using hmessage
  · intro hencode
    rw [Decoder.finish_encode? h hbook hencode]
    simp [Except.map]

/-- **Encoding and decoding undo each other.**  Every message of symbols with nonzero lengths
is encoded by some bits, and they decode to it; and bits that decode to a message are the ones
that it is encoded by.  So what is accepted are the strings of codewords, and no two messages
have the same bits. -/
theorem decoding_undoes_encoding (htable : Table.ofLengths limits lengths = .ok table)
    (hbook : Codebook.ofLengths limits lengths = .ok book) :
    (∀ message : List UInt16, (∀ s ∈ message, ∃ l, lengths[s.toNat]? = some l ∧ l ≠ 0) →
      ∃ bits, book.encode? message = some bits ∧ table.decodeAll bits = .ok message) ∧
    (∀ bits message, table.decodeAll bits = .ok message →
      (∀ s ∈ message, ∃ code, book.code? s.toNat = some code) ∧
      book.encode? message = some bits) ∧
    (∀ bits, (∃ message, table.decodeAll bits = .ok message) ↔
      ∃ codes : List Codeword, (∀ code ∈ codes, ∃ s, book.code? s = some code) ∧
        codes.flatMap Codeword.bits = bits) ∧
    ∀ bits message message', book.encode? message = some bits →
      book.encode? message' = some bits → message = message' := by
  have h := decodes_of_ofLengths htable
  have hiff {bits message} : table.decodeAll bits = .ok message ↔
      book.encode? message = some bits := decodeAll_eq_ok_iff h hbook
  refine ⟨fun message hmessage => ?_, fun bits message hdecode => ?_, fun bits => ?_,
    fun bits message message' hbits hbits' => ?_⟩
  · have hcode : ∀ s ∈ message, ∃ code, book.code? s.toNat = some code := by
      intro s hs
      simp only [code?_eq_some_iff hbook]
      exact exists_isCanonical h.realizable (mem_active_iff_getElem?.2 (hmessage s hs))
    obtain ⟨bits, hbits⟩ := exists_encode?_eq_some_iff.2 hcode
    exact ⟨bits, hbits, hiff.2 hbits⟩
  · have hbits := hiff.1 hdecode
    exact ⟨exists_encode?_eq_some_iff.1 ⟨bits, hbits⟩, hbits⟩
  · rw [← exists_encode?_eq_some_iff_codes hbook h.realizable]
    exact exists_congr fun message => hiff
  · have hok := hiff.2 hbits
    rw [hiff.2 hbits', Except.ok.injEq] at hok
    exact hok.symm

/-- The message of the symbols 3, 1 and 0 is the bit string `110010`. -/
theorem round_trip_of_three_symbols : ∃ table book,
    Table.ofLengths .deflate [2, 1, 0, 3, 3] = .ok table ∧
    Codebook.ofLengths .deflate [2, 1, 0, 3, 3] = .ok book ∧
    book.encode? [3, 1, 0] = some [true, true, false, false, true, false] ∧
    table.decodeAll [true, true, false, false, true, false] = .ok [3, 1, 0] := by
  have htable : Table.ofLengths .deflate [2, 1, 0, 3, 3] =
      .ok ⟨3, #[⟨0, 1, 0⟩, ⟨2, 1, 1⟩, ⟨6, 2, 2⟩], #[1, 0, 3, 4], true⟩ := by decide +kernel
  have hbook : Codebook.ofLengths .deflate [2, 1, 0, 3, 3] =
      .ok ⟨#[some ⟨2, 2⟩, some ⟨0, 1⟩, none, some ⟨6, 3⟩, some ⟨7, 3⟩]⟩ := by decide +kernel
  have hmessage : ∀ s ∈ ([3, 1, 0] : List UInt16),
      ∃ l, ([2, 1, 0, 3, 3] : List UInt8)[s.toNat]? = some l ∧ l ≠ 0 := by simp
  obtain ⟨bits, hbits, hdecode⟩ := (decoding_undoes_encoding htable hbook).1 [3, 1, 0] hmessage
  have heq : some bits = some [true, true, false, false, true, false] :=
    hbits.symm.trans (by decide +kernel)
  cases heq
  exact ⟨_, _, htable, hbook, hbits, hdecode⟩

end Table

end PrefixCode
