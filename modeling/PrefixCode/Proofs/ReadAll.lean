/-
# Reading a bit string to its end

A bit string is decoded by one decoder, which is given all the bits and is asked at the end
whether it has kept some.  The same comes of a reader that is called as long as there are bits,
and not again after its first error (`ReadsAll`).  What the decoder does during one call is known
from its steps: it goes on with the symbol that the call answers, or stops with the error
(`finish_of_answer`); and if the call runs out of bits, so does the decoder.
-/
import PrefixCode.Proofs.Stream

namespace PrefixCode

open PrefixCode.Lengths Decoder

/-! ### From steps to results -/

namespace Decoder

variable {decoder next : Decoder} {bits taken : List Bool} {step : Step}
  {answer : Except DecodeError UInt16}

/-- Bits to which a decoder says nothing only change what it keeps. -/
theorem finish_append_of_quiet
    (hrun : decoder.pushAll bits = (List.replicate bits.length .incomplete, next))
    (symbols : Array UInt16) (more : List Bool) :
    decoder.finish symbols (bits ++ more) = next.finish symbols more := by
  induction bits generalizing decoder with
  | nil =>
    obtain rfl : decoder = next := congrArg Prod.snd hrun
    rfl
  | cons bit bits ih =>
    rw [pushAll, List.length_cons, List.replicate_succ, Prod.mk.injEq, List.cons.injEq] at hrun
    obtain ⟨⟨hstep, hsteps⟩, hnext⟩ := hrun
    have hpush : decoder.push bit = (.incomplete, (decoder.push bit).2) := Prod.ext hstep rfl
    rw [List.cons_append, finish, hpush]
    exact ih (Prod.ext hsteps hnext)

/-- A decoder that answers the last of some bits goes on with the symbol that it has found, or
stops. -/
theorem finish_of_answer (hne : taken ≠ [])
    (hrun : decoder.pushAll taken = (Call.steps ⟨taken, step⟩, next))
    (hstep : step.answer? = some answer) (symbols : Array UInt16) (rest : List Bool) :
    decoder.finish symbols (taken ++ rest) =
      answer.bind fun symbol => next.finish (symbols.push symbol) rest := by
  -- all bits but the last are quiet
  obtain ⟨front, last, rfl⟩ := List.eq_nil_or_concat taken |>.resolve_left hne
  rw [List.concat_eq_append] at hrun ⊢
  have hlength : (decoder.pushAll front).1.length =
      (List.replicate front.length Step.incomplete).length := by
    rw [length_pushAll, List.length_replicate]
  rw [pushAll_append, Call.steps, List.length_append, List.length_singleton,
    Nat.add_sub_cancel, Prod.mk.injEq] at hrun
  obtain ⟨hsteps, hnext⟩ := hrun
  obtain ⟨hquiet, hlast⟩ := List.append_inj hsteps hlength
  have hpush : (decoder.pushAll front).2.push last = (step, next) :=
    Prod.ext (List.head_eq_of_cons_eq hlast) hnext
  rw [List.append_assoc, finish_append_of_quiet (Prod.ext hquiet rfl), List.singleton_append,
    finish, hpush]
  cases step with
  | incomplete => cases hstep
  | symbol s => cases hstep; rfl
  | invalid code => cases hstep; rfl

end Decoder

/-! ### One call after the other -/

namespace Table

/-- A reader is called as long as there are bits, and each symbol that it answers is appended to
those before; or its first error is the result. -/
inductive ReadsAll (table : Table) :
    List UInt16 → List Bool → Except DecodeError (List UInt16) → Prop
  | done {symbols : List UInt16} : ReadsAll table symbols [] (.ok symbols)
  | stop {symbols : List UInt16} {bits rest : List Bool} {error : DecodeError} (hne : bits ≠ [])
      (hread : table.read bits = (.error error, rest)) : ReadsAll table symbols bits (.error error)
  | next {symbols : List UInt16} {bits rest : List Bool} {symbol : UInt16}
      {result : Except DecodeError (List UInt16)} (hne : bits ≠ [])
      (hread : table.read bits = (.ok symbol, rest))
      (hrest : ReadsAll table (symbols ++ [symbol]) rest result) :
      ReadsAll table symbols bits result

variable {limits : Limits} {lengths : List UInt8} {table : Table} {bits rest : List Bool}
  {answer : Except DecodeError UInt16} {symbols : List UInt16}
  {result : Except DecodeError (List UInt16)}

/-- One call of a reader is what a decoder does first. -/
theorem finish_of_read (h : table.Recognizes lengths) (hne : bits ≠ [])
    (hread : table.read bits = (answer, rest)) (symbols : Array UInt16) :
    (new table).finish symbols bits =
      answer.bind fun symbol => (new table).finish (symbols.push symbol) rest := by
  rcases pushAll_of_read h bits with
    ⟨taken, rest', step, answer', htaken, rfl, hstep, hread', hrun⟩ | ⟨hlt, hread', hrun⟩
  · rw [hread, Prod.mk.injEq] at hread'
    obtain ⟨rfl, rfl⟩ := hread'
    exact finish_of_answer htaken hrun hstep symbols rest
  · rw [hread, Prod.mk.injEq] at hread'
    obtain ⟨rfl, -⟩ := hread'
    -- the decoder has kept all the bits
    have hend := finish_append_of_quiet hrun symbols []
    rw [List.append_nil] at hend
    rw [hend, finish, pending?_after (hlt.le.trans h.longest_le), if_neg hne]
    rfl

/-- The result of calling a reader is the one of a decoder. -/
theorem ReadsAll.finish_eq (h : table.Recognizes lengths)
    (hreads : table.ReadsAll symbols bits result) :
    ((new table).finish symbols.toArray bits).map Array.toList = result := by
  induction hreads with
  | done => rfl
  | stop hne hread =>
    rw [finish_of_read h hne hread]
    rfl
  | next hne hread hrest ih =>
    rw [finish_of_read h hne hread, ← ih, ← List.push_toArray]
    rfl

/-- The calls come to a result. -/
theorem exists_readsAll (h : table.Recognizes lengths) (symbols : List UInt16)
    (bits : List Bool) : ∃ result, table.ReadsAll symbols bits result := by
  obtain ⟨calls, left?, hreads⟩ := exists_readsThrough h bits
  induction hreads generalizing symbols with
  | done => exact ⟨_, .done⟩
  | endOfInput hne _ hread => exact ⟨_, .stop hne hread⟩
  | @next _ _ _ answer _ _ _ hne _ hread _ _ ih =>
    cases answer with
    | error error => exact ⟨_, .stop hne hread⟩
    | ok symbol =>
      obtain ⟨result, hrest⟩ := ih (symbols ++ [symbol])
      exact ⟨result, .next hne hread hrest⟩

/-- Decoding is calling a reader until the bits end. -/
theorem readsAll_iff_decodeAll_eq (h : table.Recognizes lengths) :
    table.ReadsAll [] bits result ↔ table.decodeAll bits = result := by
  constructor
  · intro hreads
    exact hreads.finish_eq h
  · rintro rfl
    obtain ⟨result, hreads⟩ := exists_readsAll h [] bits
    rwa [decodeAll, hreads.finish_eq h]

/-- **A bit string is decoded symbol by symbol.**  The result of decoding it is the one of calling
a reader while there are bits, beginning without symbols: the first error that the reader
answers, or the list of its symbols if the bits end where a codeword does. -/
theorem decoding_is_repeated_reading (h : ofLengths limits lengths = .ok table)
    (bits : List Bool) (result : Except DecodeError (List UInt16)) :
    table.ReadsAll [] bits result ↔ table.decodeAll bits = result :=
  readsAll_iff_decodeAll_eq (recognizes_of_ofLengths h)

/-- In the code of `0` and `10`, the bits `100` are read as two symbols; the bits `0110` are
missed after the first symbol, and `101` end within a codeword. -/
theorem repeated_reading_of_two_symbols : ∃ table, Table.ofLengths .deflate [1, 2] = .ok table ∧
    table.decodeAll [true, false, false] = .ok [1, 0] ∧
    table.decodeAll [false, true, true, false] = .error (.noSymbol ⟨3, 2⟩) ∧
    table.ReadsAll [] [true, false, true] (.error .endOfInput) := by
  have htable : Table.ofLengths .deflate [1, 2] =
      .ok ⟨2, #[⟨0, 1, 0⟩, ⟨2, 1, 1⟩], #[0, 1], false⟩ := by decide +kernel
  have hiff := decoding_is_repeated_reading htable
  refine ⟨_, htable, (hiff _ _).1 ?_, (hiff _ _).1 ?_, (hiff _ _).2 (by decide +kernel)⟩
  · have hfirst : Table.read ⟨2, #[⟨0, 1, 0⟩, ⟨2, 1, 1⟩], #[0, 1], false⟩ [true, false, false] =
        (.ok 1, [false]) := by decide +kernel
    have hsecond : Table.read ⟨2, #[⟨0, 1, 0⟩, ⟨2, 1, 1⟩], #[0, 1], false⟩ [false] =
        (.ok 0, []) := by decide +kernel
    exact .next (by simp) hfirst (.next (by simp) hsecond .done)
  · have hfirst : Table.read ⟨2, #[⟨0, 1, 0⟩, ⟨2, 1, 1⟩], #[0, 1], false⟩
        [false, true, true, false] = (.ok 0, [true, true, false]) := by decide +kernel
    have hsecond : Table.read ⟨2, #[⟨0, 1, 0⟩, ⟨2, 1, 1⟩], #[0, 1], false⟩ [true, true, false] =
        (.error (.noSymbol ⟨3, 2⟩), [false]) := by decide +kernel
    exact .next (by simp) hfirst (.stop (by simp) hsecond)

end Table

end PrefixCode
