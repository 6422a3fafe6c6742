/-
# Decoding one string after another

What a decoder answers to some bits does not depend on the bits after them: its answers to two
strings in a row are those to the first string and then those that it gives from the state in which
the first one has left it (`pushAll_append`).  If the first string ends where a codeword does, this
is the state of a new decoder.  For a decoder says that it has kept nothing only if it is as good as
new, because the length of what it keeps stays below that of the longest codewords and does not wrap
around (`Consistent`).  All this is so for any table, whether it is the one of a code or not.
-/
import Mathlib.Tactic.Common
import PrefixCode.Decoder

namespace PrefixCode

namespace Decoder

variable {decoder : Decoder} {steps more : List Step} {kept : Option Codeword}

/-! ### Decoders that are as good as new -/

/-- What a decoder has kept is shorter than the longest codewords, and if it has no length, there
is nothing to it. -/
structure Consistent (decoder : Decoder) : Prop where
  eq_empty : decoder.begun.length = 0 → decoder.begun = .empty
  length_lt : decoder.begun.length ≠ 0 → decoder.begun.length < decoder.table.longest

lemma consistent_new (table : Table) : (new table).Consistent :=
  ⟨fun _ => rfl, fun h => absurd rfl h⟩

/-- There is room for the length of one bit more. -/
lemma Consistent.length_extend_ne_zero (h : decoder.Consistent) (bit : Bool) :
    (decoder.begun.extend bit).length ≠ 0 := by
  have hlt : decoder.begun.length.toNat < 255 := by
    by_cases h0 : decoder.begun.length = 0
    · rw [h0]
      decide
    · have hlongest := UInt8.lt_iff_toNat_lt.1 (h.length_lt h0)
      have := decoder.table.longest.toNat_lt
      omega
  intro h0
  have hlength := Codeword.length_extend hlt bit
  rw [h0] at hlength
  exact absurd hlength (Nat.succ_ne_zero _).symm

theorem Consistent.push (h : decoder.Consistent) (bit : Bool) :
    (decoder.push bit).2.Consistent := by
  unfold Decoder.push
  dsimp only
  split
  · exact consistent_new _
  · split
    · exact consistent_new _
    · rename_i hlt
      exact ⟨fun h0 => absurd h0 (h.length_extend_ne_zero bit), fun _ => UInt8.not_le.1 hlt⟩

theorem Consistent.pushAll (h : decoder.Consistent) (bits : List Bool) :
    (decoder.pushAll bits).2.Consistent := by
  induction bits generalizing decoder with
  | nil => exact h
  | cons bit bits ih => exact ih (h.push bit)

lemma table_pushAll (decoder : Decoder) (bits : List Bool) :
    (decoder.pushAll bits).2.table = decoder.table := by
  induction bits generalizing decoder with
  | nil => rfl
  | cons bit bits ih => exact (ih _).trans (table_push decoder bit)

/-- A decoder that has kept nothing starts afresh. -/
lemma Consistent.eq_new (h : decoder.Consistent) (hnone : decoder.pending? = none) :
    decoder = new decoder.table := by
  have h0 : decoder.begun.length = 0 := by
    rw [pending?, ite_eq_right_iff] at hnone
    rw [← UInt8.toNat_inj]
    by_contra hne
    exact nomatch hnone (UInt8.lt_iff_toNat_lt.2 (Nat.pos_of_ne_zero hne))
  rw [new, ← h.eq_empty h0]

/-! ### From steps to results -/

/-- What a decoder answers along its steps: all symbols, or its first error. -/
def answers : List Step → Except DecodeError (List UInt16)
  | [] => .ok []
  | .incomplete :: steps => answers steps
  | .symbol symbol :: steps => (answers steps).map (symbol :: ·)
  | .invalid code :: _ => .error (.noSymbol code)

/-- The result of steps after which a decoder has kept these bits. -/
def result (steps : List Step) (kept : Option Codeword) : Except DecodeError (List UInt16) :=
  (answers steps).bind fun symbols =>
    if kept.isSome then .error .endOfInput else .ok symbols

/-- The answers to two strings in a row; after an error, no more are asked for. -/
lemma answers_append (steps more : List Step) :
    answers (steps ++ more) = (answers steps).bind fun symbols =>
      (answers more).map (symbols ++ ·) := by
  induction steps with
  | nil =>
    rw [List.nil_append]
    cases answers more <;> rfl
  | cons step steps ih =>
    cases step with
    | incomplete => exact ih
    | symbol symbol =>
      rw [List.cons_append, answers, ih, answers]
      cases answers steps with
      | error e => rfl
      | ok symbols => cases answers more <;> rfl
    | invalid code => rfl

lemma result_append (steps more : List Step) (kept : Option Codeword) :
    result (steps ++ more) kept = (answers steps).bind fun symbols =>
      (result more kept).map (symbols ++ ·) := by
  rw [result, answers_append, result]
  cases answers steps with
  | error e => rfl
  | ok symbols =>
    cases answers more with
    | error e => rfl
    | ok symbols' => cases kept <;> rfl

lemma result_eq_ok_iff {symbols : List UInt16} :
    result steps kept = .ok symbols ↔ answers steps = .ok symbols ∧ kept = none := by
  rw [result]
  cases answers steps <;> cases kept <;> simp [Except.bind]

lemma result_eq_noSymbol_iff {code : Codeword} :
    result steps kept = .error (.noSymbol code) ↔ answers steps = .error (.noSymbol code) := by
  rw [result]
  cases answers steps <;> cases kept <;> simp [Except.bind]

/-- A decoder that reads bits to their end adds the result of its steps to what it has found
before. -/
theorem finish_eq_result (decoder : Decoder) (symbols : Array UInt16) (bits : List Bool) :
    (decoder.finish symbols bits).map Array.toList =
      (result (decoder.pushAll bits).1 (decoder.pushAll bits).2.pending?).map
        (symbols.toList ++ ·) := by
  induction bits generalizing decoder symbols with
  | nil =>
    rw [finish, pushAll, result]
    cases decoder.pending? <;> simp [answers, Except.bind, Except.map]
  | cons bit bits ih =>
    rw [finish, pushAll]
    obtain ⟨step, next⟩ := decoder.push bit
    cases step with
    | incomplete => exact ih next symbols
    | symbol symbol =>
      have hcons :=
        result_append [.symbol symbol] (next.pushAll bits).1 (next.pushAll bits).2.pending?
      rw [List.singleton_append] at hcons
      dsimp only
      rw [ih, hcons]
      cases result (next.pushAll bits).1 (next.pushAll bits).2.pending? with
      | error e => rfl
      | ok found => simp [answers, Except.bind, Except.map]
    | invalid code => rfl

end Decoder

namespace Table

open Decoder

variable {table : Table} {a b : List Bool} {x : List UInt16}

lemma decodeAll_eq_result (table : Table) (bits : List Bool) :
    table.decodeAll bits =
      result ((new table).pushAll bits).1 ((new table).pushAll bits).2.pending? := by
  rw [decodeAll, finish_eq_result]
  cases result ((new table).pushAll bits).1 ((new table).pushAll bits).2.pending? <;> rfl

/-- A second string is decoded from where the first one has left the decoder. -/
lemma decodeAll_append (table : Table) (a b : List Bool) :
    table.decodeAll (a ++ b) = (answers ((new table).pushAll a).1).bind fun symbols =>
      (result (((new table).pushAll a).2.pushAll b).1
        (((new table).pushAll a).2.pushAll b).2.pending?).map (symbols ++ ·) := by
  rw [decodeAll_eq_result, Decoder.pushAll_append, result_append]

/-- What follows a message is decoded by itself. -/
theorem decodeAll_append_of_ok (h : table.decodeAll a = .ok x) (b : List Bool) :
    table.decodeAll (a ++ b) = (table.decodeAll b).map (x ++ ·) := by
  rw [decodeAll_eq_result, result_eq_ok_iff] at h
  obtain ⟨hanswers, hnone⟩ := h
  have hnew := ((consistent_new table).pushAll a).eq_new hnone
  rw [table_pushAll] at hnew
  rw [decodeAll_append, hanswers, hnew, decodeAll_eq_result]
  rfl

/-- Nothing makes up for bits that are no codeword. -/
theorem decodeAll_append_of_noSymbol {code : Codeword}
    (h : table.decodeAll a = .error (.noSymbol code)) (b : List Bool) :
    table.decodeAll (a ++ b) = .error (.noSymbol code) := by
  rw [decodeAll_eq_result, result_eq_noSymbol_iff] at h
  rw [decodeAll_append, h]
  rfl

/-- **Decoding respects concatenation.**  If bits decode to a message, then the bits after them are
decoded as if they stood alone: their symbols come after those of the message, or their error is
the result.  If bits are reported as not being a codeword, they are reported whatever follows.  So
the bits that a message begins with either decode to a message or end within a codeword. -/
theorem decoding_respects_concatenation (table : Table) (a b : List Bool) :
    (∀ x, table.decodeAll a = .ok x →
      (∀ y, table.decodeAll b = .ok y → table.decodeAll (a ++ b) = .ok (x ++ y)) ∧
      ∀ e, table.decodeAll b = .error e → table.decodeAll (a ++ b) = .error e) ∧
    (∀ code, table.decodeAll a = .error (.noSymbol code) →
      table.decodeAll (a ++ b) = .error (.noSymbol code)) ∧
    ∀ z, table.decodeAll (a ++ b) = .ok z →
      (∃ x, table.decodeAll a = .ok x) ∨ table.decodeAll a = .error .endOfInput := by
  refine ⟨fun x hx => ⟨fun y hy => ?_, fun e he => ?_⟩,
    fun code hcode => decodeAll_append_of_noSymbol hcode b, fun z hz => ?_⟩
  · rw [decodeAll_append_of_ok hx, hy]
    rfl
  · rw [decodeAll_append_of_ok hx, he]
    rfl
  · cases ha : table.decodeAll a with
    | ok x => exact Or.inl ⟨x, rfl⟩
    | error e =>
      cases e with
      | endOfInput => exact Or.inr rfl
      | noSymbol code =>
        rw [decodeAll_append_of_noSymbol ha b] at hz
        cases hz

/-- In the code of `0` and `10`, the bits `100` and `110` are a message and a string that is
missed: so the second one is reported, whether it comes after the first one or before it. -/
theorem concatenation_of_two_strings : ∃ table, Table.ofLengths .deflate [1, 2] = .ok table ∧
    table.decodeAll [true, false, false] = .ok [1, 0] ∧
    table.decodeAll [true, false, false, true, false, false] = .ok [1, 0, 1, 0] ∧
    table.decodeAll [true, false, false, true, true, false] = .error (.noSymbol ⟨3, 2⟩) ∧
    table.decodeAll [true, true, false, true, false, false] = .error (.noSymbol ⟨3, 2⟩) ∧
    (∃ x, table.decodeAll [true, false] = .ok x) := by
  have htable : Table.ofLengths .deflate [1, 2] =
      .ok ⟨2, #[⟨0, 1, 0⟩, ⟨2, 1, 1⟩], #[0, 1], false⟩ := by decide +kernel
  have hmessage : decodeAll ⟨2, #[⟨0, 1, 0⟩, ⟨2, 1, 1⟩], #[0, 1], false⟩ [true, false, false] =
      .ok [1, 0] := by decide +kernel
  have hmissed : decodeAll ⟨2, #[⟨0, 1, 0⟩, ⟨2, 1, 1⟩], #[0, 1], false⟩ [true, true, false] =
      .error (.noSymbol ⟨3, 2⟩) := by decide +kernel
  obtain ⟨hafter, -, -⟩ := decoding_respects_concatenation
    ⟨2, #[⟨0, 1, 0⟩, ⟨2, 1, 1⟩], #[0, 1], false⟩ [true, false, false] [true, true, false]
  obtain ⟨-, hbefore, -⟩ := decoding_respects_concatenation
    ⟨2, #[⟨0, 1, 0⟩, ⟨2, 1, 1⟩], #[0, 1], false⟩ [true, true, false] [true, false, false]
  obtain ⟨htwice, -, -⟩ := decoding_respects_concatenation
    ⟨2, #[⟨0, 1, 0⟩, ⟨2, 1, 1⟩], #[0, 1], false⟩ [true, false, false] [true, false, false]
  obtain ⟨-, -, hfront⟩ := decoding_respects_concatenation
    ⟨2, #[⟨0, 1, 0⟩, ⟨2, 1, 1⟩], #[0, 1], false⟩ [true, false] [false]
  refine ⟨_, htable, hmessage, (htwice _ hmessage).1 _ hmessage, (hafter _ hmessage).2 _ hmissed,
    hbefore _ hmissed, ?_⟩
  rcases hfront _ hmessage with hok | hend
  · exact hok
  · exact absurd hend (by decide +kernel)

end Table

end PrefixCode
