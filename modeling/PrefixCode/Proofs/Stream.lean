/-
# Reading and pushing

A reader is called as often as there are bits, past those that it misses; a decoder is given
the same bits one by one.  Both find the same: during one call of the reader, the decoder says
nothing before the last bit that the call takes, and then what the call answers
(`pushAll_of_readFrom`).  What it keeps at the end are the bits of a call that has run out of
them.
-/
import PrefixCode.Proofs.Reader

namespace PrefixCode

open PrefixCode.Lengths Decoder

/-! ### Calls of a reader -/

/-- What a reader answers where a decoder is done with some bits. -/
def Decoder.Step.answer? : Step → Option (Except DecodeError UInt16)
  | .incomplete => none
  | .symbol s => some (.ok s)
  | .invalid code => some (.error (.noSymbol code))

/-- A call of a reader: the bits that it takes off the front, and its answer, as the step of a
decoder. -/
structure Call where
  taken : List Bool
  step : Step

/-- What a decoder says to the bits that a call takes: it answers the last one of them. -/
def Call.steps (call : Call) : List Step :=
  List.replicate (call.taken.length - 1) .incomplete ++ [call.step]

namespace Table

/-- A reader is called again and again until no bits are left, or until it has run out of
bits; in the second case `left?` are those that the last call took. -/
inductive ReadsThrough (table : Table) : List Bool → List Call → Option (List Bool) → Prop
  | done : ReadsThrough table [] [] none
  | endOfInput {bits taken rest : List Bool} (hne : bits ≠ []) (hbits : bits = taken ++ rest)
      (hread : table.read bits = (.error .endOfInput, rest)) :
      ReadsThrough table bits [] (some taken)
  | next {bits taken rest : List Bool} {answer : Except DecodeError UInt16} {step : Step}
      {calls : List Call} {left? : Option (List Bool)} (hne : bits ≠ [])
      (hbits : bits = taken ++ rest) (hread : table.read bits = (answer, rest))
      (hstep : step.answer? = some answer) (hrest : ReadsThrough table rest calls left?) :
      ReadsThrough table bits (⟨taken, step⟩ :: calls) left?

end Table

variable {limits : Limits} {lengths : List UInt8} {table : Table} {begun bits : List Bool}
  {calls : List Call} {left? : Option (List Bool)}

lemma Decoder.Step.ne_incomplete_of_answer? {step : Step} {answer : Except DecodeError UInt16}
    (h : step.answer? = some answer) : step ≠ .incomplete := by
  rintro rfl
  cases h

lemma Decoder.Step.eq_of_answer?_eq {step step' : Step} {answer : Except DecodeError UInt16}
    (h : step.answer? = some answer) (h' : step'.answer? = some answer) : step = step' := by
  cases step <;> cases step' <;> cases h <;> cases h' <;> rfl

lemma Decoder.Step.answer?_ne_endOfInput (step : Step) :
    step.answer? ≠ some (.error .endOfInput) := by
  cases step <;> simp [answer?]

lemma Call.steps_cons {bit : Bool} {taken : List Bool} (hne : taken ≠ []) (step : Step) :
    Call.steps ⟨bit :: taken, step⟩ = .incomplete :: Call.steps ⟨taken, step⟩ := by
  obtain ⟨next, taken, rfl⟩ := List.exists_cons_of_ne_nil hne
  simp [Call.steps, List.replicate_succ]

/-- Without the bits to which a decoder says nothing, each call is one step. -/
lemma filter_steps (h : ∀ call ∈ calls, call.step ≠ .incomplete) :
    (calls.flatMap Call.steps).filter (· ≠ .incomplete) = calls.map Call.step := by
  induction calls with
  | nil => rfl
  | cons call calls ih =>
    rw [List.forall_mem_cons] at h
    rw [List.flatMap_cons, List.filter_append, ih h.2, Call.steps]
    simp [h.1]

/-! ### One call -/

/-- **One call of a reader is a run of a decoder.**  Either the call takes bits to the last of
which a decoder answers the same, or it takes all bits and a decoder keeps them. -/
theorem pushAll_of_readFrom (h : table.Recognizes lengths) (begun bits : List Bool) {room : Nat}
    (hpos : 0 < room) (hroom : begun.length + room = table.longest.toNat) :
    (∃ taken rest step answer, taken ≠ [] ∧ bits = taken ++ rest ∧
      step.answer? = some answer ∧
      table.readFrom room (.ofBits begun) bits = (answer, rest) ∧
      (after table begun).pushAll taken = (Call.steps ⟨taken, step⟩, new table)) ∨
    (begun.length + bits.length < table.longest.toNat ∧
      table.readFrom room (.ofBits begun) bits = (.error .endOfInput, []) ∧
      (after table begun).pushAll bits =
        (List.replicate bits.length .incomplete, after table (begun ++ bits))) := by
  -- along the bits, with the room that is left
  induction bits generalizing begun room with
  | nil =>
    obtain ⟨room, rfl⟩ := Nat.exists_eq_succ_of_ne_zero hpos.ne'
    refine Or.inr ⟨by rw [List.length_nil]; omega, by rw [Table.readFrom], ?_⟩
    simp [pushAll]
  | cons bit bits ih =>
    obtain ⟨room, rfl⟩ := Nat.exists_eq_succ_of_ne_zero hpos.ne'
    have hlongest := h.longest_le
    have hbegun : begun.length < table.longest.toNat := by omega
    rcases push_after_cases h.toDecodes hbegun bit with
      ⟨symbol, hs, hpush⟩ | ⟨hnone, hlt, hpush⟩ | ⟨hnone, heq, hpush⟩
    -- the bit ends a codeword
    · refine Or.inl ⟨[bit], bits, .symbol symbol, .ok symbol, by simp, rfl, rfl, ?_, ?_⟩
      · exact Table.readFrom_of_spells h hs room bits
      · simp [pushAll, hpush, Call.steps]
    -- both go on with one more bit
    · have hmore : 0 < room := by omega
      rw [Table.readFrom_of_not_spells h hnone (by omega)]
      rcases ih (begun ++ [bit]) hmore (by simp; omega) with
        ⟨taken, rest, step, answer, hne, rfl, hstep, hread, hrun⟩ | ⟨hshort, hread, hrun⟩
      · refine Or.inl ⟨bit :: taken, rest, step, answer, by simp, rfl, hstep, hread, ?_⟩
        rw [pushAll, hpush, Call.steps_cons hne]
        simp only [hrun]
      · refine Or.inr ⟨by simp at hshort ⊢; omega, hread, ?_⟩
        rw [pushAll, hpush]
        simp only [hrun, List.append_assoc, List.singleton_append, List.length_cons,
          List.replicate_succ]
    -- the room is used up at the length at which a decoder gives up
    · obtain rfl : room = 0 := by omega
      rw [Table.readFrom_of_not_spells h hnone (by omega), Table.readFrom]
      refine Or.inl ⟨[bit], bits, .invalid _, _, by simp, rfl, rfl, rfl, ?_⟩
      simp [pushAll, hpush, Call.steps]

/-! ### All calls -/

namespace Table

/-- The same for a reader and a decoder that begin afresh. -/
lemma pushAll_of_read (h : table.Recognizes lengths) (bits : List Bool) :
    (∃ taken rest step answer, taken ≠ [] ∧ bits = taken ++ rest ∧
      step.answer? = some answer ∧ table.read bits = (answer, rest) ∧
      (new table).pushAll taken = (Call.steps ⟨taken, step⟩, new table)) ∨
    (bits.length < table.longest.toNat ∧ table.read bits = (.error .endOfInput, []) ∧
      (new table).pushAll bits =
        (List.replicate bits.length .incomplete, after table bits)) := by
  have hcases := pushAll_of_readFrom h [] bits h.longest_pos (by simp)
  simp only [List.length_nil, Nat.zero_add, List.nil_append] at hcases
  exact hcases

/-- A call that answers takes bits that a decoder answers alike. -/
lemma pushAll_of_read_answer (h : table.Recognizes lengths) {taken rest : List Bool} {step : Step}
    {answer : Except DecodeError UInt16} (hread : table.read (taken ++ rest) = (answer, rest))
    (hstep : step.answer? = some answer) :
    taken ≠ [] ∧ (new table).pushAll taken = (Call.steps ⟨taken, step⟩, new table) := by
  rcases pushAll_of_read h (taken ++ rest) with
    ⟨taken', rest', step', answer', hne, hbits, hstep', hread', hrun⟩ | ⟨-, hread', -⟩
  · rw [hread, Prod.mk.injEq] at hread'
    obtain ⟨rfl, rfl⟩ := hread'
    obtain rfl := List.append_cancel_right hbits
    obtain rfl := Step.eq_of_answer?_eq hstep hstep'
    exact ⟨hne, hrun⟩
  · rw [hread, Prod.mk.injEq] at hread'
    exact absurd (hread'.1 ▸ hstep) (Step.answer?_ne_endOfInput step)

/-- A call that runs out of bits takes all of them, and a decoder keeps them. -/
lemma pushAll_of_read_endOfInput (h : table.Recognizes lengths) {rest : List Bool}
    (hread : table.read bits = (.error .endOfInput, rest)) :
    rest = [] ∧ bits.length < table.longest.toNat ∧ (new table).pushAll bits =
      (List.replicate bits.length .incomplete, after table bits) := by
  rcases pushAll_of_read h bits with
    ⟨_, _, step, _, -, -, hstep, hread', -⟩ | ⟨hlt, hread', hrun⟩
  · rw [hread, Prod.mk.injEq] at hread'
    exact absurd (hread'.1 ▸ hstep) (Step.answer?_ne_endOfInput step)
  · rw [hread, Prod.mk.injEq] at hread'
    exact ⟨hread'.2, hlt, hrun⟩

/-- The calls of a reader come to an end, since each of them takes a bit. -/
theorem exists_readsThrough (h : table.Recognizes lengths) (bits : List Bool) :
    ∃ calls left?, table.ReadsThrough bits calls left? := by
  induction hn : bits.length using Nat.strong_induction_on generalizing bits with
  | _ n ih =>
    by_cases hne : bits = []
    · subst hne
      exact ⟨[], none, .done⟩
    rcases pushAll_of_read h bits with
      ⟨taken, rest, step, answer, htaken, rfl, hstep, hread, -⟩ | ⟨-, hread, -⟩
    · have hpos := List.length_pos_of_ne_nil htaken
      rw [List.length_append] at hn
      obtain ⟨calls, left?, hrest⟩ := ih rest.length (by omega) rest rfl
      exact ⟨_, _, .next hne rfl hread hstep hrest⟩
    · exact ⟨[], some bits, .endOfInput hne (by simp) hread⟩

namespace ReadsThrough

/-- The calls are determined by the bits. -/
theorem unique (h : table.ReadsThrough bits calls left?) {calls' : List Call}
    {left?' : Option (List Bool)} (h' : table.ReadsThrough bits calls' left?') :
    calls' = calls ∧ left?' = left? := by
  induction h generalizing calls' left?' with
  | done =>
    cases h' with
    | done => exact ⟨rfl, rfl⟩
    | endOfInput hne => exact absurd rfl hne
    | next hne => exact absurd rfl hne
  | endOfInput hne hbits hread =>
    cases h' with
    | done => exact absurd rfl hne
    | endOfInput hne' hbits' hread' =>
      rw [hread, Prod.mk.injEq] at hread'
      obtain ⟨-, rfl⟩ := hread'
      rw [List.append_cancel_right (hbits.symm.trans hbits')]
      exact ⟨rfl, rfl⟩
    | next hne' hbits' hread' hstep =>
      rw [hread, Prod.mk.injEq] at hread'
      obtain ⟨rfl, -⟩ := hread'
      exact absurd hstep (Step.answer?_ne_endOfInput _)
  | next hne hbits hread hstep hrest ih =>
    cases h' with
    | done => exact absurd rfl hne
    | endOfInput hne' hbits' hread' =>
      rw [hread, Prod.mk.injEq] at hread'
      obtain ⟨rfl, -⟩ := hread'
      exact absurd hstep (Step.answer?_ne_endOfInput _)
    | next hne' hbits' hread' hstep' hrest' =>
      rw [hread, Prod.mk.injEq] at hread'
      obtain ⟨rfl, rfl⟩ := hread'
      obtain ⟨rfl, rfl⟩ := ih hrest'
      rw [List.append_cancel_right (hbits.symm.trans hbits'), Step.eq_of_answer?_eq hstep hstep']
      exact ⟨rfl, rfl⟩

/-- The calls take all the bits. -/
lemma taken_append_left (h : table.Recognizes lengths)
    (hreads : table.ReadsThrough bits calls left?) :
    calls.flatMap Call.taken ++ left?.getD [] = bits := by
  induction hreads with
  | done => rfl
  | endOfInput hne hbits hread =>
    obtain ⟨rfl, -⟩ := pushAll_of_read_endOfInput h hread
    simp [hbits]
  | next hne hbits hread hstep hrest ih => simp [hbits, ih]

/-- Each call takes a bit at least, and answers it. -/
lemma taken_ne_nil_and_step_ne (h : table.Recognizes lengths)
    (hreads : table.ReadsThrough bits calls left?) :
    ∀ call ∈ calls, call.taken ≠ [] ∧ call.step ≠ .incomplete := by
  induction hreads with
  | done | endOfInput => simp
  | next hne hbits hread hstep hrest ih =>
    subst hbits
    rw [List.forall_mem_cons]
    obtain ⟨htaken, -⟩ := pushAll_of_read_answer h hread hstep
    exact ⟨⟨htaken, Step.ne_incomplete_of_answer? hstep⟩, ih⟩

/-- A decoder goes through the bits call by call, and keeps those of a call that runs out. -/
theorem pushAll_eq (h : table.Recognizes lengths)
    (hreads : table.ReadsThrough bits calls left?) :
    ((new table).pushAll bits).1 =
        calls.flatMap Call.steps ++ List.replicate (left?.getD []).length .incomplete ∧
      ((new table).pushAll bits).2.pending?.map Codeword.bits = left? := by
  induction hreads with
  | done => exact ⟨rfl, rfl⟩
  | endOfInput hne hbits hread =>
    obtain ⟨rfl, hlt, hrun⟩ := pushAll_of_read_endOfInput h hread
    rw [List.append_nil] at hbits
    subst hbits
    have hle := hlt.le.trans h.longest_le
    rw [hrun, pending?_after hle, if_neg hne, Option.map_some, Codeword.bits_ofBits hle]
    exact ⟨rfl, rfl⟩
  | next hne hbits hread hstep hrest ih =>
    subst hbits
    obtain ⟨-, hcall⟩ := pushAll_of_read_answer h hread hstep
    rw [pushAll_append, hcall]
    exact ⟨by simp [ih.1], ih.2⟩

end ReadsThrough

/-- **Pushing agrees with reading.**  The reader can be called until there are no more bits for
it, in one way only.  A decoder that is given the bits one by one finds the symbols and the
misses that the reader answers with, each at the last bit of the call that answers it; and at
the end it keeps bits only if the last call has run out of them, and then the bits of that
call. -/
theorem pushing_agrees_with_reading (h : ofLengths limits lengths = .ok table)
    (bits : List Bool) :
    ∃ calls left?, (∀ calls' left?', table.ReadsThrough bits calls' left?' ↔
        calls' = calls ∧ left?' = left?) ∧
      calls.flatMap Call.taken ++ left?.getD [] = bits ∧
      (∀ call ∈ calls, call.taken ≠ []) ∧
      ((new table).pushAll bits).1.filter (· ≠ .incomplete) = calls.map Call.step ∧
      ((new table).pushAll bits).1 =
        calls.flatMap Call.steps ++ List.replicate (left?.getD []).length .incomplete ∧
      ((new table).pushAll bits).2.pending?.map Codeword.bits = left? := by
  have hrec := recognizes_of_ofLengths h
  obtain ⟨calls, left?, hreads⟩ := exists_readsThrough hrec bits
  obtain ⟨hsteps, hpending⟩ := hreads.pushAll_eq hrec
  refine ⟨calls, left?, fun calls' left?' => ⟨hreads.unique, ?_⟩, hreads.taken_append_left hrec,
    fun call hcall => (hreads.taken_ne_nil_and_step_ne hrec call hcall).1, ?_, hsteps, hpending⟩
  · rintro ⟨rfl, rfl⟩
    exact hreads
  · rw [hsteps, List.filter_append, filter_steps fun call hcall =>
      (hreads.taken_ne_nil_and_step_ne hrec call hcall).2]
    simp

/-- In the code of `0` and `10`, the bits `110101` are a miss, both symbols, and the beginning
of a codeword. -/
theorem pushing_past_a_miss : ∃ table, Table.ofLengths .deflate [1, 2] = .ok table ∧
    table.ReadsThrough [true, true, false, true, false, true]
      [⟨[true, true], .invalid ⟨3, 2⟩⟩, ⟨[false], .symbol 0⟩, ⟨[true, false], .symbol 1⟩]
      (some [true]) ∧
    ((new table).pushAll [true, true, false, true, false, true]).1.filter (· ≠ .incomplete) =
      [.invalid ⟨3, 2⟩, .symbol 0, .symbol 1] ∧
    ((new table).pushAll [true, true, false, true, false, true]).2.pending?.map Codeword.bits =
      some [true] := by
  have htable : Table.ofLengths .deflate [1, 2] =
      .ok ⟨2, #[⟨0, 1, 0⟩, ⟨2, 1, 1⟩], #[0, 1], false⟩ := by decide +kernel
  have hreads : Table.ReadsThrough ⟨2, #[⟨0, 1, 0⟩, ⟨2, 1, 1⟩], #[0, 1], false⟩
      [true, true, false, true, false, true]
      [⟨[true, true], .invalid ⟨3, 2⟩⟩, ⟨[false], .symbol 0⟩, ⟨[true, false], .symbol 1⟩]
      (some [true]) := by
    refine .next (by simp) rfl (by decide +kernel) rfl ?_
    refine .next (by simp) rfl (by decide +kernel) rfl ?_
    refine .next (by simp) rfl (by decide +kernel) rfl ?_
    exact .endOfInput (by simp) (List.append_nil _).symm (by decide +kernel)
  obtain ⟨calls, left?, hunique, -, -, hsteps, -, hpending⟩ :=
    pushing_agrees_with_reading htable [true, true, false, true, false, true]
  obtain ⟨rfl, rfl⟩ := (hunique _ _).1 hreads
  exact ⟨_, htable, hreads, hsteps, hpending⟩

end Table

end PrefixCode
