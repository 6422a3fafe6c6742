/-
# Decoding bit by bit

A decoder is given one bit at a time and answers after each bit whether a codeword is
complete.  Between two bits it keeps the bits of the codeword that it is in.
-/
import PrefixCode.Table

namespace PrefixCode

/-- A decoder: its table, and the bits read since the last codeword. -/
structure Decoder where
  table : Table
  begun : Codeword

namespace Decoder

/-- What one more bit brings about. -/
inductive Step
  /-- The bits read are not yet a codeword. -/
  | incomplete
  /-- The bits read are the codeword of this symbol. -/
  | symbol (symbol : UInt16)
  /-- The bits read are as long as the longest codewords but are none. -/
  | invalid (code : Codeword)
  deriving DecidableEq

/-- A decoder that has read nothing. -/
def new (table : Table) : Decoder := ⟨table, .empty⟩

/-- Forgets the bits read since the last codeword. -/
def reset (decoder : Decoder) : Decoder := new decoder.table

/-- The bits read since the last codeword, if there are any. -/
def pending? (decoder : Decoder) : Option Codeword :=
  if 0 < decoder.begun.length then some decoder.begun else none

/-- Reads one bit. -/
def push (decoder : Decoder) (bit : Bool) : Step × Decoder :=
  let code := decoder.begun.extend bit
  match decoder.table.decode code with
  | some symbol => (.symbol symbol, decoder.reset)
  | none =>
    if decoder.table.longest ≤ code.length then (.invalid code, decoder.reset)
    else (.incomplete, { decoder with begun := code })

/-- A decoder keeps its table. -/
theorem table_push (decoder : Decoder) (bit : Bool) :
    (decoder.push bit).2.table = decoder.table := by
  unfold push
  dsimp only
  split
  · rfl
  · split <;> rfl

theorem pending?_new (table : Table) : (new table).pending? = none := rfl

/-- Reads bits one after the other, and returns what each of them brings about. -/
def pushAll (decoder : Decoder) : List Bool → List Step × Decoder
  | [] => ([], decoder)
  | bit :: bits =>
    let (step, decoder) := decoder.push bit
    let (steps, decoder) := decoder.pushAll bits
    (step :: steps, decoder)

theorem pushAll_append (decoder : Decoder) (bits more : List Bool) :
    decoder.pushAll (bits ++ more) =
      ((decoder.pushAll bits).1 ++ ((decoder.pushAll bits).2.pushAll more).1,
        ((decoder.pushAll bits).2.pushAll more).2) := by
  induction bits generalizing decoder with
  | nil => rfl
  | cons bit bits ih => simp [pushAll, ih]

theorem length_pushAll (decoder : Decoder) (bits : List Bool) :
    (decoder.pushAll bits).1.length = bits.length := by
  induction bits generalizing decoder with
  | nil => rfl
  | cons bit bits ih => simp [pushAll, ih]

/-- Reads bits up to their end, which has to be the end of a codeword, and appends their
symbols to those read before. -/
def finish (decoder : Decoder) (symbols : Array UInt16) :
    List Bool → Except DecodeError (Array UInt16)
  | [] => if decoder.pending?.isSome then .error .endOfInput else .ok symbols
  | bit :: bits =>
    match decoder.push bit with
    | (.incomplete, decoder) => decoder.finish symbols bits
    | (.symbol symbol, decoder) => decoder.finish (symbols.push symbol) bits
    | (.invalid code, _) => .error (.noSymbol code)

end Decoder

/-- Decodes a bit string into the symbols whose codewords it consists of. -/
def Table.decodeAll (table : Table) (bits : List Bool) :
    Except DecodeError (List UInt16) :=
  ((Decoder.new table).finish #[] bits).map Array.toList

end PrefixCode
