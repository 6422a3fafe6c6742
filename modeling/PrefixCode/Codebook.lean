/-
# Codebooks

A codebook lists the codeword of each symbol, for the side that encodes.  The symbols are
taken in order, and each one gets the next number among those of its length.
-/
import PrefixCode.Layout

namespace PrefixCode

/-- The codeword of each symbol, if it has one. -/
structure Codebook where
  entries : Array (Option Codeword)
  deriving DecidableEq

namespace Codebook

/-- A codebook that is being written: the entries so far, and the next number to hand out
for each length. -/
structure Draft where
  entries : Array (Option Codeword)
  next : Array UInt32

/-- Writes the entry of the next symbol, whose codeword has the given length.  The number
after the last codeword of 32 bits wraps around; it is never handed out. -/
def Draft.add (draft : Draft) (length : UInt8) : Draft :=
  if length = 0 then { draft with entries := draft.entries.push none }
  else {
    entries := draft.entries.push (some ⟨draft.next.getD length.toNat 0, length⟩)
    next := draft.next.modify length.toNat (· + 1) }

/-- Hands out the codewords of a layout to symbols with these lengths. -/
def ofLayout (layout : Layout) (lengths : List UInt8) : Codebook :=
  ⟨(lengths.foldl Draft.add ⟨#[], layout.starts⟩).entries⟩

theorem size_add (draft : Draft) (length : UInt8) :
    (draft.add length).entries.size = draft.entries.size + 1 := by
  unfold Draft.add
  split <;> simp

/-- Every symbol has an entry. -/
theorem size_entries_ofLayout (layout : Layout) (lengths : List UInt8) :
    (ofLayout layout lengths).entries.size = lengths.length := by
  suffices h : ∀ draft : Draft,
      (lengths.foldl Draft.add draft).entries.size = draft.entries.size + lengths.length by
    simp [ofLayout, h]
  induction lengths with
  | nil => simp
  | cons length lengths ih =>
    intro draft
    rw [List.foldl_cons, ih, size_add, List.length_cons]
    omega

/-- The canonical codebook of these lengths. -/
def ofLengths (limits : Limits) (lengths : List UInt8) : Except LengthsError Codebook :=
  (Layout.ofLengths limits lengths).map fun layout => ofLayout layout lengths

/-- The codeword of a symbol, if it has one. -/
def code? (book : Codebook) (symbol : Nat) : Option Codeword :=
  book.entries[symbol]?.join

/-- The codeword of a symbol; the empty one if it has none. -/
def codeword (book : Codebook) (symbol : Nat) : Codeword :=
  (book.code? symbol).getD .empty

/-- The bits of the codeword of a symbol; none if it has no codeword. -/
def word (book : Codebook) (symbol : Nat) : List Bool :=
  (book.codeword symbol).bits

theorem codeword_eq_of_code? {book : Codebook} {symbol : Nat} {code : Codeword}
    (h : book.code? symbol = some code) : book.codeword symbol = code := by
  rw [codeword, h, Option.getD_some]

/-- The bits of a message: those of the codewords of its symbols, one after the other.
There are none if a symbol has no codeword. -/
def encode? (book : Codebook) (message : List UInt16) : Option (List Bool) :=
  (message.mapM fun symbol => book.code? symbol.toNat).map (·.flatMap Codeword.bits)

theorem encode?_nil (book : Codebook) : book.encode? [] = some [] := by
  simp [encode?]

theorem encode?_cons (book : Codebook) (symbol : UInt16) (message : List UInt16) :
    book.encode? (symbol :: message) =
      (book.code? symbol.toNat).bind fun code =>
        (book.encode? message).map (code.bits ++ ·) := by
  simp only [encode?, List.mapM_cons]
  cases book.code? symbol.toNat with
  | none => rfl
  | some code =>
    cases message.mapM fun symbol => book.code? symbol.toNat with
    | none => rfl
    | some codes => rfl

end Codebook

end PrefixCode
