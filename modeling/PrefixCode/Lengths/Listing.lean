/-
# Listings of code lengths

A listing writes down the code lengths of an alphabet, symbol by symbol, as a text.  Its
items are separated by commas and white space; an item is a length, or a length, an asterisk
and the number of symbols in a row that have this length.  The listing `2, 1, 3*2` stands
for the lengths 2, 1, 3 and 3.

The items are read from left to right, and the first one that is malformed, or with which
the alphabet grows too large, is reported.
-/
import PrefixCode.Error
import PrefixCode.Limits
import PrefixCode.Text.Characters

namespace PrefixCode.Listing

/-! ### Items -/

/-- Whether a character separates items. -/
def isSeparator (c : Char) : Bool :=
  c == ',' || Text.isBlank c

/-- Puts one more character in front of a text that has been split already: into the item
that the text starts with, and into the items after it. -/
def splitStep (c : Char) (text : List Char × List (List Char)) :
    List Char × List (List Char) :=
  if isSeparator c then ([], if text.1.isEmpty then text.2 else text.1 :: text.2)
  else (c :: text.1, text.2)

/-- The items of a text: its longest runs of characters that do not separate. -/
def items (text : List Char) : List (List Char) :=
  let (item, items) := text.foldr splitStep ([], [])
  if item.isEmpty then items else item :: items

theorem items_nil : items [] = [] := rfl

theorem items_cons_separator {c : Char} (h : isSeparator c = true) (text : List Char) :
    items (c :: text) = items text := by
  simp [items, splitStep, h]

/-- Characters that do not separate belong to the item that the text after them starts
with. -/
theorem foldr_splitStep_run {run : List Char} (hrun : ∀ c ∈ run, isSeparator c = false)
    (items : List (List Char)) : run.foldr splitStep ([], items) = (run, items) := by
  induction run with
  | nil => rfl
  | cons c run ih =>
    rw [List.foldr_cons, ih fun d hd => hrun d (List.mem_cons_of_mem c hd)]
    simp [splitStep, hrun c]

/-- A longest run of characters that do not separate is one item. -/
theorem items_run {run : List Char} {c : Char} (hne : run ≠ [])
    (hrun : ∀ d ∈ run, isSeparator d = false) (hc : isSeparator c = true)
    (text : List Char) : items (run ++ c :: text) = run :: items text := by
  have hstep : (c :: text).foldr splitStep ([], []) = ([], items text) := by
    rw [List.foldr_cons, splitStep, if_pos hc]
    rfl
  rw [items, List.foldr_append, hstep, foldr_splitStep_run hrun]
  simp [hne]

/-- A run of characters that do not separate, at the end of the text, is one item. -/
theorem items_last {run : List Char} (hne : run ≠ [])
    (hrun : ∀ c ∈ run, isSeparator c = false) : items run = [run] := by
  rw [items, foldr_splitStep_run hrun]
  simp [hne]

/-- A length, and how many symbols in a row have it. -/
structure Run where
  length : UInt8
  count : Nat
  deriving DecidableEq

/-- The greatest length that an item can state. -/
def maxLength : Nat := 255

/-- The greatest count that an item can state. -/
def maxCount : Nat := 18446744073709551615

/-- What an item says, if it is well formed.  The first asterisk ends the length. -/
def Run.ofItem? (item : List Char) : Option Run :=
  match item.span (· != '*') with
  | (length, []) =>
    (Text.naturalUpTo? maxLength length).map fun length => ⟨length.toUInt8, 1⟩
  | (length, _ :: count) =>
    (Text.naturalUpTo? maxCount count).bind fun count =>
      (Text.naturalUpTo? maxLength length).map fun length => ⟨length.toUInt8, count⟩

/-! ### Whole listings -/

/-- Appends the lengths of one more item to those read so far.  A count of symbols that is
too large is reported as it is, up to the greatest count that there can be. -/
def addItem (lengths : Array UInt8) (item : List Char) : Except LengthsError (Array UInt8) :=
  match Run.ofItem? item with
  | none => .error (.malformed (String.ofList item))
  | some run =>
    let count := min (lengths.size + run.count) maxCount
    if maxSymbols < count then .error (.tooManySymbols count maxSymbols)
    else .ok (lengths ++ Array.replicate run.count run.length)

/-- The lengths that a text lists. -/
def parse (text : String) : Except LengthsError (List UInt8) :=
  ((items text.toList).foldlM addItem #[]).map Array.toList

/-- The lengths listed by the text of which these are the bytes.  The bytes have to be a
text as a whole before any item is read. -/
def ofBytes (bytes : ByteArray) : Except ListingError (List UInt8) :=
  match String.fromUTF8? bytes with
  | none => .error .notUnicode
  | some text => (parse text).mapError .lengths

end PrefixCode.Listing
