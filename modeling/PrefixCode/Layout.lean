/-
# The layout of a canonical code

A canonical code is determined by its lengths alone.  The codewords of one length are
consecutive numbers; the first of them follows from the number of codewords of each shorter
length by `start`: take the first number past the codewords that are one bit shorter, and
append a zero bit.  So the lengths are first counted, then the starts are computed, and the
lengths describe a code exactly if no length runs past the numbers that it has bits for.

The starts are computed in 64 bits, which leaves room for a code that fills all the numbers
of 32 bits and for the one test beyond it.
-/
import PrefixCode.Error
import PrefixCode.Limits

namespace PrefixCode

/-- How many codewords there are of each length, and where those of each length start.
Both are indexed by the length; the entry for length zero is zero. -/
structure Layout where
  longest : UInt8
  counts : Array UInt32
  starts : Array UInt32
  complete : Bool
  deriving DecidableEq

namespace Layout

/-! ### Counting -/

/-- The greatest of the lengths, or zero. -/
def longestOf (lengths : List UInt8) : UInt8 :=
  lengths.foldl max 0

/-- Counts one more symbol with a codeword of the given length; a symbol of length zero has
no codeword and is not counted. -/
def countLength (counts : Array UInt32) (length : UInt8) : Array UInt32 :=
  if length = 0 then counts else counts.modify length.toNat (· + 1)

/-- How often each length up to `longest` occurs. -/
def tally (longest : UInt8) (lengths : List UInt8) : Array UInt32 :=
  lengths.foldl countLength (Array.replicate (longest.toNat + 1) 0)

theorem size_countLength (counts : Array UInt32) (length : UInt8) :
    (countLength counts length).size = counts.size := by
  unfold countLength
  split <;> simp

theorem size_tally (longest : UInt8) (lengths : List UInt8) :
    (tally longest lengths).size = longest.toNat + 1 := by
  suffices h : ∀ counts : Array UInt32, (lengths.foldl countLength counts).size = counts.size by
    rw [tally, h, Array.size_replicate]
  induction lengths with
  | nil => simp
  | cons length lengths ih => simp [ih, size_countLength]

theorem getD_countLength (counts : Array UInt32) {length l : UInt8} (h : l.toNat < counts.size) :
    (countLength counts length).getD l.toNat 0 =
      counts.getD l.toNat 0 + if length ≠ 0 ∧ length = l then 1 else 0 := by
  unfold countLength
  by_cases h0 : length = 0
  · simp [h0]
  · have hl : length.toNat = l.toNat ↔ length = l := UInt8.toNat_inj
    simp [h0, Array.getD, h, Array.getElem_modify, hl]
    split <;> simp

/-- Counting goes on from the counts that there are already. -/
theorem getD_foldl_countLength (lengths : List UInt8) {counts : Array UInt32} {l : UInt8}
    (h0 : l ≠ 0) (h : l.toNat < counts.size) :
    (lengths.foldl countLength counts).getD l.toNat 0 =
      counts.getD l.toNat 0 + UInt32.ofNat (lengths.count l) := by
  induction lengths generalizing counts with
  | nil => simp
  | cons length lengths ih =>
    rw [List.foldl_cons, ih (by rw [size_countLength]; exact h), getD_countLength _ h,
      List.count_cons]
    by_cases heq : length = l
    · subst heq
      simp only [h0, ne_eq, not_false_eq_true, and_self, if_true, beq_self_eq_true,
        UInt32.ofNat_add, show UInt32.ofNat 1 = 1 from rfl]
      ac_rfl
    · simp [heq]

/-- Each length other than zero is counted as often as it occurs. -/
theorem getD_tally {longest l : UInt8} (lengths : List UInt8) (h0 : l ≠ 0) (hl : l ≤ longest) :
    (tally longest lengths).getD l.toNat 0 = UInt32.ofNat (lengths.count l) := by
  have hle : l.toNat ≤ longest.toNat := hl
  rw [tally, getD_foldl_countLength lengths h0 (by simp; omega), Array.getD_eq_getD_getElem?,
    Array.getElem?_replicate, if_pos (by omega)]
  simp

/-! ### Starts -/

/-- How many codewords have this many bits. -/
def countAt (counts : Array UInt32) (length : Nat) : UInt64 :=
  (counts.getD length 0).toUInt64

/-- The first codeword of each length, as a number. -/
def start (counts : Array UInt32) : Nat → UInt64
  | 0 => 0
  | length + 1 => (start counts length + countAt counts length) <<< 1

/-- The number after the last codeword of this length. -/
def stop (counts : Array UInt32) (length : Nat) : UInt64 :=
  start counts length + countAt counts length

/-- How many bit strings there are of this length. -/
def capacity (length : Nat) : UInt64 :=
  1 <<< length.toUInt64

/-- The least length whose codewords run past the bit strings of that length, if any. -/
def overfull? (longest : UInt8) (counts : Array UInt32) : Option Nat :=
  (List.range' 1 longest.toNat).find? fun length => capacity length < stop counts length

/-! ### Construction -/

/-- The first length, with its symbol, that is greater than `max`. -/
def tooLong? (max : UInt8) (lengths : List UInt8) : Option (UInt8 × Nat) :=
  lengths.zipIdx.find? fun entry => max < entry.1

/-- Lays out a code with these counts, unless some length is overfull or the code is
incomplete where it must not be. -/
def ofCounts (requireComplete : Bool) (longest : UInt8) (counts : Array UInt32) :
    Except LengthsError Layout :=
  match overfull? longest counts with
  | some length => .error (.oversubscribed length.toUInt8)
  | none =>
    let total := capacity longest.toNat
    let used := stop counts longest.toNat
    if requireComplete && used != total then
      .error (.incomplete longest (total - used) total)
    else
      .ok {
        longest
        counts
        starts := (Array.range (longest.toNat + 1)).map fun length =>
          (start counts length).toUInt32
        complete := used == total }

/-- Lays out the code in which each symbol has a codeword of the length listed for it, and
the symbols of length zero have none. -/
def ofLengths (limits : Limits) (lengths : List UInt8) : Except LengthsError Layout :=
  if limits.maxLength = 0 ∨ supportedMaxLength < limits.maxLength then
    .error (.unsupportedMaximum limits.maxLength)
  else if maxSymbols < lengths.length then
    .error (.tooManySymbols lengths.length maxSymbols)
  else
    match tooLong? limits.maxLength lengths with
    | some (length, symbol) => .error (.lengthTooLong symbol length limits.maxLength)
    | none =>
      let longest := longestOf lengths
      if longest = 0 then .error .emptyAlphabet
      else ofCounts limits.requireComplete longest (tally longest lengths)

/-! ### Queries -/

/-- The number of codewords of a length. -/
def count (layout : Layout) (length : Nat) : UInt32 :=
  layout.counts.getD length 0

/-- The first codeword of a length, as a number. -/
def first (layout : Layout) (length : Nat) : UInt32 :=
  layout.starts.getD length 0

/-- The number of codewords that are shorter than a length. -/
def countBelow (layout : Layout) : Nat → Nat
  | 0 => 0
  | length + 1 => layout.countBelow length + (layout.count length).toNat

end Layout

end PrefixCode
