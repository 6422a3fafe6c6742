/-
# Decoding tables

A table answers which symbol a codeword stands for.  The symbols are stored in one array,
ordered by the length of their codewords and then by the codewords themselves; for each
length a block tells which codewords there are and where their symbols begin.  To look a
codeword up, subtract the first codeword of its length.
-/
import PrefixCode.Layout

namespace PrefixCode

/-- The codewords of one length: `count` consecutive numbers from `first` on, whose symbols
are stored from `offset` on. -/
structure Block where
  first : UInt32
  count : UInt32
  offset : Nat
  deriving DecidableEq

/-- Where the symbols after those of this block begin. -/
def Block.stop (block : Block) : Nat :=
  block.offset + block.count.toNat

/-- A decoding table.  The block of the codewords of `length` bits is at `length - 1`. -/
structure Table where
  longest : UInt8
  blocks : Array Block
  symbols : Array UInt16
  complete : Bool
  deriving DecidableEq

namespace Table

/-! ### Construction -/

/-- The blocks of a layout, for each length from one on. -/
def blocksOf (layout : Layout) : Array Block :=
  (Array.range layout.longest.toNat).map fun i =>
    ⟨layout.first (i + 1), layout.count (i + 1), layout.countBelow (i + 1)⟩

theorem size_blocksOf (layout : Layout) : (blocksOf layout).size = layout.longest.toNat := by
  simp [blocksOf]

/-- A symbol array that is being filled: for each length where its next symbol goes, and
the array itself. -/
structure Filling where
  cursors : Array Nat
  slots : Array UInt16

/-- Stores a symbol whose codeword has the given length. -/
def Filling.place (filling : Filling) (length : UInt8) (symbol : Nat) : Filling :=
  if length = 0 then filling
  else {
    cursors := filling.cursors.modify (length.toNat - 1) (· + 1)
    slots := filling.slots.setIfInBounds (filling.cursors.getD (length.toNat - 1) 0)
      symbol.toUInt16 }

/-- The array before any symbol is stored: each cursor is at the beginning of its block. -/
def Filling.empty (layout : Layout) : Filling :=
  ⟨(blocksOf layout).map Block.offset,
    Array.replicate (layout.countBelow (layout.longest.toNat + 1)) 0⟩

/-- The symbols with codewords, sorted by length.  Those of one length stay in order, so
each one comes to stand where its codeword is looked up. -/
def sortSymbols (layout : Layout) (lengths : List UInt8) : Array UInt16 :=
  (lengths.zipIdx.foldl (fun filling entry => filling.place entry.1 entry.2)
    (Filling.empty layout)).slots

/-- The table of a layout for symbols with these lengths. -/
def ofLayout (layout : Layout) (lengths : List UInt8) : Table :=
  { longest := layout.longest
    blocks := blocksOf layout
    symbols := sortSymbols layout lengths
    complete := layout.complete }

/-- The table of the canonical code with these lengths. -/
def ofLengths (limits : Limits) (lengths : List UInt8) : Except LengthsError Table :=
  (Layout.ofLengths limits lengths).map fun layout => ofLayout layout lengths

/-! ### Looking up one codeword -/

/-- The block of the codewords of a length, if there are any. -/
def block? (table : Table) (length : UInt8) : Option Block :=
  if length = 0 then none
  else table.blocks[length.toNat - 1]?.filter fun block => 0 < block.count

/-- Where the symbol of a codeword is stored. -/
def slot? (table : Table) (code : Codeword) : Option Nat :=
  (table.block? code.length).bind fun block =>
    if block.first ≤ code.value ∧ code.value - block.first < block.count then
      some (block.offset + (code.value - block.first).toNat)
    else none

/-- A codeword is looked up by its distance from the first one of its length. -/
theorem slot?_eq_some_iff {table : Table} {code : Codeword} {slot : Nat} :
    table.slot? code = some slot ↔ ∃ block, table.block? code.length = some block ∧
      block.first ≤ code.value ∧ code.value - block.first < block.count ∧
      slot = block.offset + (code.value - block.first).toNat := by
  simp only [slot?, Option.bind_eq_some_iff, Option.ite_none_right_eq_some, Option.some.injEq]
  constructor
  · rintro ⟨block, hblock, ⟨hfirst, hcount⟩, rfl⟩
    exact ⟨block, hblock, hfirst, hcount, rfl⟩
  · rintro ⟨block, hblock, hfirst, hcount, rfl⟩
    exact ⟨block, hblock, ⟨hfirst, hcount⟩, rfl⟩

/-- Whether some symbol has this codeword. -/
def contains (table : Table) (code : Codeword) : Bool :=
  (table.slot? code).isSome

/-- The symbol with this codeword. -/
def decode (table : Table) (code : Codeword) : Option UInt16 :=
  (table.slot? code).bind fun slot => table.symbols[slot]?

/-- The symbol with this codeword, or a report that there is none. -/
def get (table : Table) (code : Codeword) : Except DecodeError UInt16 :=
  match table.decode code with
  | some symbol => .ok symbol
  | none => .error (.noSymbol code)

theorem get_eq_ok_iff {table : Table} {code : Codeword} {symbol : UInt16} :
    table.get code = .ok symbol ↔ table.decode code = some symbol := by
  unfold get
  split <;> simp_all

theorem get_eq_error_iff {table : Table} {code : Codeword} {error : DecodeError} :
    table.get code = .error error ↔ table.decode code = none ∧ error = .noSymbol code := by
  unfold get
  cases table.decode code <;> simp [eq_comm]

/-! ### The code as a whole -/

/-- The length of the shortest codewords. -/
def shortest (table : Table) : UInt8 :=
  match table.blocks.findIdx? fun block => 0 < block.count with
  | some i => (i + 1).toUInt8
  | none => table.longest

/-- The number of symbols that have a codeword. -/
def size (table : Table) : Nat :=
  table.symbols.size

/-- The least codeword of a length, as a number. -/
def minCode? (table : Table) (length : UInt8) : Option UInt32 :=
  (table.block? length).map Block.first

/-- The greatest codeword of a length, as a number. -/
def maxCode? (table : Table) (length : UInt8) : Option UInt32 :=
  (table.block? length).map fun block => block.first + (block.count - 1)

/-- The symbols whose codewords have this length, by ascending codeword. -/
def symbolsOfLength (table : Table) (length : UInt8) : Array UInt16 :=
  match table.block? length with
  | some block => table.symbols.extract block.offset block.stop
  | none => #[]

/-- The symbols of one block with their codewords. -/
def blockCodes (table : Table) (length : UInt8) (block : Block) :
    List (UInt16 × Codeword) :=
  (table.symbols.extract block.offset block.stop).toList.zipIdx.map fun entry =>
    (entry.1, ⟨block.first + entry.2.toUInt32, length⟩)

/-- All symbols that have a codeword, with their codewords, shorter codewords first and
those of one length in ascending order. -/
def codes (table : Table) : List (UInt16 × Codeword) :=
  table.blocks.toList.zipIdx.flatMap fun entry =>
    table.blockCodes (entry.2 + 1).toUInt8 entry.1

end Table

end PrefixCode
