/-
# The grammar of listings

Which texts are listings, and what they list, is said here without reading them from left to right
with the lengths read so far at hand.  A text splits into its items, the longest runs of characters
between separators (`Splits`); an item says how many symbols in a row have which length (`Says`).
Three statements lead from the parser to this grammar: it finds the items (`splits_iff`), it
understands what each of them says (`ofItem?_eq_some_iff`), and it goes on from item to item as long
as there are not too many symbols (`foldlM_addItem_eq_ok_iff`).  A text that is no listing is
refused for the first item that is in the way, whatever comes after it
(`foldlM_addItem_eq_error_iff`).
-/
import Mathlib.Data.List.Forall2
import Mathlib.Data.List.TakeDrop
import Mathlib.Data.List.TakeWhile
import PrefixCode.Lengths.Listing
import PrefixCode.Proofs.Layout

namespace PrefixCode

/-! ### Numerals -/

namespace Text

/-- The number that a numeral stands for: one or more digits, with or without a plus sign in front
of them. -/
inductive Denotes : List Char → Nat → Prop
  | digits {cs : List Char} (hne : cs ≠ []) (hdigit : ∀ c ∈ cs, c.isDigit = true) :
      Denotes cs (Nat.ofDigitChars 10 cs 0)
  | plus {cs : List Char} (hne : cs ≠ []) (hdigit : ∀ c ∈ cs, c.isDigit = true) :
      Denotes ('+' :: cs) (Nat.ofDigitChars 10 cs 0)

theorem natural?_eq_some_iff {cs : List Char} {n : Nat} :
    natural? cs = some n ↔ Denotes cs n := by
  constructor
  · intro h
    unfold natural? at h
    split at h
    · obtain ⟨hne, hdigit, rfl⟩ := digits?_eq_some_iff.1 h
      exact .plus hne hdigit
    · obtain ⟨hne, hdigit, rfl⟩ := digits?_eq_some_iff.1 h
      exact .digits hne hdigit
  · rintro (⟨hne, hdigit⟩ | ⟨hne, hdigit⟩)
    · rw [natural?_eq_digits? hdigit]
      exact digits?_eq_some_iff.2 ⟨hne, hdigit, rfl⟩
    · exact digits?_eq_some_iff.2 ⟨hne, hdigit, rfl⟩

lemma naturalUpTo?_eq_some_iff {bound : Nat} {cs : List Char} {n : Nat} :
    naturalUpTo? bound cs = some n ↔ Denotes cs n ∧ n ≤ bound := by
  rw [naturalUpTo?, Option.filter_eq_some_iff, natural?_eq_some_iff, decide_eq_true_eq]

/-- There is no asterisk in a numeral. -/
lemma Denotes.star_not_mem {cs : List Char} {n : Nat} (h : Denotes cs n) : '*' ∉ cs := by
  have hstar : ¬ '*'.isDigit = true := by decide
  cases h with
  | digits _ hdigit => exact fun hmem => hstar (hdigit _ hmem)
  | plus _ hdigit =>
    intro hmem
    rcases List.mem_cons.1 hmem with heq | hmem
    · exact absurd heq (by decide)
    · exact hstar (hdigit _ hmem)

/-- A text splits at the first place where a character stands. -/
lemma span_append_of_not_mem {c : Char} {cs : List Char} (h : c ∉ cs) (ds : List Char) :
    (cs ++ c :: ds).span (· != c) = (cs, c :: ds) := by
  have hall : ∀ d ∈ cs, (d != c) = true := fun d hd => bne_iff_ne.2 fun heq => h (heq ▸ hd)
  rw [List.span_eq_takeWhile_dropWhile, List.takeWhile_append_of_pos hall,
    List.dropWhile_append_of_pos hall]
  simp

end Text

namespace Listing

open Text

/-! ### Items -/

/-- These are the items of a text, its longest runs of characters that do not separate: separators
are passed over, and a run goes on up to a separator or the end. -/
inductive Splits : List Char → List (List Char) → Prop
  | nil : Splits [] []
  | separator {c : Char} {text : List Char} {items : List (List Char)}
      (hc : isSeparator c = true) (h : Splits text items) : Splits (c :: text) items
  | run {run text : List Char} {items : List (List Char)} (hne : run ≠ [])
      (hrun : ∀ c ∈ run, isSeparator c = false) (hend : ∀ c ∈ text.head?, isSeparator c = true)
      (h : Splits text items) : Splits (run ++ text) (run :: items)

variable {text : List Char} {words : List (List Char)}

lemma Splits.items_eq (h : Splits text words) : items text = words := by
  induction h with
  | nil => rfl
  | separator hc _ ih => rw [items_cons_separator hc, ih]
  | @run run text words hne hrun hend _ ih =>
    cases text with
    | nil =>
      rw [items_nil] at ih
      rw [List.append_nil, items_last hne hrun, ih]
    | cons c text =>
      have hc : isSeparator c = true := hend c rfl
      rw [items_cons_separator hc] at ih
      rw [items_run hne hrun hc, ih]

/-- Every text splits into items. -/
lemma exists_splits (text : List Char) : ∃ words, Splits text words := by
  induction text with
  | nil => exact ⟨[], .nil⟩
  | cons c text ih =>
    obtain ⟨words, h⟩ := ih
    by_cases hc : isSeparator c = true
    · exact ⟨words, .separator hc h⟩
    rw [Bool.not_eq_true] at hc
    have hsingle : ∀ d ∈ [c], isSeparator d = false := by simpa using hc
    -- the character makes the first item longer, or is an item of its own in front of a separator
    cases h with
    | nil => exact ⟨_, .run (List.cons_ne_nil c []) hsingle nofun .nil⟩
    | separator hd h =>
      exact ⟨_, .run (List.cons_ne_nil c []) hsingle (by simpa using hd) (.separator hd h)⟩
    | @run run text words hne hrun hend h =>
      exact ⟨_, .run (List.cons_ne_nil c run) (List.forall_mem_cons.2 ⟨hc, hrun⟩) hend h⟩

/-- The parser splits a text into its items. -/
theorem splits_iff : Splits text words ↔ items text = words := by
  refine ⟨Splits.items_eq, ?_⟩
  rintro rfl
  obtain ⟨words, h⟩ := exists_splits text
  rw [h.items_eq]
  exact h

/-! ### What an item says -/

/-- What a well-formed item says: a length of one symbol, or a length and, after an asterisk, the
number of symbols that have it. -/
inductive Says : List Char → Run → Prop
  | length {cs : List Char} {n : Nat} (h : Denotes cs n) (hn : n ≤ 255) :
      Says cs ⟨n.toUInt8, 1⟩
  | repeated {cs ds : List Char} {n k : Nat} (h : Denotes cs n) (hn : n ≤ 255)
      (hcount : Denotes ds k) (hk : k ≤ 2 ^ 64 - 1) : Says (cs ++ '*' :: ds) ⟨n.toUInt8, k⟩

lemma ofItem?_of_star_not_mem {item : List Char} (h : '*' ∉ item) :
    Run.ofItem? item = (naturalUpTo? maxLength item).map fun length => ⟨length.toUInt8, 1⟩ := by
  have hall : ∀ c ∈ item, (c != '*') = true := fun c hc => bne_iff_ne.2 fun heq => h (heq ▸ hc)
  rw [Run.ofItem?, List.span_eq_takeWhile_dropWhile, List.takeWhile_eq_self_iff.2 hall,
    List.dropWhile_eq_nil_iff.2 hall]

lemma ofItem?_append_star {cs : List Char} (h : '*' ∉ cs) (ds : List Char) :
    Run.ofItem? (cs ++ '*' :: ds) = (naturalUpTo? maxCount ds).bind fun count =>
      (naturalUpTo? maxLength cs).map fun length => ⟨length.toUInt8, count⟩ := by
  rw [Run.ofItem?, span_append_of_not_mem h]

/-- The parser understands an item exactly as it is meant. -/
theorem ofItem?_eq_some_iff {item : List Char} {run : Run} :
    Run.ofItem? item = some run ↔ Says item run := by
  constructor
  · intro h
    by_cases hstar : '*' ∈ item
    · obtain ⟨cs, ds, rfl, hcs⟩ := List.eq_append_cons_of_mem hstar
      rw [ofItem?_append_star hcs, Option.bind_eq_some_iff] at h
      obtain ⟨k, hk, h⟩ := h
      obtain ⟨n, hn, rfl⟩ := Option.map_eq_some_iff.1 h
      obtain ⟨hcount, hk⟩ := naturalUpTo?_eq_some_iff.1 hk
      obtain ⟨hlength, hn⟩ := naturalUpTo?_eq_some_iff.1 hn
      exact .repeated hlength hn hcount hk
    · rw [ofItem?_of_star_not_mem hstar] at h
      obtain ⟨n, hn, rfl⟩ := Option.map_eq_some_iff.1 h
      obtain ⟨hlength, hn⟩ := naturalUpTo?_eq_some_iff.1 hn
      exact .length hlength hn
  · intro h
    cases h with
    | @length _ n h hn =>
      have hlength : naturalUpTo? maxLength item = some n := naturalUpTo?_eq_some_iff.2 ⟨h, hn⟩
      rw [ofItem?_of_star_not_mem h.star_not_mem, hlength, Option.map_some]
    | @repeated cs ds n k h hn hcount hk =>
      have hlength : naturalUpTo? maxLength cs = some n := naturalUpTo?_eq_some_iff.2 ⟨h, hn⟩
      have hcount : naturalUpTo? maxCount ds = some k := naturalUpTo?_eq_some_iff.2 ⟨hcount, hk⟩
      rw [ofItem?_append_star h.star_not_mem, hcount, hlength]
      rfl

lemma ofItem?_eq_none_iff {item : List Char} :
    Run.ofItem? item = none ↔ ∀ run, ¬ Says item run := by
  simp only [Option.eq_none_iff_forall_ne_some, ne_eq, ofItem?_eq_some_iff]

/-! ### One item after the other -/

/-- How many symbols the runs describe. -/
def total (runs : List Run) : Nat :=
  (runs.map Run.count).sum

/-- The lengths of the symbols that the runs describe. -/
def expand (runs : List Run) : List UInt8 :=
  runs.flatMap fun run => List.replicate run.count run.length

/-- What an item is refused for after so many symbols: it says nothing, or it describes too many
symbols more.  Their number is reported as far as it can be counted. -/
inductive Refuses (symbols : Nat) (item : List Char) : LengthsError → Prop
  | malformed (h : ∀ run, ¬ Says item run) :
      Refuses symbols item (.malformed (String.ofList item))
  | tooManySymbols {run : Run} (h : Says item run) (hlt : 65536 < symbols + run.count) :
      Refuses symbols item (.tooManySymbols (min (symbols + run.count) (2 ^ 64 - 1)) 65536)

variable {item : List Char} {lengths result : Array UInt8} {error : LengthsError}

/-- An item that is understood adds its symbols, or there are too many of them. -/
lemma addItem_of_understood {run : Run} (h : Says item run) (lengths : Array UInt8) :
    addItem lengths item =
      if 65536 < lengths.size + run.count then
        .error (.tooManySymbols (min (lengths.size + run.count) (2 ^ 64 - 1)) 65536)
      else .ok (lengths ++ Array.replicate run.count run.length) := by
  have hlt : maxSymbols < min (lengths.size + run.count) maxCount ↔
      65536 < lengths.size + run.count := by
    rw [Nat.lt_min, maxSymbols, maxCount]
    exact and_iff_left (by decide)
  rw [addItem, ofItem?_eq_some_iff.2 h]
  simp only [hlt]
  rfl

lemma addItem_eq_ok_iff :
    addItem lengths item = .ok result ↔ ∃ run, Says item run ∧
      lengths.size + run.count ≤ 65536 ∧
        result = lengths ++ Array.replicate run.count run.length := by
  constructor
  · intro h
    cases hrun : Run.ofItem? item with
    | none =>
      rw [addItem, hrun] at h
      cases h
    | some run =>
      replace hrun := ofItem?_eq_some_iff.1 hrun
      rw [addItem_of_understood hrun] at h
      split at h
      · cases h
      · rename_i hle
        cases h
        exact ⟨run, hrun, Nat.le_of_not_lt hle, rfl⟩
  · rintro ⟨run, hrun, hle, rfl⟩
    rw [addItem_of_understood hrun, if_neg (Nat.not_lt.2 hle)]

lemma addItem_eq_error_iff :
    addItem lengths item = .error error ↔ Refuses lengths.size item error := by
  constructor
  · intro h
    cases hrun : Run.ofItem? item with
    | none =>
      rw [addItem, hrun] at h
      cases h
      exact .malformed (ofItem?_eq_none_iff.1 hrun)
    | some run =>
      replace hrun := ofItem?_eq_some_iff.1 hrun
      rw [addItem_of_understood hrun] at h
      split at h
      · rename_i hlt
        cases h
        exact .tooManySymbols hrun hlt
      · cases h
  · rintro (h | ⟨hrun, hlt⟩)
    · rw [addItem, ofItem?_eq_none_iff.2 h]
    · rw [addItem_of_understood hrun, if_pos hlt]

@[simp] lemma total_nil : total [] = 0 := rfl

@[simp] lemma total_cons (run : Run) (runs : List Run) :
    total (run :: runs) = run.count + total runs := by
  simp [total]

@[simp] lemma expand_nil : expand [] = [] := rfl

@[simp] lemma expand_cons (run : Run) (runs : List Run) :
    expand (run :: runs) = List.replicate run.count run.length ++ expand runs := by
  simp [expand]

lemma length_expand (runs : List Run) : (expand runs).length = total runs := by
  induction runs with
  | nil => rfl
  | cons run runs ih => simp [ih]

/-- Reading one run and then the others adds the lengths of all of them. -/
lemma append_replicate_append_expand (lengths : Array UInt8) (run : Run) (runs : List Run) :
    lengths ++ Array.replicate run.count run.length ++ (expand runs).toArray =
      lengths ++ (expand (run :: runs)).toArray := by
  apply Array.toList_inj.1
  simp

/-- The parser goes on to the end of the items exactly if all of them are well formed and there are
not too many symbols in all. -/
theorem foldlM_addItem_eq_ok_iff (h : lengths.size ≤ 65536) :
    words.foldlM addItem lengths = .ok result ↔ ∃ runs, List.Forall₂ Says words runs ∧
      lengths.size + total runs ≤ 65536 ∧ result = lengths ++ (expand runs).toArray := by
  induction words generalizing lengths with
  | nil =>
    simp only [List.foldlM_nil, List.forall₂_nil_left_iff, exists_eq_left]
    simp [pure, Except.pure, h, eq_comm]
  | cons word words ih =>
    rw [Except.foldlM_cons_eq_ok_iff]
    constructor
    · rintro ⟨_, hword, hwords⟩
      obtain ⟨run, hrun, hle, rfl⟩ := addItem_eq_ok_iff.1 hword
      obtain ⟨runs, hruns, hle, rfl⟩ := (ih (by simpa using hle)).1 hwords
      refine ⟨run :: runs, .cons hrun hruns, ?_, append_replicate_append_expand lengths run runs⟩
      simpa [Nat.add_assoc] using hle
    · rintro ⟨_, hruns, hle, rfl⟩
      cases hruns with
      | @cons _ run _ runs hrun hruns =>
        rw [total_cons, ← Nat.add_assoc] at hle
        have hword : lengths.size + run.count ≤ 65536 := (Nat.le_add_right _ _).trans hle
        refine ⟨_, addItem_eq_ok_iff.2 ⟨run, hrun, hword, rfl⟩, ?_⟩
        exact (ih (by simpa using hword)).2 ⟨runs, hruns, by simpa using hle,
          (append_replicate_append_expand lengths run runs).symm⟩

/-- The parser stops at the first item that it refuses, after items that are well formed and do not
describe too many symbols. -/
theorem foldlM_addItem_eq_error_iff :
    words.foldlM addItem #[] = .error error ↔ ∃ before item after runs,
      words = before ++ item :: after ∧ List.Forall₂ Says before runs ∧ total runs ≤ 65536 ∧
        Refuses (total runs) item error := by
  have hzero : (#[] : Array UInt8).size ≤ 65536 := Nat.zero_le _
  simp only [Except.foldlM_eq_error_iff, addItem_eq_error_iff, foldlM_addItem_eq_ok_iff hzero]
  constructor
  · rintro ⟨before, item, after, _, hwords, ⟨runs, hruns, hle, rfl⟩, hrefuses⟩
    refine ⟨before, item, after, runs, hwords, hruns, by simpa using hle, ?_⟩
    simpa [length_expand] using hrefuses
  · rintro ⟨before, item, after, runs, hwords, hruns, hle, hrefuses⟩
    refine ⟨before, item, after, _, hwords, ⟨runs, hruns, by simpa using hle, rfl⟩, ?_⟩
    simpa [length_expand] using hrefuses

/-! ### Whole listings -/

/-- **What a listing is and what it lists.**  A text has one way to split into items.  It is a
listing exactly if all of them are well formed and describe at most 65536 symbols, and it lists
the lengths that they say one after the other.  Otherwise the first item that is malformed, or that
describes too many symbols together with those before it, is what the text is refused for, and it
makes no difference what follows.  Nowhere on the way are there more than 65536 lengths. -/
theorem parse_follows_grammar (text : String) :
    (∃! words, Splits text.toList words) ∧
    ∀ words, Splits text.toList words →
      (∀ lengths, parse text = .ok lengths ↔
        ∃ runs, List.Forall₂ Says words runs ∧ total runs ≤ 65536 ∧ lengths = expand runs) ∧
      (∀ error, parse text = .error error ↔ ∃ before item after runs,
        words = before ++ item :: after ∧ List.Forall₂ Says before runs ∧ total runs ≤ 65536 ∧
          Refuses (total runs) item error) ∧
      ∀ before after lengths, words = before ++ after →
        before.foldlM addItem #[] = .ok lengths → lengths.size ≤ 65536 := by
  have hzero : (#[] : Array UInt8).size ≤ 65536 := Nat.zero_le _
  refine ⟨⟨items text.toList, splits_iff.2 rfl, fun words h => (splits_iff.1 h).symm⟩,
    fun words hwords => ?_⟩
  obtain rfl := splits_iff.1 hwords
  refine ⟨fun lengths => ?_, fun error => ?_, fun before after lengths _ h => ?_⟩
  · simp only [parse, Except.map_eq_ok_iff, foldlM_addItem_eq_ok_iff hzero]
    constructor
    · rintro ⟨_, ⟨runs, hruns, hle, rfl⟩, rfl⟩
      exact ⟨runs, hruns, by simpa using hle, by simp⟩
    · rintro ⟨runs, hruns, hle, rfl⟩
      exact ⟨_, ⟨runs, hruns, by simpa using hle, rfl⟩, by simp⟩
  · rw [parse, Except.map_eq_error_iff, foldlM_addItem_eq_error_iff]
  · obtain ⟨runs, -, hle, rfl⟩ := (foldlM_addItem_eq_ok_iff hzero).1 h
    simpa [length_expand] using hle

/-- A listing of four lengths, and one that is refused for its second item, whatever its third one
is. -/
theorem listings_of_few_items :
    Splits " 2,+01*3".toList [['2'], ['+', '0', '1', '*', '3']] ∧
    parse " 2,+01*3" = .ok [2, 1, 1, 1] ∧
    Splits "1*65536,2 x".toList [['1', '*', '6', '5', '5', '3', '6'], ['2'], ['x']] ∧
    parse "1*65536,2 x" = .error (.tooManySymbols 65537 65536) := by
  have hwords : Splits " 2,+01*3".toList [['2'], ['+', '0', '1', '*', '3']] :=
    splits_iff.2 (by decide +kernel)
  have hwords' : Splits "1*65536,2 x".toList
      [['1', '*', '6', '5', '5', '3', '6'], ['2'], ['x']] := splits_iff.2 (by decide +kernel)
  have htwo : Says ['2'] ⟨2, 1⟩ := ofItem?_eq_some_iff.1 (by decide)
  have hones : Says ['+', '0', '1', '*', '3'] ⟨1, 3⟩ := ofItem?_eq_some_iff.1 (by decide)
  have hmany : Says ['1', '*', '6', '5', '5', '3', '6'] ⟨1, 65536⟩ :=
    ofItem?_eq_some_iff.1 (by decide)
  obtain ⟨haccepted, -, -⟩ := (parse_follows_grammar _).2 _ hwords
  obtain ⟨-, hrefused, -⟩ := (parse_follows_grammar _).2 _ hwords'
  refine ⟨hwords, (haccepted _).2 ⟨_, .cons htwo (.cons hones .nil), by decide, rfl⟩, hwords',
    (hrefused _).2 ⟨_, _, [['x']], _, rfl, .cons hmany .nil, by decide, ?_⟩⟩
  exact .tooManySymbols htwo (by decide)

end Listing

end PrefixCode
