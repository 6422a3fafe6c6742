/-
# Codebooks in closed form

The codewords that a codebook hands out by counting are those of the canonical code: the
number of a codeword is the place of its symbol.  While the symbols are taken in order, the
next number of each length is its first one plus the symbols of this length met so far
(`toNat_next_draft`); so the symbol that takes it finds its place.
-/
import PrefixCode.Codebook
import PrefixCode.Proofs.Canonical
import PrefixCode.Proofs.Layout

namespace PrefixCode

open PrefixCode.Lengths

namespace Codebook

variable {lengths : List UInt8} {layout : Layout}

/-! ### The draft after some symbols -/

/-- The entry that a draft writes next for a symbol with this length. -/
def Draft.entry (draft : Draft) (length : UInt8) : Option Codeword :=
  if length = 0 then none else some ⟨draft.next.getD length.toNat 0, length⟩

lemma Draft.entries_add (draft : Draft) (length : UInt8) :
    (draft.add length).entries = draft.entries.push (draft.entry length) := by
  unfold add entry
  split <;> rfl

lemma Draft.next_add (draft : Draft) (length : UInt8) :
    (draft.add length).next = Layout.countLength draft.next length := by
  unfold add Layout.countLength
  split <;> rfl

lemma Draft.next_foldl (draft : Draft) (lengths : List UInt8) :
    (lengths.foldl Draft.add draft).next = lengths.foldl Layout.countLength draft.next := by
  induction lengths generalizing draft with
  | nil => rfl
  | cons length lengths ih => rw [List.foldl_cons, List.foldl_cons, ih, Draft.next_add]

/-- The draft of a layout after symbols with these lengths. -/
def draft (layout : Layout) (lengths : List UInt8) : Draft :=
  lengths.foldl Draft.add ⟨#[], layout.starts⟩

lemma draft_concat (layout : Layout) (lengths : List UInt8) (length : UInt8) :
    draft layout (lengths ++ [length]) = (draft layout lengths).add length := by
  rw [draft, List.foldl_append, List.foldl_cons, List.foldl_nil, draft]

/-- The entry of a symbol is written after those of the symbols in front of it. -/
lemma getElem?_entries_draft (layout : Layout) (lengths : List UInt8) (s : Nat) :
    (draft layout lengths).entries[s]? =
      lengths[s]?.map (draft layout (lengths.take s)).entry := by
  induction lengths using List.reverseRecOn with
  | nil => simp [draft]
  | append_singleton lengths length ih =>
    have hsize : (draft layout lengths).entries.size = lengths.length :=
      size_entries_ofLayout layout lengths
    rw [draft_concat, Draft.entries_add, Array.getElem?_push, hsize]
    by_cases hs : s = lengths.length
    · subst hs
      simp
    · rw [if_neg hs, ih]
      rcases Nat.lt_or_ge s lengths.length with hlt | hge
      · rw [List.getElem?_append_left hlt, List.take_append_of_le_length hlt.le]
      · rw [List.getElem?_eq_none hge, List.getElem?_eq_none (by simp; omega)]
        rfl

/-! ### The codeword of a symbol -/

/-- The next number of a length, as long as it is still one of a codeword. -/
lemma toNat_next_draft (h : layout.Describes lengths) {s : Nat} {l : UInt8}
    (hs : lengths[s]? = some l) (hl : l ≠ 0) :
    ((draft layout (lengths.take s)).next.getD l.toNat 0).toNat = place lengths s := by
  have hactive : s ∈ active lengths := mem_active_iff_getElem?.2 ⟨l, hs, hl⟩
  have hle := toNat_le_maxBits hs hl
  have hfirst : (layout.starts.getD l.toNat 0).toNat = below lengths l.toNat :=
    h.toNat_first l.toNat hle
  -- the number has not wrapped around, since the place of the symbol fits into its length
  rw [draft, Draft.next_foldl, Layout.getD_foldl_countLength _ hl (by rw [h.size_starts]; omega),
    UInt32.toNat_add, hfirst, UInt32.toNat_ofNat', Nat.add_mod_mod,
    ← place_eq_below_add_count hs hl]
  exact Nat.mod_eq_of_lt (h.realizable.place_lt hactive)

/-- Writing the entry of a symbol moves the next number of its length on by one. -/
lemma next_draft_succ (h : layout.Describes lengths) {s : Nat} {l : UInt8}
    (hs : lengths[s]? = some l) (hl : l ≠ 0) :
    (draft layout (lengths.take (s + 1))).next.getD l.toNat 0 =
      (draft layout (lengths.take s)).next.getD l.toNat 0 + 1 := by
  have hle := toNat_le_maxBits hs hl
  have hsize : l.toNat < layout.starts.size := by
    rw [h.size_starts]
    omega
  rw [draft, draft, Draft.next_foldl, Draft.next_foldl, Layout.getD_foldl_countLength _ hl hsize,
    Layout.getD_foldl_countLength _ hl hsize, List.take_add_one, hs, Option.toList_some,
    List.count_append, List.count_singleton_self, UInt32.ofNat_add, UInt32.add_assoc]
  rfl

/-- The entry of a symbol has its length, and its place as the number. -/
theorem getElem?_entries_ofLayout (h : layout.Describes lengths) {s : Nat} {l : UInt8}
    (hs : lengths[s]? = some l) :
    (ofLayout layout lengths).entries[s]? =
      some (if l = 0 then none else some ⟨UInt32.ofNat (place lengths s), l⟩) := by
  have hentry := getElem?_entries_draft layout lengths s
  rw [hs, Option.map_some] at hentry
  rw [ofLayout, ← draft, hentry, Draft.entry]
  split
  · rfl
  · rename_i hl
    rw [← toNat_next_draft h hs hl, UInt32.ofNat_toNat]

/-- The codewords of a codebook are those of the canonical code. -/
theorem code?_ofLayout_eq_some_iff (h : layout.Describes lengths) {s : Nat} {code : Codeword} :
    (ofLayout layout lengths).code? s = some code ↔ IsCanonical lengths s code := by
  rw [code?]
  constructor
  · intro hcode
    cases hs : lengths[s]? with
    | none =>
      rw [Array.getElem?_eq_none] at hcode
      · cases hcode
      · rw [size_entries_ofLayout]
        exact List.getElem?_eq_none_iff.1 hs
    | some l =>
      rw [getElem?_entries_ofLayout h hs, Option.join_some] at hcode
      split at hcode
      · cases hcode
      · rename_i hl
        have hactive : s ∈ active lengths := mem_active_iff_getElem?.2 ⟨l, hs, hl⟩
        cases hcode
        exact ⟨hactive, (bitsOf_eq hs).symm, h.realizable.toNat_ofNat_place hactive⟩
  · rintro ⟨hactive, hlength, hvalue⟩
    obtain ⟨l, hs, hl⟩ := mem_active_iff_getElem?.1 hactive
    rw [bitsOf_eq hs, UInt8.toNat_inj] at hlength
    rw [getElem?_entries_ofLayout h hs, if_neg hl, Option.join_some, ← hvalue,
      UInt32.ofNat_toNat, ← hlength]

theorem code?_eq_some_iff {limits : Limits} {book : Codebook} {s : Nat} {code : Codeword}
    (h : Codebook.ofLengths limits lengths = .ok book) :
    book.code? s = some code ↔ IsCanonical lengths s code := by
  obtain ⟨layout, hlayout, rfl⟩ := Except.map_eq_ok_iff.1 h
  exact code?_ofLayout_eq_some_iff (Layout.describes_of_ofLengths hlayout)

lemma realizable_of_ofLengths {limits : Limits} {book : Codebook}
    (h : Codebook.ofLengths limits lengths = .ok book) : Realizable lengths := by
  obtain ⟨layout, hlayout, -⟩ := Except.map_eq_ok_iff.1 h
  exact (Layout.describes_of_ofLengths hlayout).realizable

/-- Every symbol with a length other than zero has its codeword in the codebook. -/
lemma exists_code?_eq_some {limits : Limits} {book : Codebook} {s : Nat}
    (h : Codebook.ofLengths limits lengths = .ok book) (hs : s ∈ active lengths) :
    ∃ code, book.code? s = some code ∧ IsCanonical lengths s code := by
  obtain ⟨code, hcode⟩ := exists_isCanonical (realizable_of_ofLengths h) hs
  exact ⟨code, (code?_eq_some_iff h).2 hcode, hcode⟩

lemma code?_eq_some_codeword {limits : Limits} {book : Codebook} {s : Nat}
    (h : Codebook.ofLengths limits lengths = .ok book) (hs : s ∈ active lengths) :
    book.code? s = some (book.codeword s) := by
  obtain ⟨code, hcode, -⟩ := exists_code?_eq_some h hs
  rw [codeword_eq_of_code? hcode]
  exact hcode

lemma isCanonical_codeword {limits : Limits} {book : Codebook} {s : Nat}
    (h : Codebook.ofLengths limits lengths = .ok book) (hs : s ∈ active lengths) :
    IsCanonical lengths s (book.codeword s) :=
  (code?_eq_some_iff h).1 (code?_eq_some_codeword h hs)

/-- **The closed form of the codewords.**  A codebook has an entry for each symbol, and none
of them is empty but those of length zero.  The others have the lengths asked for, and their
numbers are the places of their symbols, which these lengths have bits for. -/
theorem codewords_in_closed_form {limits : Limits} {lengths : List UInt8} {book : Codebook}
    (h : Codebook.ofLengths limits lengths = .ok book) :
    book.entries.size = lengths.length ∧
      ∀ s l, lengths[s]? = some l →
        (book.entries[s]? = some none ↔ l = 0) ∧
        (l ≠ 0 → ∃ code, book.entries[s]? = some (some code) ∧ code.length = l ∧
          code.value.toNat < 2 ^ l.toNat ∧ code.value.toNat = place lengths s) := by
  obtain ⟨layout, hlayout, rfl⟩ := Except.map_eq_ok_iff.1 h
  have hdesc := Layout.describes_of_ofLengths hlayout
  refine ⟨size_entries_ofLayout layout lengths, fun s l hs => ?_⟩
  rw [getElem?_entries_ofLayout hdesc hs]
  by_cases hl : l = 0
  · simp [hl]
  · have hactive : s ∈ active lengths := mem_active_iff_getElem?.2 ⟨l, hs, hl⟩
    have hplace := hdesc.realizable.toNat_ofNat_place hactive
    have hlt := hdesc.realizable.place_lt_two_pow hactive
    rw [bitsOf_eq hs] at hlt
    refine ⟨by simp [hl], fun _ => ⟨_, by rw [if_neg hl], rfl, ?_, hplace⟩⟩
    exact hplace.trans_lt hlt

/-- The codeword of the last of five symbols is the last one of its length. -/
theorem closed_form_of_last_symbol :
    Codebook.ofLengths .deflate [2, 1, 0, 3, 3] =
      .ok ⟨#[some ⟨2, 2⟩, some ⟨0, 1⟩, none, some ⟨6, 3⟩, some ⟨7, 3⟩]⟩ ∧
    place [2, 1, 0, 3, 3] 4 = 7 := by
  have h : Codebook.ofLengths .deflate [2, 1, 0, 3, 3] =
      .ok ⟨#[some ⟨2, 2⟩, some ⟨0, 1⟩, none, some ⟨6, 3⟩, some ⟨7, 3⟩]⟩ := by decide +kernel
  obtain ⟨code, hcode, -, -, hplace⟩ := ((codewords_in_closed_form h).2 4 3 rfl).2 (by decide)
  cases hcode
  exact ⟨h, hplace.symm⟩

end Codebook

end PrefixCode
