/-
# Refused lengths

Which error is reported for lengths that describe no code, and when none is.  Each error is
given a meaning of its own, `Applies`, in terms of the lengths and their Kraft sums; several
errors may apply at once, and the one with the least `stage` is reported.  The two
constructions, of tables and of codebooks, report it alike, and succeed if no error applies
(`construction_reports_first_error`).
-/
import PrefixCode.Codebook
import PrefixCode.Proofs.Layout
import PrefixCode.Table

namespace PrefixCode.LengthsError

open PrefixCode.Lengths

/-! ### What the errors say -/

/-- What an error says about the lengths, whichever other errors apply to them as well. -/
inductive Applies (limits : Limits) (lengths : List UInt8) : LengthsError → Prop
  | unsupportedMaximum (h : limits.maxLength = 0 ∨ 32 < limits.maxLength) :
      Applies limits lengths (.unsupportedMaximum limits.maxLength)
  | tooManySymbols (h : 65536 < lengths.length) :
      Applies limits lengths (.tooManySymbols lengths.length 65536)
  | lengthTooLong {s : Nat} {l : UInt8} (hs : lengths[s]? = some l)
      (hlong : limits.maxLength < l)
      (hfirst : ∀ r k, r < s → lengths[r]? = some k → k ≤ limits.maxLength) :
      Applies limits lengths (.lengthTooLong s l limits.maxLength)
  | emptyAlphabet (h : ∀ l ∈ lengths, l = 0) : Applies limits lengths .emptyAlphabet
  | oversubscribed {L : UInt8} (hpos : 1 ≤ L.toNat) (hle : L.toNat ≤ maxBits lengths)
      (hover : 2 ^ L.toNat < kraft lengths L.toNat)
      (hleast : ∀ k, 1 ≤ k → k < L.toNat → kraft lengths k ≤ 2 ^ k) :
      Applies limits lengths (.oversubscribed L)
  | incomplete {L : UInt8} {unused total : UInt64} (hreq : limits.requireComplete = true)
      (hlt : kraft lengths (maxBits lengths) < 2 ^ maxBits lengths)
      (hL : L.toNat = maxBits lengths)
      (hunused : unused.toNat = 2 ^ maxBits lengths - kraft lengths (maxBits lengths))
      (htotal : total.toNat = 2 ^ maxBits lengths) :
      Applies limits lengths (.incomplete L unused total)

/-- The place of an error in the order of the tests. -/
def stage : LengthsError → Nat
  | unsupportedMaximum _ => 0
  | tooManySymbols _ _ => 1
  | lengthTooLong _ _ _ => 2
  | emptyAlphabet => 3
  | oversubscribed _ => 4
  | incomplete _ _ _ => 5
  | malformed _ => 6

/-- The error that is to be reported: it applies, and no error of an earlier test does. -/
def IsFirst (limits : Limits) (lengths : List UInt8) (e : LengthsError) : Prop :=
  Applies limits lengths e ∧ ∀ e', Applies limits lengths e' → e.stage ≤ e'.stage

variable {limits : Limits} {lengths : List UInt8} {e e' : LengthsError}

/-- At most one error of each stage applies. -/
lemma Applies.eq_of_stage_eq (h : Applies limits lengths e) (h' : Applies limits lengths e')
    (hstage : e.stage = e'.stage) : e = e' := by
  -- of one kind there is one: the symbol and the length are the least ones of their kind
  cases h with
  | unsupportedMaximum _ | tooManySymbols _ | emptyAlphabet _ => cases h' <;> simp_all [stage]
  | @lengthTooLong s l hs hlong hfirst =>
    cases h' with
    | @lengthTooLong r k hr hlong' hfirst' =>
      rcases Nat.lt_trichotomy r s with hlt | rfl | hlt
      · exact absurd hlong' (UInt8.not_lt.2 (hfirst r k hlt hr))
      · rw [hs, Option.some.injEq] at hr
        rw [hr]
      · exact absurd hlong (UInt8.not_lt.2 (hfirst' s l hlt hs))
    | _ => cases hstage
  | @oversubscribed L hpos hle hover hleast =>
    cases h' with
    | @oversubscribed K hpos' hle' hover' hleast' =>
      rcases Nat.lt_trichotomy K.toNat L.toNat with hlt | heq | hlt
      · exact absurd hover' (Nat.not_lt.2 (hleast K.toNat hpos' hlt))
      · rw [UInt8.toNat_inj.1 heq]
      · exact absurd hover (Nat.not_lt.2 (hleast' L.toNat hpos hlt))
    | _ => cases hstage
  | incomplete hreq hlt hL hunused htotal =>
    cases h' with
    | incomplete _ _ hL' hunused' htotal' =>
      rw [UInt8.toNat_inj.1 (hL.trans hL'.symm), UInt64.toNat_inj.1 (hunused.trans hunused'.symm),
        UInt64.toNat_inj.1 (htotal.trans htotal'.symm)]
    | _ => cases hstage

lemma IsFirst.eq (h : IsFirst limits lengths e) (h' : IsFirst limits lengths e') : e = e' :=
  h.1.eq_of_stage_eq h'.1 (le_antisymm (h.2 e' h'.1) (h'.2 e h.1))

/-! ### The tests in their order -/

/-- No error of the first `n` tests applies. -/
def Passes (limits : Limits) (lengths : List UInt8) (n : Nat) : Prop :=
  ∀ e, Applies limits lengths e → n ≤ e.stage

lemma passes_zero (limits : Limits) (lengths : List UInt8) : Passes limits lengths 0 :=
  fun e _ => Nat.zero_le e.stage

lemma Passes.succ {n : Nat} (h : Passes limits lengths n)
    (hn : ∀ e, Applies limits lengths e → e.stage ≠ n) : Passes limits lengths (n + 1) := by
  intro e he
  have := h e he
  have := hn e he
  omega

lemma passes_one (lengths : List UInt8)
    (h : ¬ (limits.maxLength = 0 ∨ 32 < limits.maxLength)) :
    Passes limits lengths 1 := by
  refine (passes_zero limits lengths).succ fun e he hstage => ?_
  cases he with
  | unsupportedMaximum h' => exact h h'
  | _ => cases hstage

lemma Passes.two (hpass : Passes limits lengths 1) (h : lengths.length ≤ maxSymbols) :
    Passes limits lengths 2 := by
  refine hpass.succ fun e he hstage => ?_
  cases he with
  | tooManySymbols h' => exact absurd h' (Nat.not_lt.2 h)
  | _ => cases hstage

lemma Passes.three (hpass : Passes limits lengths 2)
    (h : maxBits lengths ≤ limits.maxLength.toNat) : Passes limits lengths 3 := by
  refine hpass.succ fun e he hstage => ?_
  cases he with
  | @lengthTooLong s l hs hlong _ =>
    rw [Layout.maxBits_le_iff] at h
    exact absurd hlong (UInt8.not_lt.2 (h l (List.mem_of_getElem? hs)))
  | _ => cases hstage

lemma Passes.four (hpass : Passes limits lengths 3) (h : 0 < maxBits lengths) :
    Passes limits lengths 4 := by
  refine hpass.succ fun e he hstage => ?_
  cases he with
  | emptyAlphabet hzero =>
    have hle : maxBits lengths ≤ 0 := Layout.maxBits_le_iff.2 fun l hl => by rw [hzero l hl]; rfl
    omega
  | _ => cases hstage

lemma Passes.five (hpass : Passes limits lengths 4)
    (h : kraft lengths (maxBits lengths) ≤ 2 ^ maxBits lengths) : Passes limits lengths 5 := by
  refine hpass.succ fun e he hstage => ?_
  cases he with
  | oversubscribed _ hle hover _ => exact absurd hover (Nat.not_lt.2 (kraft_le_of_le hle h))
  | _ => cases hstage

/-- No error that a construction reports is left. -/
lemma Passes.not_applies (hpass : Passes limits lengths 5)
    (h : limits.requireComplete = true →
      kraft lengths (maxBits lengths) = 2 ^ maxBits lengths)
    (e : LengthsError) : ¬ Applies limits lengths e := by
  intro he
  have hstage := hpass e he
  cases he with
  | incomplete hreq hlt =>
    have := h hreq
    omega
  | _ => simp [stage] at hstage

/-- What laying out counts reports: after the first tests, too many codewords of some length,
or too few codewords. -/
lemma isFirst_of_ofCounts (hpass : Passes limits lengths 4) (hn : lengths.length ≤ maxSymbols)
    (hpos : 0 < maxBits lengths) (hlong : maxBits lengths ≤ 32)
    (h : Layout.ofCounts limits.requireComplete (Layout.longestOf lengths)
      (Layout.tally (Layout.longestOf lengths) lengths) = .error e) :
    IsFirst limits lengths e := by
  rcases Layout.ofCounts_cases limits.requireComplete hn hpos hlong with
    ⟨L, hover, hres⟩ | ⟨unused, total, hreq, hlt, hunused, htotal, hres⟩ | ⟨_, -, -, hres⟩ <;>
    rw [hres] at h <;> cases h
  · obtain ⟨hpos, hle, hover, hleast⟩ := (Layout.overfull?_eq_some_iff hn hlong).1 hover
    have hL : L.toUInt8.toNat = L := by
      rw [Nat.toUInt8_eq, UInt8.toNat_ofNat']
      omega
    refine ⟨?_, fun e' he' => hpass e' he'⟩
    exact .oversubscribed (by omega) (by omega) (by rw [hL]; exact hover)
      fun k hk hkL => hleast k hk (by omega)
  · exact ⟨.incomplete hreq hlt (Layout.toNat_longestOf lengths) hunused htotal,
      hpass.five hlt.le⟩

/-- Lengths are refused for the first error that applies to them. -/
theorem isFirst_of_ofLengths (h : Layout.ofLengths limits lengths = .error e) :
    IsFirst limits lengths e := by
  rw [Layout.ofLengths] at h
  split at h
  · rename_i hsupported
    cases h
    exact ⟨.unsupportedMaximum hsupported, passes_zero limits lengths⟩
  rename_i hsupported
  have hone := passes_one lengths hsupported
  split at h
  · rename_i hn
    cases h
    exact ⟨.tooManySymbols hn, hone⟩
  rename_i hn
  have htwo := hone.two (Nat.not_lt.1 hn)
  split at h
  · rename_i l s hlong
    cases h
    obtain ⟨hs, hlong, hfirst⟩ := Layout.tooLong?_eq_some_iff.1 hlong
    exact ⟨.lengthTooLong hs hlong hfirst, htwo⟩
  rename_i hshort
  have hmax := Layout.tooLong?_eq_none_iff.1 hshort
  have hthree := htwo.three hmax
  dsimp only at h
  split at h
  · rename_i hempty
    cases h
    rw [← UInt8.toNat_inj, Layout.toNat_longestOf] at hempty
    refine ⟨.emptyAlphabet fun l hl => ?_, hthree⟩
    have := Layout.maxBits_le_iff.1 hempty.le l hl
    exact UInt8.toNat_inj.1 (Nat.le_zero.1 this)
  rename_i hne
  rw [← UInt8.toNat_inj, Layout.toNat_longestOf] at hne
  have hsupp := (Layout.not_unsupported_iff.1 hsupported).2
  have hpos := Nat.pos_of_ne_zero hne
  exact isFirst_of_ofCounts (hthree.four hpos) (Nat.not_lt.1 hn) hpos
    (hmax.trans (UInt8.le_iff_toNat_le.1 hsupp)) h

/-- No error applies to lengths that are laid out. -/
theorem not_applies_of_ofLengths {layout : Layout}
    (h : Layout.ofLengths limits lengths = .ok layout) (e : LengthsError) :
    ¬ Applies limits lengths e := by
  obtain ⟨hne, hsupp, hn, hmax, hpos, -⟩ := Layout.ofLengths_eq_ok_iff.1 h
  have hdesc := Layout.describes_of_ofLengths h
  have hone : Passes limits lengths 1 :=
    passes_one lengths (Layout.not_unsupported_iff.2 ⟨hne, hsupp⟩)
  have hfive := (((hone.two hn).three hmax).four hpos).five hdesc.realizable.kraft_le
  exact hfive.not_applies
    (fun hreq => hdesc.complete_iff.1 (Layout.complete_of_ofLengths h hreq)) e

/-- Laying out reports an error exactly if it is the first one that applies. -/
theorem ofLengths_eq_error_iff : Layout.ofLengths limits lengths = .error e ↔
    IsFirst limits lengths e := by
  refine ⟨isFirst_of_ofLengths, fun h => ?_⟩
  cases hres : Layout.ofLengths limits lengths with
  | ok layout => exact absurd h.1 (not_applies_of_ofLengths hres e)
  | error e' => rw [(isFirst_of_ofLengths hres).eq h]

/-- Laying out succeeds exactly if no error applies. -/
theorem exists_ofLengths_eq_ok_iff : (∃ layout, Layout.ofLengths limits lengths = .ok layout) ↔
    ∀ e, ¬ Applies limits lengths e := by
  refine ⟨fun ⟨layout, h⟩ => not_applies_of_ofLengths h, fun h => ?_⟩
  cases hres : Layout.ofLengths limits lengths with
  | ok layout => exact ⟨layout, rfl⟩
  | error e => exact absurd (isFirst_of_ofLengths hres).1 (h e)

/-! ### Tables and codebooks -/

/-- **Which lengths are refused, and why.**  Tables and codebooks are refused for the first
error that applies to the lengths, and are made if none does; a table says that it is
complete exactly if the Kraft sum takes up all bit strings of the greatest length. -/
theorem construction_reports_first_error (limits : Limits) (lengths : List UInt8) :
    (∀ e, Table.ofLengths limits lengths = .error e ↔ IsFirst limits lengths e) ∧
    (∀ e, Codebook.ofLengths limits lengths = .error e ↔ IsFirst limits lengths e) ∧
    ((∃ table, Table.ofLengths limits lengths = .ok table) ↔
      ∀ e, ¬ Applies limits lengths e) ∧
    ((∃ book, Codebook.ofLengths limits lengths = .ok book) ↔
      ∀ e, ¬ Applies limits lengths e) ∧
    ∀ table, Table.ofLengths limits lengths = .ok table →
      (table.complete = true ↔ kraft lengths (maxBits lengths) = 2 ^ maxBits lengths) := by
  refine ⟨fun e => ?_, fun e => ?_, ?_, ?_, fun table h => ?_⟩
  · rw [Table.ofLengths, Except.map_eq_error_iff, ofLengths_eq_error_iff]
  · rw [Codebook.ofLengths, Except.map_eq_error_iff, ofLengths_eq_error_iff]
  · rw [← exists_ofLengths_eq_ok_iff]
    simp [Table.ofLengths, Except.map_eq_ok_iff]
  · rw [← exists_ofLengths_eq_ok_iff]
    simp [Codebook.ofLengths, Except.map_eq_ok_iff]
  · obtain ⟨layout, hlayout, rfl⟩ := Except.map_eq_ok_iff.1 h
    exact (Layout.describes_of_ofLengths hlayout).complete_iff

/-- Three symbols cannot all have one bit; and codewords of one and two bits leave a string
of two bits unused. -/
theorem refused_and_incomplete :
    IsFirst .deflate [1, 1, 1] (.oversubscribed 1) ∧
    ∃ table, Table.ofLengths .deflate [1, 0, 2] = .ok table ∧ table.complete = false ∧
      kraft [1, 0, 2] (maxBits [1, 0, 2]) ≠ 2 ^ maxBits [1, 0, 2] := by
  have htable : Table.ofLengths .deflate [1, 0, 2] =
      .ok ⟨2, #[⟨0, 1, 0⟩, ⟨2, 1, 1⟩], #[0, 2], false⟩ := by decide +kernel
  have hiff := (construction_reports_first_error .deflate [1, 0, 2]).2.2.2.2 _ htable
  refine ⟨((construction_reports_first_error .deflate [1, 1, 1]).1 _).1 (by decide +kernel),
    _, htable, rfl, fun hkraft => ?_⟩
  exact Bool.false_ne_true (hiff.2 hkraft)

end PrefixCode.LengthsError
