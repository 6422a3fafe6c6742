/-
# Results that may be errors

What it means for a result that is made from another one, by a map, by one more step or by a
walk along a list, to be there or to be an error.
-/
import Mathlib.Tactic.Common

namespace Except

variable {ε ε' α β : Type}

/-! ### One result from another -/

lemma map_eq_ok_iff {f : α → β} {x : Except ε α} {b : β} :
    x.map f = .ok b ↔ ∃ a, x = .ok a ∧ f a = b := by
  cases x <;> simp [Except.map]

lemma map_eq_error_iff {f : α → β} {x : Except ε α} {e : ε} :
    x.map f = .error e ↔ x = .error e := by
  cases x <;> simp [Except.map]

lemma mapError_eq_ok_iff {f : ε → ε'} {x : Except ε α} {a : α} :
    x.mapError f = .ok a ↔ x = .ok a := by
  cases x <;> simp [Except.mapError]

lemma mapError_eq_error_iff {f : ε → ε'} {x : Except ε α} {e' : ε'} :
    x.mapError f = .error e' ↔ ∃ e, x = .error e ∧ f e = e' := by
  cases x <;> simp [Except.mapError]

lemma bind_eq_ok_iff {x : Except ε α} {f : α → Except ε β} {b : β} :
    x.bind f = .ok b ↔ ∃ a, x = .ok a ∧ f a = .ok b := by
  cases x <;> simp [Except.bind]

lemma bind_eq_error_iff {x : Except ε α} {f : α → Except ε β} {e : ε} :
    x.bind f = .error e ↔ x = .error e ∨ ∃ a, x = .ok a ∧ f a = .error e := by
  cases x <;> simp [Except.bind]

/-! ### Walks along a list -/

lemma mapM_cons_eq_ok_iff {f : α → Except ε β} {x : α} {xs : List α} {ys : List β} :
    (x :: xs).mapM f = .ok ys ↔ ∃ z zs, f x = .ok z ∧ xs.mapM f = .ok zs ∧ z :: zs = ys := by
  rw [List.mapM_cons]
  cases f x <;> cases xs.mapM f <;> simp [bind, Except.bind, pure, Except.pure]

variable {f : β → α → Except ε β} {x : α} {xs : List α} {b c : β} {e : ε}

lemma foldlM_cons_eq_ok_iff :
    (x :: xs).foldlM f b = .ok c ↔ ∃ b', f b x = .ok b' ∧ xs.foldlM f b' = .ok c := by
  rw [List.foldlM_cons]
  exact bind_eq_ok_iff

lemma foldlM_cons_eq_error_iff :
    (x :: xs).foldlM f b = .error e ↔
      f b x = .error e ∨ ∃ b', f b x = .ok b' ∧ xs.foldlM f b' = .error e := by
  rw [List.foldlM_cons]
  exact bind_eq_error_iff

/-- A fold fails for the first element that it fails for, after those in front of it. -/
lemma foldlM_eq_error_iff :
    xs.foldlM f b = .error e ↔ ∃ before x after c, xs = before ++ x :: after ∧
      before.foldlM f b = .ok c ∧ f c x = .error e := by
  induction xs generalizing b with
  | nil => simp [pure, Except.pure]
  | cons x xs ih =>
    rw [foldlM_cons_eq_error_iff]
    constructor
    · rintro (hx | ⟨b', hx, hxs⟩)
      · exact ⟨[], x, xs, b, rfl, rfl, hx⟩
      · obtain ⟨before, y, after, c, rfl, hbefore, hy⟩ := ih.1 hxs
        exact ⟨x :: before, y, after, c, rfl, foldlM_cons_eq_ok_iff.2 ⟨b', hx, hbefore⟩, hy⟩
    · rintro ⟨before, y, after, c, heq, hbefore, hy⟩
      cases before with
      | nil =>
        cases heq
        cases hbefore
        exact Or.inl hy
      | cons z before =>
        cases heq
        obtain ⟨b', hz, hbefore⟩ := foldlM_cons_eq_ok_iff.1 hbefore
        exact Or.inr ⟨b', hz, ih.2 ⟨before, y, after, c, rfl, hbefore, hy⟩⟩

end Except
