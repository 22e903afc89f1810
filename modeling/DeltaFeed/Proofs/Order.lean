import DeltaFeed.Order
import Mathlib.Data.List.Sort

/-! The orders are total orders, and sorting by them is the insertion sort of the library: what is
sorted is a rearrangement of the items, and is in order.
-/

namespace DeltaFeed.Order

variable {α β : Type}

-----------------------------------------------------------------------------------------
-- Total orders
-----------------------------------------------------------------------------------------

/-- A decidable total order. -/
structure Linear (le : α → α → Bool) : Prop where
  total : ∀ a b, le a b || le b a
  trans : ∀ {a b c}, le a b → le b c → le a c
  antisymm : ∀ {a b}, le a b → le b a → a = b

/-- An item may stand before itself. -/
theorem Linear.refl {le : α → α → Bool} (linear : Linear le) (a : α)
    : le a a = true := by
  simpa using linear.total a a

/-- Lists of items in a total order are in a total order, by induction on the first of them. -/
theorem lists_linear [DecidableEq α] {le : α → α → Bool} (linear : Linear le)
    : Linear (lists le) where
  total := by
    intro as bs
    induction as generalizing bs with
    | nil => simp [lists]
    | cons a as ih =>
        cases bs with
        | nil => simp [lists]
        | cons b bs =>
            by_cases h : a = b
            · subst h
              simpa [lists] using ih bs
            · simpa [lists, h, Ne.symm h] using linear.total a b
  trans := by
    intro as bs cs
    induction as generalizing bs cs with
    | nil => simp [lists]
    | cons a as ih =>
        intro first second
        cases bs with
        | nil => simp [lists] at first
        | cons b bs =>
            cases cs with
            | nil => simp [lists] at second
            | cons c cs =>
                by_cases hab : a = b
                · subst hab
                  by_cases hac : a = c
                  · subst hac
                    simp only [lists, if_true] at first second ⊢
                    exact ih first second
                  · simpa [lists, hac] using second
                · by_cases hbc : b = c
                  · subst hbc
                    simpa [lists, hab] using first
                  · simp only [lists, hab, hbc, if_false] at first second
                    by_cases hac : a = c
                    · subst hac
                      exact absurd (linear.antisymm first second) hab
                    · simpa [lists, hac] using linear.trans first second
  antisymm := by
    intro as bs
    induction as generalizing bs with
    | nil => cases bs <;> simp [lists]
    | cons a as ih =>
        intro first second
        cases bs with
        | nil => simp [lists] at first
        | cons b bs =>
            by_cases h : a = b
            · subst h
              simp only [lists, if_true] at first second
              rw [ih first second]
            · simp only [lists, h, Ne.symm h, if_false] at first second
              exact absurd (linear.antisymm first second) h

/-- Pairs are in a total order if their parts are, by whether the first parts are equal. -/
theorem pairs_linear [DecidableEq α] {le : α → α → Bool} {le2 : β → β → Bool}
    (linear : Linear le) (linear2 : Linear le2)
    : Linear (pairs le le2) where
  total := by
    intro p q
    by_cases h : p.1 = q.1
    · simpa [pairs, h] using linear2.total p.2 q.2
    · simpa [pairs, h, Ne.symm h] using linear.total p.1 q.1
  trans := by
    intro p q r first second
    by_cases hpq : p.1 = q.1
    · by_cases hqr : q.1 = r.1
      · have hpr := hpq.trans hqr
        simp only [pairs, hpq, hqr, if_true] at first second ⊢
        exact linear2.trans first second
      · have hpr : p.1 ≠ r.1 := hpq ▸ hqr
        simp only [pairs, hqr, hpr, if_false] at second ⊢
        rwa [hpq]
    · by_cases hqr : q.1 = r.1
      · have hpr : p.1 ≠ r.1 := hqr ▸ hpq
        simp only [pairs, hpq, hpr, if_false] at first ⊢
        rwa [← hqr]
      · simp only [pairs, hpq, hqr, if_false] at first second
        by_cases hpr : p.1 = r.1
        · rw [← hpr] at second
          exact absurd (linear.antisymm first second) hpq
        · simpa [pairs, hpr] using linear.trans first second
  antisymm := by
    intro p q first second
    by_cases h : p.1 = q.1
    · simp only [pairs, h, if_true] at first second
      exact Prod.ext h (linear2.antisymm first second)
    · simp only [pairs, h, Ne.symm h, if_false] at first second
      exact absurd (linear.antisymm first second) h

theorem chars_linear
    : Linear chars where
  total := by
    intro a b
    simp only [chars, Bool.or_eq_true, decide_eq_true_eq]
    omega
  trans := by
    intro a b c
    simp only [chars, decide_eq_true_eq]
    omega
  antisymm := by
    intro a b
    simp only [chars, decide_eq_true_eq]
    intro first second
    exact Char.toNat_inj.mp (Nat.le_antisymm first second)

/-- Texts are in a total order, as lists of characters. -/
theorem texts_linear
    : Linear texts where
  total a b := (lists_linear chars_linear).total a.toList b.toList
  trans := (lists_linear chars_linear).trans
  antisymm first second :=
    String.toList_inj.mp ((lists_linear chars_linear).antisymm first second)

-----------------------------------------------------------------------------------------
-- Sorting
-----------------------------------------------------------------------------------------

section Sorting

variable {le : α → α → Bool}

/-- Inserting into a list is the ordered insertion of the library. -/
theorem insert_eq_orderedInsert (a : α) (items : List α)
    : insert le a items = items.orderedInsert (fun a b => le a b = true) a := by
  induction items with
  | nil => rfl
  | cons b rest ih => rw [insert, ih, List.orderedInsert_cons]

/-- Sorting is the insertion sort of the library, by induction on the items. -/
theorem sort_eq_insertionSort (items : List α)
    : sort le items = items.insertionSort (fun a b => le a b = true) := by
  induction items with
  | nil => rfl
  | cons a rest ih => rw [sort, ih, insert_eq_orderedInsert, List.insertionSort_cons]

/-- Sorting neither loses items nor makes new ones. -/
theorem sort_perm (items : List α)
    : (sort le items).Perm items :=
  sort_eq_insertionSort items ▸ List.perm_insertionSort _ items

/-- Sorting by a total preorder puts the items in order. -/
theorem sort_pairwise (total : ∀ a b, le a b || le b a)
    (trans : ∀ {a b c}, le a b → le b c → le a c) (items : List α)
    : (sort le items).Pairwise fun a b => le a b = true := by
  have isTotal : Std.Total fun a b => le a b = true := ⟨fun a b => by simpa using total a b⟩
  have isTrans : IsTrans α fun a b => le a b = true := ⟨fun _ _ _ => trans⟩
  exact sort_eq_insertionSort items ▸ List.pairwise_insertionSort _ items

end Sorting

end DeltaFeed.Order
