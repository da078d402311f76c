import Docsmith.Text.Order

namespace Docsmith.Text

/-!
# Lists of texts are in a total order

* `inOrder_cons`: the first difference decides.
* `inOrder_total`, `inOrder_trans`, `inOrder_antisymm`: the laws of a total order.
-/

/-- The first texts decide, unless they are the same. -/
theorem inOrder_cons {a b : String} {as bs : List String} :
    inOrder (a :: as) (b :: bs) = true ↔ a < b ∨ a = b ∧ inOrder as bs = true := by
  simp [inOrder]

/-- Of two texts one comes first, unless they are the same. -/
theorem lt_or_eq_or_gt (a b : String) : a < b ∨ a = b ∨ b < a := by
  by_cases hab : a < b
  · exact .inl hab
  · by_cases hba : b < a
    · exact .inr (.inr hba)
    · exact .inr (.inl (String.le_antisymm (String.not_lt.mp hba) (String.not_lt.mp hab)))

theorem inOrder_total (as bs : List String) : inOrder as bs = true ∨ inOrder bs as = true := by
  induction as generalizing bs with
  | nil => exact .inl rfl
  | cons a as ih =>
    cases bs with
    | nil => exact .inr rfl
    | cons b bs =>
      rw [inOrder_cons, inOrder_cons]
      rcases lt_or_eq_or_gt a b with hlt | heq | hgt
      · exact .inl (.inl hlt)
      · exact (ih bs).imp (fun h => .inr ⟨heq, h⟩) (fun h => .inr ⟨heq.symm, h⟩)
      · exact .inr (.inl hgt)

theorem inOrder_trans {as bs cs : List String} (hab : inOrder as bs = true)
    (hbc : inOrder bs cs = true) : inOrder as cs = true := by
  induction as generalizing bs cs with
  | nil => rfl
  | cons a as ih =>
    cases bs with
    | nil => cases hab
    | cons b bs =>
      cases cs with
      | nil => cases hbc
      | cons c cs =>
        -- the first names decide, and where they are equal the rest does
        rw [inOrder_cons] at *
        rcases hab with hab | ⟨rfl, hab⟩
        · rcases hbc with hbc | ⟨rfl, -⟩
          · exact .inl (String.lt_trans hab hbc)
          · exact .inl hab
        · rcases hbc with hbc | ⟨rfl, hbc⟩
          · exact .inl hbc
          · exact .inr ⟨rfl, ih hab hbc⟩

theorem inOrder_antisymm {as bs : List String} (hab : inOrder as bs = true)
    (hba : inOrder bs as = true) : as = bs := by
  induction as generalizing bs with
  | nil =>
    cases bs with
    | nil => rfl
    | cons b bs => cases hba
  | cons a as ih =>
    cases bs with
    | nil => cases hab
    | cons b bs =>
      rw [inOrder_cons] at *
      -- both lists have the same first name, since the order is strict
      rcases hab with hab | ⟨rfl, hab⟩
      · rcases hba with hba | ⟨rfl, -⟩
        · exact absurd (String.lt_trans hab hba) (String.lt_irrefl a)
        · exact absurd hab (String.lt_irrefl b)
      · rcases hba with hba | ⟨-, hba⟩
        · exact absurd hba (String.lt_irrefl a)
        · rw [ih hab hba]

end Docsmith.Text
