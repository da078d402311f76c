namespace Docsmith.Text

/-!
# The order of lists of texts

* `inOrder`: one list of texts comes no later than another, by the first place where they differ.
-/

/-- The first list comes no later than the second: their first difference decides, by code points,
    and a list comes before those that go on after it. -/
def inOrder : List String → List String → Bool
  | [], _ => true
  | _ :: _, [] => false
  | a :: as, b :: bs => a < b || (a == b && inOrder as bs)

end Docsmith.Text
