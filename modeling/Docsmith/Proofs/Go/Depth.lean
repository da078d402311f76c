import Docsmith.Proofs.Go.Regular
import Docsmith.Proofs.Grammar.Depth

namespace Docsmith.Go

open Grammar

/-!
# The depth of the grammar of Go

Between two tokens the rules of Go go down fewer than sixty levels.  So the parser finds at its depth what it finds at
any larger one.

* `idle`, `idles`: the terminals and productions that may be read without moving on, and `table_progress`.
* `heights`: the levels that the productions go down before they move on, and `heights_spec`.
* `parse_find`: whether and how a source is parsed, at any depth that is large enough.
-/

variable {code : Bytes} {root : Node}

/-- The terminals that read no token. -/
def idle (t : Terminal) : Bool :=
  match t.form with
  | .sameLine => true
  | .finish => true
  | _ => false

/-- The productions that may be read without moving on. -/
def idles : Production → Bool
  | .sourceFile => true
  | .statements => true
  | .fieldList => true
  | .interfaceBody => true
  | _ => false

/-- The levels that the productions go down before they move on. -/
def heights : Production → Nat
  | .sourceFile => 53
  | .topLevel => 6
  | .statement => 48
  | .declaration => 5
  | .simple => 32
  | .block => 3
  | .statements => 52
  | .constSpec => 5
  | .varSpec => 5
  | .typeSpec => 6
  | .importSpec => 5
  | .ifStatement => 3
  | .forStatement => 3
  | .switchStatement => 3
  | .selectStatement => 3
  | .caseClause => 4
  | .expression _ => 29
  | .operand _ => 26
  | .suffix => 4
  | .expressions => 32
  | .argument => 30
  | .typeOrExpression => 31
  | .literalValue => 3
  | .element => 32
  | .type => 13
  | .typeName => 7
  | .typeArguments => 3
  | .typeParameters => 3
  | .typeElement => 16
  | .parameters => 3
  | .parameter => 18
  | .result => 15
  | .fieldList => 16
  | .interfaceBody => 21

/-- The levels that are granted for each byte. -/
def grant : Nat := 60

/-- A form finds nothing at the end of the source. -/
theorem size_of_scan_nil {form : Form} {kind : String} {named : Bool} {size : Nat}
    (h : form.scan [] = some (kind, named, size)) : size = 0 := by
  -- on no bytes every form but a symbol finds nothing or a statement's end of size zero
  cases form with
  | symbol accepted rivals =>
    simp only [Form.scan] at h
    split at h
    · rename_i text hlongest
      split at h
      · cases h
        have hstarts := startsWith_of_longestOf hlongest
        -- a symbol found on no bytes would have to be the empty word
        cases hchars : kind.toList with
        | nil =>
          rw [String.toList_eq_nil_iff.mp hchars]
          rfl
        | cons c cs =>
          rw [Text.encode, hchars] at hstarts
          have hpos := c.utf8Size_pos
          rw [← String.length_utf8EncodeChar] at hpos
          cases hfirst : String.utf8EncodeChar c with
          | nil => rw [hfirst] at hpos; cases hpos
          | cons b rest =>
            rw [Text.encodeChars, List.flatMap_cons, hfirst] at hstarts
            cases hstarts
      · cases h
    · cases h
  | _ => cases h <;> rfl

/-- Reading a terminal moves on, unless it reads no token. -/
theorem table_progress : table.Progress (fun s => s.place.rest.length) idle idles where
  conserves {m t s xs s'} h := by
    -- offset and rest together are the code, whatever a terminal reads of it
    obtain ⟨n, hplace⟩ := readTerminal_leads h
    show s'.place.offset + s'.place.rest.length = s.place.offset + s.place.rest.length ∧ _
    rw [hplace, Place.offset_advance, Place.rest_advance, List.length_drop]
    omega
  moves {m t s xs s'} h ht := by
    rcases readTerminal_cases h with ⟨hform, -⟩ |
      ⟨lines, steps, ⟨hform, -⟩ | ⟨kind, named, size, hsize, hscan, -, hplace⟩⟩
    · rw [idle, hform] at ht
      cases ht
    · rw [idle, hform] at ht
      cases ht
    -- only the token's own bytes count; what `extras` skipped before it can only help
    · obtain ⟨n, hleads⟩ := (Place.Leads.advance s.place (markLength s.place)).trans (extras_leads lines steps _)
      have hlength := congrArg (List.length ∘ Place.rest) hleads
      cases hrest : (extras lines steps (s.place.advance (markLength s.place))).2.rest with
      | nil =>
        rw [hrest] at hscan
        exact absurd (size_of_scan_nil hscan) hsize
      | cons b rest =>
        rw [Function.comp_apply, Function.comp_apply, hrest, Place.rest_advance, List.length_drop,
          List.length_cons] at hlength
        rw [hplace, Place.rest_advance, hrest, List.length_drop, List.length_cons]
        omega
  -- the tables of idle terminals are decided rule by rule
  idles p := by
    cases p
    all_goals first | decide +kernel | (rename_i header; cases header <;> decide +kernel)

theorem heights_spec (p : Production) : (rule p).height idle idles grant heights ≤ heights p := by
  cases p
  all_goals first | decide +kernel | (rename_i header; cases header <;> decide +kernel)

/-- **Whether and how a source is parsed**, at any depth that is large enough. -/
theorem parse_find (code : Bytes) {depth : Nat} (hdepth : 60 * (code.length + 20) ≤ depth) :
    (parse code).toOption = (table.find depth true (rule .sourceFile) { place := .origin code }).map fun x =>
      .mk { kind := "source_file", extent := ⟨0, x.2.place.offset, 0, x.2.place.row⟩ } x.1 := by
  have hheight : (rule .sourceFile).height idle idles grant heights ≤ 53 := heights_spec .sourceFile
  -- more fuel than the height allows changes nothing, so the parser's own depth can be taken
  have hsame : table.find depth true (rule .sourceFile) { place := .origin code }
      = table.find (60 * (code.length + 20)) true (rule .sourceFile) { place := .origin code } := by
    refine Table.find_of_height table_progress (by decide) heights_spec ?_ ?_
    all_goals
      show _ + 60 * code.length ≤ _
      omega
  rw [hsame, ← Table.parsed?_read _ _ _ _ {}]
  unfold parse
  dsimp only
  split
  · rename_i heq
    rw [heq]
    rfl
  · rename_i heq
    rw [heq]
    rfl

end Docsmith.Go
