import Docsmith.Proofs.Go.Depth
import Docsmith.Proofs.Go.Twins

namespace Docsmith.Go

open Grammar

/-!
# Parsing a source with comments inserted

* `markStop_result`, `inStep_origin`: the readers start in step, behind the byte order mark if there is one.
* `parse_result`: a source with comments inserted is parsed, and its tree is that of the source, with the comments.
-/

variable {code text : Bytes} {is : Insertions code} {root : Node}

/-- A note begins with white space or a slash. -/
theorem Note.head (h : Note text) : ∃ b rest, text = b :: rest ∧ (Bytes.isBlank b = true ∨ b = 0x2f) := by
  have hrow {indent body rest : Bytes} (hindent : Bytes.blank indent = true) :
      ∃ b rest', noteRow indent body ++ rest = b :: rest' ∧ (Bytes.isBlank b = true ∨ b = 0x2f) := by
    cases indent with
    | nil => exact ⟨_, _, rfl, .inr rfl⟩
    | cons b indent => exact ⟨b, _, rfl, .inl (List.all_eq_true.mp hindent b List.mem_cons_self)⟩
  obtain ⟨rows, tail, hrows, -, -, rfl⟩ := h
  cases hrows with
  | last hindent => exact hrow hindent
  | cons hindent =>
    rw [List.append_assoc]
    exact hrow hindent

theorem markStop_of_take (h : code.take 3 = [0xef, 0xbb, 0xbf]) : markStop code = 3 := by
  have hsplit := List.take_append_drop 3 code
  rw [h] at hsplit
  rw [← hsplit]
  rfl

/-- **The result begins with a byte order mark if the source does.** -/
theorem markStop_result (hn : Notes is) :
    markStop is.result = markStop code ∧ is.Before (markStop code) (markStop is.result) := by
  have hstart (e : Insertion) (he : e ∈ is.all) : markStop code ≤ e.start := by
    obtain ⟨k, hk, -⟩ := hn.note e he
    exact hk.markStop_le
  have hzero (hfree : ∀ e ∈ is.all, e.start ≠ 0) : is.Behind 0 0 := is.before_zero.behind hfree
  rcases markStop_cases code with hmark | ⟨hmark, rest, hcode⟩
  · suffices hresult : markStop is.result = 0 by
      rw [hmark, hresult]
      exact ⟨rfl, is.before_zero⟩
    refine (markStop_cases is.result).resolve_right fun ⟨_, rest, hresult⟩ => ?_
    have hsame : code.take 3 ≠ [0xef, 0xbb, 0xbf] := fun h => by
      rw [markStop_of_take h] at hmark
      cases hmark
    by_cases hins : ∃ e ∈ is.all, e.start = 0
    · -- a text does not begin with the first byte of a mark
      obtain ⟨e, he, hfirst⟩ := hins
      have hbefore := is.before_zero
      rw [← hfirst] at hbefore
      have hdrop := (hbefore.insert he).1
      rw [hfirst, List.drop_zero, hresult] at hdrop
      obtain ⟨_, -, -, hnote⟩ := hn.note e he
      obtain ⟨b, text, htext, hb⟩ : ∃ b text, e.text = b :: text ∧ (Bytes.isBlank b = true ∨ b = 0x2f) := by
        rcases hnote with ⟨-, hnote⟩ | ⟨text, htext, -⟩
        · exact hnote.head
        · exact ⟨_, text, htext, .inl rfl⟩
      rw [htext, List.cons_append, List.cons.injEq] at hdrop
      rw [← hdrop.1] at hb
      rcases hb with hb | hb <;> cases hb
    · have hbehind := hzero fun e he hfirst => hins ⟨e, he, hfirst⟩
      rcases is.next_cases 0 with hnone | ⟨e, he, hlt, hfirst⟩
      · have hdrop := hbehind.drop_eq hnone
        rw [List.drop_zero, List.drop_zero, hresult] at hdrop
        exact hsame (by rw [← hdrop]; rfl)
      · have horder := is.ordered e he
        have htake (n : Nat) (hn : n ≤ e.start) : code.take n = is.result.take n :=
          (hbehind.take_eq (n := n) (by omega) fun e' he' hlt' => by have := hfirst e' he' hlt'; omega).symm
        by_cases hthree : 3 ≤ e.start
        · exact hsame (by rw [htake 3 hthree, hresult]; rfl)
        · -- behind the first bytes of a mark a statement is under way
          obtain ⟨k, hk, hexposed, -⟩ := hn.note e he
          have hmarks (b : UInt8) (hb : b ∈ (code.drop 0).take e.start) : isSpecial b = false := by
            rw [List.drop_zero, htake _ (Nat.le_refl _), hresult] at hb
            have hb := List.take_subset_take_left _ (show e.start ≤ 3 by omega) hb
            simp only [List.take_succ_cons, List.take_zero, List.mem_cons, List.not_mem_nil, or_false] at hb
            rcases hb with rfl | rfl | rfl <;> decide
          have hfirm := (Joint.origin_of_markStop hmark).firm (Nat.ne_of_gt hlt)
            ⟨by rw [List.length_drop]; omega, hmarks⟩
          rw [Nat.zero_add] at hfirm
          rw [hk.unique hfirm] at hexposed
          cases hexposed
  · rw [hmark] at hstart
    have hlength : 3 ≤ code.length := by
      rw [hcode]
      simp
    have hbehind := hzero fun e he hfirst => by
      have := hstart e he
      omega
    have htake := hbehind.take_eq (n := 3) (by omega) fun e he _ => by have := hstart e he; omega
    rw [List.drop_zero, List.drop_zero] at htake
    rw [hmark, markStop_of_take (by rw [htake, hcode]; rfl)]
    exact ⟨rfl, hbehind.before (n := 3) (by omega) (by decide) fun e he _ => by have := hstart e he; omega⟩

/-- The readers begin in step. -/
theorem inStep_origin (hn : Notes is) :
    InStep is (.first code) { place := .origin code } { place := .origin is.result } := by
  -- a mark at the very start stays where it is, and every insertion comes after it
  obtain ⟨hsame, hbefore⟩ := markStop_result hn
  refine ⟨⟨?_, ?_, (Place.Within.origin code).advance _, (Place.Within.origin is.result).advance _, fun hline => ?_⟩,
    Place.sane_origin code, Place.sane_origin is.result, ?_⟩
  · exact (stands_origin code).joint
  · show is.Before (entry (.origin code)).offset (entry (.origin is.result)).offset
    rwa [offset_entry_origin, offset_entry_origin]
  · show is.result.startsLine (entry (.origin is.result)).offset = true
    rw [offset_entry_origin, hsame]
    -- the first mood is the start of a line exactly when no mark was skipped
    unfold Mood.first at hline
    split at hline
    · rename_i hzero
      rw [hzero]
      exact Bytes.startsLine_iff.mpr ⟨0, Nat.le_refl 0, .inl rfl, fun i hi hlt => absurd hlt (by omega)⟩
    · cases hline
  · show (entry (.origin code)).offset + 0 = (entry (.origin is.result)).offset + 0
    rw [offset_entry_origin, offset_entry_origin, hsame]

/-- **A source with comments inserted is parsed** as the source is, but for the comments. -/
theorem parse_result (hn : Notes is) (h : parse code = .ok root) : ∃ root', parse is.result = .ok root' ∧
    root'.kind = root.kind ∧ Along is (Grown is) root.children root'.children := by
  -- both sources are read at one depth
  have hdepth := parse_find code (Nat.le_add_right _ (60 * (is.result.length + 20)))
  have hdepth' := parse_find is.result (Nat.le_add_left _ (60 * (code.length + 20)))
  obtain ⟨out, hflow, -⟩ := moods_consistent.rule true .sourceFile
  have hk : Mood.first code ∈ moods.enter true .sourceFile := by
    unfold Mood.first
    split <;> decide
  have hlevel := (twins hn).find moods_consistent (60 * (code.length + 20) + 60 * (is.result.length + 20))
    hflow hk (inStep_origin hn)
  rw [h] at hdepth
  obtain ⟨hx, -⟩ | ⟨xs, s, ys, s', hx, hy, halong, -⟩ := hlevel.cases
  · rw [show rule = table.rule from rfl, hx] at hdepth
    cases hdepth
  · rw [show rule = table.rule from rfl, hx] at hdepth
    rw [show rule = table.rule from rfl, hy] at hdepth'
    cases hdepth
    cases hparse : parse is.result with
    | error row => rw [hparse] at hdepth'; cases hdepth'
    | ok root' =>
      rw [hparse] at hdepth'
      cases hdepth'
      exact ⟨_, rfl, rfl, halong⟩

end Docsmith.Go
