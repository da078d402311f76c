import Docsmith.Proofs.Keys
import Docsmith.Proofs.Source.Kept
import Docsmith.Proofs.Source.Rendering
import Docsmith.Proofs.Source.Rows
import Mathlib.Data.List.DropRight

namespace Docsmith

/-!
# Comments go alone

A comment goes with its whole lines when nothing else is on them, with the white space before it when it
ends its line, and else by itself.  So nothing but white space goes with it, and none of the white space
that goes with another one.

* `Bytes.padStart`: where the white space before an offset begins on its line, and
  `Bytes.lt_padStart`: whatever bounds white space before the offset does so before that.
* `Bytes.cut`: the stretch that goes with a piece of code, which is `Bytes.removalRange_eq`.
* `Bytes.Fenced`: something shows where a piece of code ends, and `Bytes.cut_le_cut`: so what goes with it
  does not meet what goes with a later piece.
* `Bytes.applyEdits_deletions`: what deletions leave of a source.
* `SourceTree.comments_go_alone`: what is left of a source when its comments go.
-/

namespace Bytes

variable {code : Bytes} {i n : Nat} {s s' : Nat × Nat} {spans : List (Nat × Nat)}

/-- A byte that is no white space stands at the offset. -/
def inkAt (code : Bytes) (i : Nat) : Bool := code[i]?.any fun x => !isBlank x

/-- A byte stands at the offset that bounds the white space of a line: a line feed, or no white space. -/
def boundAt (code : Bytes) (i : Nat) : Bool := code[i]?.any fun x => !isBlank x || x == newline

theorem boundAt_of_inkAt (h : code.inkAt i = true) : code.boundAt i = true := by
  obtain ⟨x, hx, hink⟩ := Option.any_eq_true _ _ |>.mp h
  exact (Option.any_eq_true _ _).mpr ⟨x, hx, by rw [hink, Bool.true_or]⟩

theorem inkAt_of_boundAt (h : code.boundAt i = false) : code.inkAt i = false := by
  by_contra hink
  rw [boundAt_of_inkAt (by simpa using hink)] at h
  cases h

theorem boundAt_newline (h : code[i]? = some newline) : code.boundAt i = true := by
  rw [boundAt, h]
  rfl

theorem lt_length_of_boundAt (h : code.boundAt i = true) : i < code.length := by
  obtain ⟨x, hx, -⟩ := Option.any_eq_true _ _ |>.mp h
  exact (List.getElem?_eq_some_iff.mp hx).1

/-- All is white space between two offsets if no ink stands there. -/
theorem blank_slice_iff {a b : Nat} :
    blank (code.slice a b) = true ↔ ∀ i, a ≤ i → i < b → code.inkAt i = false := by
  rw [slice_nat, blank, List.all_eq_true]
  constructor
  · intro h i ha hb
    refine Option.any_eq_false _ _ |>.mpr fun x hx => ?_
    rw [h x (mem_between hx ha hb), Bool.not_true]
  · intro h x hx
    obtain ⟨j, hj⟩ := List.mem_iff_getElem?.mp hx
    have hlength := (List.getElem?_eq_some_iff.mp hj).1
    rw [List.length_drop, List.length_take] at hlength
    rw [List.getElem?_drop, List.getElem?_take, if_pos (by omega)] at hj
    simpa using (Option.any_eq_false _ _).mp (h (a + j) (by omega) (by omega)) x hj

/-! ### The white space before an offset -/

/-- Where the white space begins that stands before an offset on its line. -/
def padStart (code : Bytes) (n : Nat) : Nat :=
  code.lineStart n + (trimRight (code.beforeOnLine n)).length

theorem padStart_le (code : Bytes) (n : Nat) : code.padStart n ≤ n := by
  have hfirst := lineStart_le code n
  have hlength := length_trimRight_le (code.beforeOnLine n)
  have hbefore : (code.beforeOnLine n).length ≤ n - code.lineStart n := by
    rw [beforeOnLine, slice_nat, List.length_drop, List.length_take]
    omega
  unfold padStart
  omega

/-- Only white space of the line stands there. -/
theorem boundAt_pad (hpad : code.padStart n ≤ i) (hi : i < n) : code.boundAt i = false := by
  refine Option.any_eq_false _ _ |>.mpr fun x hx => ?_
  have hline : code.lineStart n ≤ i := Nat.le_trans (Nat.le_add_right _ _) hpad
  have hfeed : x ≠ newline := by
    rintro rfl
    exact newline_not_mem_line code n (mem_between hx hline hi)
  have hplace : (code.beforeOnLine n)[i - code.lineStart n]? = some x := by
    rw [beforeOnLine, slice_nat, List.getElem?_drop, List.getElem?_take, if_pos (by omega),
      Nat.add_sub_cancel' hline, hx]
  have hblank : isBlank x = true := by
    have hsplit : trimRight (code.beforeOnLine n) ++ (code.beforeOnLine n).rtakeWhile isBlank
        = code.beforeOnLine n := List.rdropWhile_append_rtakeWhile
    rw [padStart] at hpad
    rw [← hsplit, List.getElem?_append_right (by omega)] at hplace
    exact List.mem_rtakeWhile_imp (List.mem_of_getElem? hplace)
  simp [hblank, hfeed]

/-- **Whatever bounds white space before an offset does so before the white space in front of it.** -/
theorem lt_padStart (hbound : code.boundAt i = true) (hi : i < n) : i < code.padStart n := by
  by_contra hle
  rw [boundAt_pad (by omega) hi] at hbound
  cases hbound

/-- The white space before an offset begins its line when nothing else stands before it there. -/
theorem padStart_of_blank (h : blank (code.beforeOnLine n) = true) : code.padStart n = code.lineStart n := by
  have hnone : trimRight (code.beforeOnLine n) = [] :=
    List.rdropWhile_eq_nil_iff.mpr (List.all_eq_true.mp h)
  rw [padStart, hnone, List.length_nil, Nat.add_zero]

/-! ### What goes with a piece of code -/

/-- The stretch that goes with a piece of code. -/
def cut (code : Bytes) (s : Nat × Nat) : Nat × Nat :=
  if blank (code.slice s.2 (code.lineEnd s.2)) then
    (code.padStart s.1, if blank (code.beforeOnLine s.1) then code.lineEnd s.2 else s.2)
  else s

theorem removalRange_eq (code : Bytes) (s : Nat × Nat) :
    code.removalRange s.1 s.2 = (((code.cut s).1 : Int), ((code.cut s).2 : Int)) := by
  have hpad := @padStart_of_blank code s.1
  unfold removalRange cut
  rw [beforeOnLine] at hpad ⊢
  dsimp only
  -- alone on its rows the comment takes them with it; behind code it takes the blanks before it; else itself
  split
  · rename_i halone
    obtain ⟨hbefore, hafter⟩ := Bool.and_eq_true_iff.mp halone
    rw [if_pos hafter, if_pos hbefore, hpad hbefore]
  · rename_i hcompany
    split
    · rename_i hafter
      have hbefore : ¬ blank (code.slice (code.lineStart s.1) s.1) = true := fun h =>
        hcompany (by rw [h, hafter, Bool.and_self])
      rw [if_neg hbefore]
      rfl
    · rfl

/-- White space on the line goes with a piece of code at most. -/
theorem padStart_le_cut (code : Bytes) (s : Nat × Nat) : code.padStart s.1 ≤ (code.cut s).1 := by
  unfold cut
  split
  · exact Nat.le_refl _
  · exact padStart_le code s.1

/-- What goes with a piece of code ends with it, or with a line on which nothing follows it. -/
theorem cut_snd (code : Bytes) (s : Nat × Nat) : (code.cut s).2 = s.2 ∨
    blank (code.slice s.2 (code.lineEnd s.2)) = true ∧ (code.cut s).2 = code.lineEnd s.2 := by
  unfold cut
  split
  case isFalse => exact .inl rfl
  case isTrue hafter =>
    split
    · exact .inr ⟨hafter, rfl⟩
    · exact .inl rfl

/-- What goes with a piece of code holds it. -/
theorem cut_spec (hs : s.2 ≤ code.length) :
    (code.cut s).1 ≤ s.1 ∧ s.2 ≤ (code.cut s).2 ∧ (code.cut s).2 ≤ code.length := by
  have hpad := padStart_le code s.1
  have hend := le_lineEnd hs
  have hlength := lineEnd_le code s.2
  unfold cut
  split
  · split
    · exact ⟨hpad, hend, hlength⟩
    · exact ⟨hpad, Nat.le_refl _, hs⟩
  · exact ⟨Nat.le_refl _, Nat.le_refl _, hs⟩

/-- Nothing but white space goes with a piece of code. -/
theorem inkAt_cut (hstart : (code.cut s).1 ≤ i) (hstop : i < (code.cut s).2) (hout : ¬ (s.1 ≤ i ∧ i < s.2)) :
    code.inkAt i = false := by
  unfold cut at hstart hstop
  split at hstart
  · rename_i hafter
    rw [if_pos hafter] at hstop
    by_cases hbefore : i < s.1
    · exact inkAt_of_boundAt (boundAt_pad hstart hbefore)
    · refine blank_slice_iff.mp hafter i (by omega) ?_
      dsimp only at hstop
      split at hstop
      · exact hstop
      · omega
  · rename_i hafter
    rw [if_neg hafter] at hstop
    omega

/-! ### What goes with pieces that do not meet -/

/-- Something bounds white space between an offset where a piece of code ends, or the last byte of it, and
    a later offset. -/
def Fenced (code : Bytes) (stop n : Nat) : Prop := ∃ i, code.boundAt i = true ∧ stop ≤ i + 1 ∧ i < n

/-- The first line feed is not found before there is one. -/
theorem lt_throughFirstNewline {xs : Bytes} {m : Nat} (h : newline ∉ xs.take m) (hm : m < xs.length) :
    m < xs.throughFirstNewline := by
  have hsplit := List.takeWhile_append_dropWhile (p := (· != newline)) (l := xs)
  have hlength := congrArg List.length hsplit
  rw [List.length_append] at hlength
  unfold throughFirstNewline
  cases hrest : xs.dropWhile (· != newline) with
  | nil => exact hm
  | cons x rest =>
    have hx : x = newline := by
      have hhead := List.head?_dropWhile_not (· != newline) xs
      rw [hrest] at hhead
      simpa using hhead
    rw [hrest, List.length_cons] at hlength
    rw [hrest] at hsplit
    dsimp only
    by_contra hle
    -- the line feed is one of the first bytes
    generalize xs.takeWhile (· != newline) = before at hsplit hlength
    refine h (List.mem_of_getElem? (i := before.length) ?_)
    rw [List.getElem?_take, if_pos (by omega), ← hsplit, List.getElem?_append_right (Nat.le_refl _),
      Nat.sub_self, List.getElem?_cons_zero, hx]

/-- A line goes on to what is on the row where it is. -/
theorem lt_lineEnd {a : Nat} (ha : a ≤ n) (hn : n < code.length) (hrow : code.rowAt a = code.rowAt n) :
    n < code.lineEnd a := by
  have hfirst : n - a < throughFirstNewline (code.drop a) := lt_throughFirstNewline
    (by rw [← List.drop_take]; exact (rowAt_eq_iff code ha).mp hrow) (by rw [List.length_drop]; omega)
  unfold lineEnd
  dsimp only
  rw [position_nat, Nat.min_eq_left (by omega)]
  omega

/-- **What goes with a piece of code does not meet what goes with a later one.** -/
theorem cut_le_cut (hfence : code.Fenced s.2 s'.1) (hink : code.inkAt s'.1 = true) :
    (code.cut s).2 ≤ (code.cut s').1 := by
  obtain ⟨i, hbound, hstop, hi⟩ := hfence
  have hpad := lt_padStart hbound hi
  have hcut := padStart_le_cut code s'
  rcases cut_snd code s with hend | ⟨hafter, hend⟩
  · omega
  · -- the whole line goes, so the later piece is on a later one
    have hrow : code.rowAt s.2 < code.rowAt s'.1 := by
      refine Nat.lt_of_le_of_ne (rowAt_mono code (by omega)) fun hsame => ?_
      have hline := lt_lineEnd (by omega) (lt_length_of_boundAt (boundAt_of_inkAt hink)) hsame
      rw [blank_slice_iff.mp hafter s'.1 (by omega) hline] at hink
      cases hink
    have hstart : code.rowAt (code.lineStart s'.1) = code.rowAt s'.1 :=
      rowAt_of_lineStart (Nat.le_refl _) (lineStart_le code s'.1)
    have hline := lineEnd_le_of_row (hrow.trans_eq hstart.symm)
    have hpadded : code.lineStart s'.1 ≤ code.padStart s'.1 := Nat.le_add_right _ _
    omega

/-! ### What deletions leave -/

/-- A stretch is deleted. -/
def deletion (r : Nat × Nat) : Edit := ⟨r.1, r.2, []⟩

/-- All is kept of bytes none of which is refused. -/
theorem sift_eq_self {keep : Nat → UInt8 → Bool} {xs : Bytes}
    (h : ∀ k b, xs[k]? = some b → keep (i + k) b = true) : sift keep i xs = xs := by
  induction xs generalizing i with
  | nil => rfl
  | cons b rest ih =>
    have hb : keep i b = true := h 0 b rfl
    have hrest : sift keep (i + 1) rest = rest := ih fun k c hk => by
      have hk := h (k + 1) c hk
      rwa [Nat.add_comm k 1, ← Nat.add_assoc] at hk
    rw [sift, if_pos hb, hrest]

/-- Selections that agree on the bytes there are keep the same ones. -/
theorem sift_congr {keep keep' : Nat → UInt8 → Bool} {xs : Bytes}
    (h : ∀ k b, xs[k]? = some b → keep (i + k) b = keep' (i + k) b) : sift keep i xs = sift keep' i xs := by
  induction xs generalizing i with
  | nil => rfl
  | cons b rest ih =>
    have hb : keep i b = keep' i b := h 0 b rfl
    have hrest : sift keep (i + 1) rest = sift keep' (i + 1) rest := ih fun k c hk => by
      have hk := h (k + 1) c hk
      rwa [Nat.add_comm k 1, ← Nat.add_assoc] at hk
    rw [sift, sift, hb, hrest]

/-- A selection of a selection. -/
theorem filter_sift (keep : Nat → UInt8 → Bool) (p : UInt8 → Bool) (i : Nat) (xs : Bytes) :
    (sift keep i xs).filter p = sift (fun i b => keep i b && p b) i xs := by
  induction xs generalizing i with
  | nil => rfl
  | cons b rest ih =>
    by_cases hkeep : keep i b = true
    · by_cases hp : p b = true <;> simp [sift, hkeep, hp, ih]
    · simp [sift, hkeep, ih]

theorem covered_iff : covered spans i = true ↔ ∃ s ∈ spans, s.1 ≤ i ∧ i < s.2 := by
  simp [covered]

/-- **Deletions of stretches that do not meet leave what lies in none of them.** -/
theorem applyEdits_deletions {cuts : List (Nat × Nat)} (hpair : cuts.Pairwise fun r r' => r.2 ≤ r'.1)
    (hin : ∀ r ∈ cuts, r.1 ≤ r.2) {pos : Nat} (hpos : ∀ r ∈ cuts, pos ≤ r.1) :
    code.applyEdits pos (cuts.map deletion) = sift (fun i _ => !covered cuts i) pos (code.drop pos) := by
  induction cuts generalizing pos with
  | nil =>
    rw [List.map_nil, applyEdits, slice_nat, List.take_length]
    exact (sift_eq_self fun k b _ => rfl).symm
  | cons r rest ih =>
    obtain ⟨hr, hrest⟩ := List.pairwise_cons.mp hpair
    have hle := hin r List.mem_cons_self
    have hstart := hpos r List.mem_cons_self
    have hlater := ih hrest (fun x hx => hin x (List.mem_cons_of_mem r hx)) hr
    -- what stands before the stretch, what is in it, and what follows it
    have hbefore : sift (fun i _ => !covered (r :: rest) i) pos (code.slice pos r.1) = code.slice pos r.1 := by
      refine sift_eq_self fun k b hk => ?_
      have hlength := (List.getElem?_eq_some_iff.mp hk).1
      rw [slice_nat, List.length_drop, List.length_take] at hlength
      rw [Bool.not_eq_true', ← Bool.not_eq_true, covered_iff]
      rintro ⟨x, hx, hxstart, -⟩
      rcases List.mem_cons.mp hx with rfl | hx
      · omega
      · have := hr x hx
        omega
    have hinside : sift (fun i _ => !covered (r :: rest) i) r.1 (code.slice r.1 r.2) = [] := by
      refine sift_eq_nil fun k b hk => ?_
      have hlength := (List.getElem?_eq_some_iff.mp hk).1
      rw [slice_nat, List.length_drop, List.length_take] at hlength
      rw [Bool.not_eq_false', covered_iff]
      exact ⟨r, List.mem_cons_self, by omega, by omega⟩
    have hbehind : sift (fun i _ => !covered (r :: rest) i) r.2 (code.drop r.2)
        = sift (fun i _ => !covered rest i) r.2 (code.drop r.2) := by
      refine sift_congr fun k b _ => ?_
      have hpast : ¬ r.2 + k < r.2 := by omega
      simp [covered, hpast]
    have hmade : ¬ (deletion r).start < pos := by
      dsimp only [deletion]
      omega
    rw [List.map_cons, applyEdits, if_neg hmade, deletion, List.append_nil, hlater, sift_drop _ code hstart,
      sift_drop _ code hle, hbefore, hinside, hbehind, List.nil_append]

/-- Pieces of code in order, each of which begins with ink, and between which there are bounds of white
    space. -/
structure Apart (code : Bytes) (spans : List (Nat × Nat)) : Prop where
  inside : ∀ s ∈ spans, s.1 < s.2 ∧ s.2 ≤ code.length
  ink : ∀ s ∈ spans, code.inkAt s.1 = true
  fenced : spans.Pairwise fun s s' => code.Fenced s.2 s'.1

/-- A piece is part of what goes with it. -/
theorem Apart.covered_cut (h : code.Apart spans) (hi : covered spans i = true) :
    covered (spans.map code.cut) i = true := by
  obtain ⟨s, hs, hstart, hstop⟩ := covered_iff.mp hi
  have hcut := cut_spec (h.inside s hs).2
  exact covered_iff.mpr ⟨_, List.mem_map_of_mem hs, by omega, by omega⟩

/-- Nothing but white space goes with pieces of code. -/
theorem inkAt_of_covered_cut (hi : covered (spans.map code.cut) i = true) (hout : covered spans i = false) :
    code.inkAt i = false := by
  obtain ⟨r, hr, hstart, hstop⟩ := covered_iff.mp hi
  obtain ⟨s, hs, rfl⟩ := List.mem_map.mp hr
  refine inkAt_cut hstart hstop fun hin => ?_
  rw [covered_iff.mpr ⟨s, hs, hin⟩] at hout
  cases hout

/-- What goes with such pieces does not meet. -/
theorem Apart.pairwise_cut (h : code.Apart spans) :
    (spans.map code.cut).Pairwise fun r r' => r.2 ≤ r'.1 :=
  List.pairwise_map.mpr (h.fenced.imp_of_mem fun _ hs' hfence => cut_le_cut hfence (h.ink _ hs'))

theorem Apart.cut_lt (h : code.Apart spans) {r : Nat × Nat} (hr : r ∈ spans.map code.cut) : r.1 < r.2 := by
  obtain ⟨s, hs, rfl⟩ := List.mem_map.mp hr
  have hin := h.inside s hs
  have hcut := cut_spec hin.2
  omega

end Bytes

/-! ### The comments of a source -/

/-- An edit under a new key stands behind the others. -/
theorem EditSet.put_of_not_mem {key : String} {e : Edit} {entries : List (String × Edit)}
    (h : key ∉ entries.map (·.1)) : put key e entries = entries ++ [(key, e)] := by
  induction entries with
  | nil => rfl
  | cons x rest ih =>
    obtain ⟨k, old⟩ := x
    rw [List.map_cons, List.mem_cons, not_or] at h
    rw [put_cons, if_neg fun hk => h.1 hk.symm, ih h.2, List.cons_append]

namespace SourceTree

open Bytes

variable {t : SourceTree}

/-- Edits under different keys all stand in the table. -/
theorem entries_editAll (hclean : t.edits.entries = []) {calls : List (String × Edit)}
    (h : (calls.map (·.1)).Nodup) : (t.editAll calls).edits.entries = calls := by
  induction calls using List.reverseRecOn with
  | nil => rw [editAll, List.foldl_nil, hclean]
  | append_singleton calls c ih =>
    rw [List.map_append, List.nodup_append] at h
    have hnew : c.1 ∉ (t.editAll calls).edits.entries.map (·.1) := by
      rw [ih h.1]
      exact fun hmem => h.2.2 _ hmem c.1 (by simp) rfl
    have hput := EditSet.put_of_not_mem (e := c.2) hnew
    rw [ih h.1] at hput
    rw [editAll, List.foldl_append]
    exact (congrArg _ (ih h.1)).trans hput

/-- Where the comments of a source stand. -/
def commentSpans (t : SourceTree) : List (Nat × Nat) :=
  (t.root.findAll ["comment"]).map fun c => (c.start, c.stop)

/-- The key under which a stretch is deleted. -/
def commentKey (r : Nat × Nat) : String := "comment:" ++ toString r.1

theorem commentKey_inj {r r' : Nat × Nat} (h : commentKey r = commentKey r') : r.1 = r'.1 :=
  toString_nat_inj.mp ((String.append_right_inj _).mp h)

/-- Comments are deleted with what goes with them. -/
theorem dropComments_eq (t : SourceTree) : t.dropComments
    = t.editAll ((t.commentSpans.map t.code.cut).map fun r => (commentKey r, deletion r)) := by
  -- the edits are to the tree, and the code stays
  unfold dropComments commentSpans
  generalize hcode : t.code = code
  generalize t.root.findAll ["comment"] = comments
  induction comments generalizing t with
  | nil => rfl
  | cons c rest ih =>
    have hrange : t.code.removalRange c.start c.stop
        = (((code.cut (c.start, c.stop)).1 : Int), ((code.cut (c.start, c.stop)).2 : Int)) := by
      rw [hcode]
      exact removalRange_eq code (c.start, c.stop)
    rw [List.foldl_cons, hrange]
    exact ih _ hcode

/-- The deletion of each comment stands in the table, and they are in order. -/
theorem ordered_dropComments (hclean : t.edits.entries = []) (h : t.code.Apart t.commentSpans) :
    t.dropComments.edits.entries.map (·.2) = (t.commentSpans.map t.code.cut).map deletion ∧
      t.dropComments.edits.ordered = (t.commentSpans.map t.code.cut).map deletion := by
  have hpair := h.pairwise_cut
  have hless : (t.commentSpans.map t.code.cut).Pairwise fun r r' => r.1 < r'.1 :=
    hpair.imp_of_mem fun hr _ hle => Nat.lt_of_lt_of_le (h.cut_lt hr) hle
  have hkeys : (((t.commentSpans.map t.code.cut).map fun r => (commentKey r, deletion r)).map (·.1)).Nodup := by
    rw [List.map_map, List.nodup_iff_pairwise_ne, List.pairwise_map]
    exact hless.imp fun hlt hkey => Nat.ne_of_lt hlt (commentKey_inj hkey)
  have hentries : t.dropComments.edits.entries.map (·.2) = (t.commentSpans.map t.code.cut).map deletion := by
    rw [dropComments_eq, entries_editAll hclean hkeys, List.map_map]
    rfl
  refine ⟨hentries, ?_⟩
  rw [EditSet.ordered, hentries]
  refine List.mergeSort_of_pairwise (List.pairwise_map.mpr (hless.imp fun hlt => ?_))
  exact Edit.before_iff.mpr (.inl (Int.ofNat_lt.mpr hlt))

/-- **What is left when comments go lies in none of what goes with them.** -/
theorem render_dropComments (hclean : t.edits.entries = []) (h : t.code.Apart t.commentSpans) :
    t.dropComments.render
      = sift (fun i _ => !covered (t.commentSpans.map t.code.cut) i) 0 t.code := by
  have hcode : t.dropComments.code = t.code := by rw [dropComments_eq, code_editAll]
  have hleft : t.code.applyEdits (0 : Nat) ((t.commentSpans.map t.code.cut).map deletion)
      = sift (fun i _ => !covered (t.commentSpans.map t.code.cut) i) 0 (t.code.drop 0) :=
    applyEdits_deletions h.pairwise_cut (fun r hr => Nat.le_of_lt (h.cut_lt hr)) fun r _ => Nat.zero_le r.1
  rw [render, EditSet.render, hcode, (ordered_dropComments hclean h).2]
  exact hleft

end SourceTree

/-- A piece of code that may be a comment: it begins with ink, and ends with ink, before a line feed, or
    with the code. -/
structure Bytes.CommentAt (code : Bytes) (s : Nat × Nat) : Prop where
  nonempty : s.1 < s.2
  bounded : s.2 ≤ code.length
  first : code.inkAt s.1 = true
  last : code.inkAt (s.2 - 1) = true ∨ code[s.2]? = some newline ∨ s.2 = code.length

instance (code : Bytes) (s : Nat × Nat) : Decidable (code.CommentAt s) :=
  decidable_of_iff (s.1 < s.2 ∧ s.2 ≤ code.length ∧ code.inkAt s.1 = true ∧
      (code.inkAt (s.2 - 1) = true ∨ code[s.2]? = some Bytes.newline ∨ s.2 = code.length))
    ⟨fun h => ⟨h.1, h.2.1, h.2.2.1, h.2.2.2⟩, fun h => ⟨h.nonempty, h.bounded, h.first, h.last⟩⟩

/-- Something bounds white space between such pieces. -/
theorem Bytes.apart_of_comments {code : Bytes} {spans : List (Nat × Nat)}
    (hcomments : ∀ s ∈ spans, code.CommentAt s) (hordered : spans.Pairwise fun s s' => s.2 ≤ s'.1) :
    code.Apart spans where
  inside s hs := ⟨(hcomments s hs).nonempty, (hcomments s hs).bounded⟩
  ink s hs := (hcomments s hs).first
  fenced := by
    refine hordered.imp_of_mem fun {s s'} hs hs' hle => ?_
    have hnonempty := (hcomments s hs).nonempty
    have hink := (hcomments s' hs').first
    have hlength := lt_length_of_boundAt (boundAt_of_inkAt hink)
    rcases (hcomments s hs).last with hlast | hfeed | hend
    · exact ⟨s.2 - 1, boundAt_of_inkAt hlast, by omega, by omega⟩
    · refine ⟨s.2, boundAt_newline hfeed, by omega, Nat.lt_of_le_of_ne hle fun heq => ?_⟩
      -- a line feed is no ink
      rw [inkAt, ← heq, hfeed] at hink
      cases hink
    · omega

/-- **Comments go alone**: what goes with each of them is white space, no edit takes the place of another
    one or is dropped, and all that is ink outside of comments stays in its order. -/
theorem SourceTree.comments_go_alone {t : SourceTree} (hclean : t.edits.entries = [])
    (hcomments : ∀ s ∈ t.commentSpans, t.code.CommentAt s)
    (hordered : t.commentSpans.Pairwise fun s s' => s.2 ≤ s'.1) :
    let ranges := t.commentSpans.map fun s => t.code.removalRange s.1 s.2
    let deletions := ranges.map fun r => Edit.mk r.1 r.2 []
    (∀ s ∈ t.commentSpans, (t.code.removalRange s.1 s.2).1 ≤ s.1 ∧ s.2 ≤ (t.code.removalRange s.1 s.2).2) ∧
      (ranges.Pairwise fun r r' => r.2 ≤ r'.1) ∧ (ranges.map (·.1)).Nodup ∧
      t.dropComments.edits.entries.map (·.2) = deletions ∧
      keptFrom 0 t.dropComments.edits.ordered = deletions ∧
      (∃ gone : Nat → Bool, (∀ i, gone i = true → t.code.inkAt i = false) ∧ t.dropComments.render
        = Bytes.sift (fun i _ => !Bytes.covered t.commentSpans i && !gone i) 0 t.code) ∧
      t.dropComments.render.filter (fun x => !Bytes.isBlank x) = t.code.ink t.commentSpans := by
  intro ranges deletions
  have hapart := Bytes.apart_of_comments hcomments hordered
  have hpair := hapart.pairwise_cut
  have hranges : ranges = (t.commentSpans.map t.code.cut).map fun r => ((r.1 : Int), (r.2 : Int)) := by
    rw [List.map_map]
    exact List.map_congr_left fun s _ => Bytes.removalRange_eq t.code s
  have hdeletions : deletions = (t.commentSpans.map t.code.cut).map Bytes.deletion := by
    simp only [deletions, hranges, List.map_map]
    rfl
  obtain ⟨hentries, hsorted⟩ := ordered_dropComments hclean hapart
  have hrender := render_dropComments hclean hapart
  refine ⟨?_, ?_, ?_, ?_, ?_, ?_, ?_⟩
  -- each range holds its comment, and the ranges do not meet
  · intro s hs
    have hcut := Bytes.cut_spec (hapart.inside s hs).2
    rw [Bytes.removalRange_eq]
    dsimp only
    omega
  · rw [hranges, List.pairwise_map]
    exact hpair.imp Int.ofNat_le.mpr
  · rw [hranges, List.map_map, List.nodup_iff_pairwise_ne, List.pairwise_map]
    refine hpair.imp_of_mem fun hr _ hle heq => ?_
    have hlt := hapart.cut_lt hr
    dsimp only [Function.comp_apply] at heq
    omega
  · rw [hentries, hdeletions]
  · rw [hsorted, hdeletions]
    refine keptFrom_eq_self (List.pairwise_map.mpr (hpair.imp Int.ofNat_le.mpr)) fun e he => ?_
    obtain ⟨r, -, rfl⟩ := List.mem_map.mp he
    exact Int.natCast_nonneg r.1
  -- what goes besides the comments is what the cuts add to them, and all of that is blank
  · refine ⟨fun i => Bytes.covered (t.commentSpans.map t.code.cut) i && !Bytes.covered t.commentSpans i,
      fun i hi => ?_, ?_⟩
    · obtain ⟨hcut, hout⟩ := Bool.and_eq_true_iff.mp hi
      exact Bytes.inkAt_of_covered_cut hcut (by simpa using hout)
    · rw [hrender]
      refine Bytes.sift_congr fun k b _ => ?_
      simp only [Nat.zero_add]
      cases hspan : Bytes.covered t.commentSpans k
      · simp
      · simp [hapart.covered_cut hspan]
  -- so the ink that is left is the ink outside of the comments, byte by byte
  · rw [hrender, Bytes.filter_sift, Bytes.ink]
    refine Bytes.sift_congr fun k b hb => ?_
    simp only [Bytes.isInk, Nat.zero_add]
    cases hspan : Bytes.covered t.commentSpans k
    -- a byte that the cut adds is blank, and would not have counted as ink in any case
    · cases hcut : Bytes.covered (t.commentSpans.map t.code.cut) k
      · simp
      · have hink := (Option.any_eq_false _ _).mp (Bytes.inkAt_of_covered_cut hcut hspan) b hb
        simpa using hink
    · simp [hapart.covered_cut hspan]

/-- Two comments in a row of which the second ends the line, one that is alone on its line and ends with a
    space, and one at the end of the source. -/
theorem SourceTree.comments_go_alone_of_four :
    let comment (start stop : Nat) := Node.mk { kind := "comment", extent := ⟨start, stop, 0, 0⟩ } []
    let t : SourceTree := ⟨Text.encode "a /* b */ /* c */\n# d \n\nb # e",
      .mk { kind := "source", extent := ⟨0, 29, 0, 3⟩ } [comment 2 9, comment 10 17, comment 18 22, comment 26 29],
      {}⟩
    (∀ s ∈ t.commentSpans, t.code.CommentAt s) ∧ t.commentSpans.Pairwise (fun s s' => s.2 ≤ s'.1) ∧
      t.dropComments.edits.entries.map (·.2) = [⟨2, 9, []⟩, ⟨9, 17, []⟩, ⟨18, 23, []⟩, ⟨25, 29, []⟩] ∧
      t.dropComments.render.filter (fun x => !Bytes.isBlank x) = Text.encode "ab" := by
  intro comment t
  have hcomments : ∀ s ∈ t.commentSpans, t.code.CommentAt s := by decide +kernel
  have hordered : t.commentSpans.Pairwise fun s s' => s.2 ≤ s'.1 := by decide +kernel
  obtain ⟨-, -, -, hentries, -, -, hink⟩ := comments_go_alone rfl hcomments hordered
  exact ⟨hcomments, hordered, hentries.trans (by decide +kernel), hink.trans (by decide +kernel)⟩

end Docsmith
