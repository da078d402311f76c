import Docsmith.Proofs.Grammar.Laid
import Docsmith.Source.Edit

namespace Docsmith

/-!
# Insertions into a source

A text that is inserted in front of some code takes the place of the white space there.  Every other byte of the source
is in the result, so that an offset has a counterpart there.  Where a text is inserted, there is one before the text and
one behind it.

* `Insertion`, `Insertions`: a text with its place, and texts with places one after another.
* `Bytes.splice`, `Insertions.result`: the source with the texts inserted.
* `Insertions.Before`, `Insertions.Behind`: the counterparts of an offset.
* `Before.behind`, `Behind.before`, `Before.insert`: how they go on with the source.
* `Behind.slice_eq`: a stretch in which nothing is inserted is the same in the result.
* `Bytes.applyEdits_eq_splice`: edits that insert texts.
-/

/-- A text that takes the place of the white space between an offset and the code behind it. -/
structure Insertion where
  start : Nat
  target : Nat
  text : Bytes

/-- The source from an offset on, with texts inserted. -/
def Bytes.splice (code : Bytes) : Nat → List Insertion → Bytes
  | o, [] => code.drop o
  | o, e :: es => (code.take e.start).drop o ++ (e.text ++ code.splice e.target es)

/-- Insertions into a source, one after another. -/
structure Insertions (code : Bytes) where
  all : List Insertion
  ordered : ∀ e ∈ all, e.start ≤ e.target ∧ e.target < code.length
  apart : all.Pairwise fun e e' => e.target < e'.start

variable {code : Bytes} {es : List Insertion} {e : Insertion} {a b a' b' o o' n : Nat}

/-- What is before all texts comes first. -/
theorem Bytes.splice_eq (h : ∀ e ∈ es, o + n ≤ e.start) :
    code.splice o es = (code.drop o).take n ++ code.splice (o + n) es := by
  have hsplit (xs : Bytes) : xs.drop o = (xs.drop o).take n ++ xs.drop (o + n) := by
    rw [← List.drop_drop, List.take_append_drop]
  cases es with
  | nil => exact hsplit code
  | cons e es =>
    have hle := h e List.mem_cons_self
    have hsame : ((code.take e.start).drop o).take n = (code.drop o).take n := by
      rw [List.drop_take, List.take_take, Nat.min_eq_left (by omega)]
    rw [splice, splice, hsplit (code.take e.start), hsame, List.append_assoc]

namespace Insertions

/-- The source with all texts inserted. -/
def result (is : Insertions code) : Bytes := code.splice 0 is.all

/-- An offset and its counterpart, before the text if there is one. -/
structure Before (is : Insertions code) (o o' : Nat) : Prop where
  outside : ∀ e ∈ is.all, o ≤ e.start ∨ e.target < o
  rest : is.result.drop o' = code.splice o (is.all.filter (o ≤ ·.start))
  bounded : o ≤ code.length
  bounded' : o' ≤ is.result.length

/-- An offset and its counterpart, behind the text if there is one. -/
structure Behind (is : Insertions code) (o o' : Nat) : Prop where
  outside : ∀ e ∈ is.all, o < e.start ∨ e.target ≤ o
  rest : is.result.drop o' = code.splice o (is.all.filter (o < ·.start))
  bounded : o ≤ code.length
  bounded' : o' ≤ is.result.length

variable {is : Insertions code}

/-- Behind an offset no text is inserted, or one is first. -/
theorem next_cases (is : Insertions code) (o : Nat) : (∀ e ∈ is.all, e.start ≤ o) ∨
    ∃ e ∈ is.all, o < e.start ∧ ∀ e' ∈ is.all, o < e'.start → e.start ≤ e'.start := by
  cases hpending : is.all.filter (o < ·.start) with
  | nil => exact .inl fun e he => by simpa using List.filter_eq_nil_iff.mp hpending e he
  | cons e later =>
    have hmem (x : Insertion) : x ∈ e :: later ↔ x ∈ is.all ∧ o < x.start := by
      rw [← hpending, List.mem_filter, decide_eq_true_eq]
    obtain ⟨he, hlt⟩ := (hmem e).mp List.mem_cons_self
    refine .inr ⟨e, he, hlt, fun e' he' hlt' => ?_⟩
    have hapart := is.apart.sublist (List.filter_sublist (p := fun x => decide (o < x.start)))
    rw [hpending] at hapart
    rcases List.mem_cons.mp ((hmem e').mpr ⟨he', hlt'⟩) with rfl | hlater
    · exact Nat.le_refl _
    · have hfirst := List.rel_of_pairwise_cons hapart hlater
      have horder := is.ordered e he
      omega

/-- The beginning of the source. -/
theorem before_zero (is : Insertions code) : is.Before 0 0 where
  outside e _ := .inl (Nat.zero_le _)
  rest := by
    rw [List.filter_eq_self.mpr fun e _ => decide_eq_true (Nat.zero_le e.start)]
    rfl
  bounded := Nat.zero_le _
  bounded' := Nat.zero_le _

/-- Where nothing is inserted, there is one counterpart only. -/
theorem Before.behind (h : is.Before o o') (hfree : ∀ e ∈ is.all, e.start ≠ o) : is.Behind o o' where
  outside e he := (h.outside e he).imp (fun hle => Nat.lt_of_le_of_ne hle (hfree e he).symm) Nat.le_of_lt
  rest := by
    rw [h.rest]
    congr 1
    refine List.filter_congr fun e he => ?_
    have hne := hfree e he
    rw [decide_eq_decide]
    omega
  bounded := h.bounded
  bounded' := h.bounded'

theorem Before.unique (h : is.Before o a) (h' : is.Before o b) : a = b := by
  have hlength := congrArg List.length (h.rest.trans h'.rest.symm)
  have ha := h.bounded'
  have hb := h'.bounded'
  rw [List.length_drop, List.length_drop] at hlength
  omega

/-- The bytes up to the next text are the same. -/
theorem Behind.take_eq (h : is.Behind o o') (hn : o + n ≤ code.length)
    (hfree : ∀ e ∈ is.all, o < e.start → o + n ≤ e.start) : (is.result.drop o').take n = (code.drop o).take n := by
  rw [h.rest, Bytes.splice_eq, List.take_left']
  · rw [List.length_take, List.length_drop]
    omega
  · intro e he
    obtain ⟨he, hlt⟩ := List.mem_filter.mp he
    exact hfree e he (of_decide_eq_true hlt)

/-- Some bytes further on, but not beyond the next text. -/
theorem Behind.before (h : is.Behind o o') (hn : o + n ≤ code.length) (hpos : 0 < n)
    (hfree : ∀ e ∈ is.all, o < e.start → o + n ≤ e.start) : is.Before (o + n) (o' + n) := by
  have hbounded := h.bounded'
  -- no insertion starts inside the `n` bytes, so those that come after are the same ones
  have hfilter : is.all.filter (o < ·.start) = is.all.filter (o + n ≤ ·.start) := by
    refine List.filter_congr fun e he => ?_
    have hle := hfree e he
    rw [decide_eq_decide]
    omega
  -- the bytes are in the result as they are in the code, and the insertions only come behind
  have hsplit : is.result.drop o' = (code.drop o).take n ++ code.splice (o + n) (is.all.filter (o + n ≤ ·.start)) := by
    rw [h.rest, hfilter]
    exact Bytes.splice_eq fun e he => of_decide_eq_true (List.mem_filter.mp he).2
  have hlength : ((code.drop o).take n).length = n := by
    rw [List.length_take, List.length_drop]
    omega
  refine ⟨fun e he => (h.outside e he).imp (hfree e he) (by omega), ?_, hn, ?_⟩
  · rw [← List.drop_drop, hsplit, List.drop_left' hlength]
  · have htotal := congrArg List.length hsplit
    rw [List.length_drop, List.length_append, hlength] at htotal
    omega

/-- Behind the last text all is the same. -/
theorem Behind.drop_eq (h : is.Behind o o') (hfree : ∀ e ∈ is.all, e.start ≤ o) :
    is.result.drop o' = code.drop o := by
  rw [h.rest, List.filter_eq_nil_iff.mpr fun e he => by simpa using hfree e he]
  rfl

/-- **At its place a text comes before what is behind it.** -/
theorem Before.insert (h : is.Before e.start o') (he : e ∈ is.all) :
    is.result.drop o' = e.text ++ is.result.drop (o' + e.text.length) ∧ is.Behind e.target (o' + e.text.length) := by
  obtain ⟨earlier, later, hall⟩ := List.append_of_mem he
  have hordered := is.ordered
  have hapart := is.apart
  have horder := hordered e he
  rw [hall] at hapart
  obtain ⟨-, hlater, hearlier⟩ := List.pairwise_append.mp hapart
  have hbefore (x : Insertion) (hx : x ∈ earlier) : x.start ≤ x.target ∧ x.target < e.start :=
    ⟨(hordered x (by rw [hall]; exact List.mem_append_left _ hx)).1, hearlier x hx e List.mem_cons_self⟩
  have hafter (x : Insertion) (hx : x ∈ later) : e.target < x.start := List.rel_of_pairwise_cons hlater hx
  -- of the insertions that are not done, this one is the first
  have hpending : is.all.filter (e.start ≤ ·.start) = e :: is.all.filter (e.target < ·.start) := by
    have hnone : earlier.filter (e.start ≤ ·.start) = [] :=
      List.filter_eq_nil_iff.mpr fun x hx => by have := hbefore x hx; simp; omega
    have hnone' : earlier.filter (e.target < ·.start) = [] :=
      List.filter_eq_nil_iff.mpr fun x hx => by have := hbefore x hx; simp; omega
    have hall' : later.filter (e.start ≤ ·.start) = later :=
      List.filter_eq_self.mpr fun x hx => by have := hafter x hx; simp; omega
    have hall'' : later.filter (e.target < ·.start) = later :=
      List.filter_eq_self.mpr fun x hx => by simpa using hafter x hx
    rw [hall, List.filter_append, List.filter_append, hnone, hnone', List.filter_cons_of_pos (by simp),
      List.filter_cons_of_neg (by simpa using horder.1), hall', hall'']
    rfl
  have hdrop : is.result.drop o' = e.text ++ code.splice e.target (is.all.filter (e.target < ·.start)) := by
    rw [h.rest, hpending, Bytes.splice, List.drop_take_self, List.nil_append]
  have hbehind : is.result.drop (o' + e.text.length) = code.splice e.target (is.all.filter (e.target < ·.start)) := by
    rw [← List.drop_drop, hdrop, List.drop_left]
  refine ⟨by rw [hbehind, hdrop], ⟨fun x hx => ?_, hbehind, Nat.le_of_lt horder.2, ?_⟩⟩
  · rw [hall] at hx
    rcases List.mem_append.mp hx with hx | hx
    · have := hbefore x hx
      omega
    · rcases List.mem_cons.mp hx with rfl | hx
      · exact .inr (Nat.le_refl _)
      · exact .inl (hafter x hx)
  · have hlength := congrArg List.length hdrop
    rw [List.length_drop, List.length_append] at hlength
    have hbounded := h.bounded'
    omega

/-- **A stretch in which nothing is inserted is the same** in the result. -/
theorem Behind.slice_eq (h : is.Behind a a') (h' : is.Before b b') (hlt : a < b)
    (hfree : ∀ e ∈ is.all, a < e.start → b ≤ e.start) : is.result.slice a' b' = code.slice a b := by
  obtain ⟨n, rfl⟩ := Nat.exists_eq_add_of_le (Nat.le_of_lt hlt)
  have hb := (h.before h'.bounded (by omega) hfree).unique h'
  have htake := h.take_eq h'.bounded hfree
  rw [Bytes.slice_nat, Bytes.slice_nat, ← hb, List.drop_take, List.drop_take, Nat.add_sub_cancel_left,
    Nat.add_sub_cancel_left, htake]

end Insertions

/-! ### Edits -/

/-- The edit replaces a part of the white space, and the insertion all of it. -/
def Edit.Inserts (code : Bytes) (x : Edit) (e : Insertion) : Prop :=
  ∃ stop : Nat, x.start = e.start ∧ x.stop = stop ∧ e.start ≤ stop ∧ stop ≤ e.target ∧
    e.text = x.text ++ code.slice stop e.target

/-- **Edits that insert texts one after another** make the source with these texts inserted. -/
theorem Bytes.applyEdits_eq_splice {xs : List Edit} (h : List.Forall₂ (Edit.Inserts code) xs es)
    (hordered : ∀ e ∈ es, e.target < code.length) (hapart : es.Pairwise fun e e' => e.target < e'.start)
    (ho : ∀ e ∈ es, o ≤ e.start) : code.applyEdits o xs = code.splice o es := by
  induction h generalizing o with
  | nil =>
    rw [applyEdits, splice, Bytes.slice_nat, List.take_length]
  | @cons x e xs es hx _ ih =>
    obtain ⟨stop, hstart, hstop, hle, hle', htext⟩ := hx
    obtain ⟨hfirst, hrest⟩ := List.pairwise_cons.mp hapart
    have hbound := hordered e List.mem_cons_self
    have hlater (e' : Insertion) (he' : e' ∈ es) : e.target < e'.start := hfirst e' he'
    have hwhole := ho e List.mem_cons_self
    rw [applyEdits, if_neg (by omega), hstart, hstop, ih (fun e' he' => hordered e' (List.mem_cons_of_mem _ he')) hrest
      (fun e' he' => Nat.le_trans hle' (Nat.le_of_lt (hlater e' he')))]
    -- the rest of the white space, and what is behind it
    have hgap : code.splice stop es = code.slice stop e.target ++ code.splice e.target es := by
      obtain ⟨n, hn⟩ := Nat.exists_eq_add_of_le hle'
      rw [Bytes.slice_nat, hn, List.drop_take, Nat.add_sub_cancel_left]
      refine Bytes.splice_eq fun e' he' => ?_
      have := hlater e' he'
      omega
    rw [splice, htext, hgap, Bytes.slice_nat]
    simp only [List.append_assoc]

end Docsmith
