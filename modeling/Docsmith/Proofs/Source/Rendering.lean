import Docsmith.Proofs.Keys
import Docsmith.Proofs.Sorting
import Docsmith.Proofs.Source.Ink
import Docsmith.Tree.SourceTree
import Mathlib.Algebra.Ring.Int.Defs
import Mathlib.Data.List.Induction

namespace Docsmith

/-!
# Replacements made together

Of the replacements that were recorded, the last under each key counts.  They are put in the order of their
beginnings, the wider ones first, and one is dropped that begins inside of another that is made.  Those that
are made do not meet, and what is between them stays as it is.

* `EditSet.Records`: a table holds the last edit of each key, and `SourceTree.records_editAll`: so it does
  after edits are recorded.
* `Edit.Sorts`: a list of edits is another one in order, and `EditSet.sorts_ordered`.
* `reach`: where the last of the edits ends that are kept, and `lt_reach_iff`: an edit that begins before
  begins inside of one of them.
* `stretches`: the code between the edits that are kept, and `flatMap_stretches`: it is all that lies
  outside of them.
* `SourceTree.render_makes_kept`: what rendering makes of a source.
-/

variable {code : Bytes} {edits xs ys : List Edit} {pos : Int} {e : Edit}

/-- The edit lies in the code. -/
structure Edit.In (code : Bytes) (e : Edit) : Prop where
  nonneg : 0 ≤ e.start
  ordered : e.start ≤ e.stop
  bounded : e.stop ≤ code.length

instance (code : Bytes) (e : Edit) : Decidable (e.In code) :=
  decidable_of_iff (0 ≤ e.start ∧ e.start ≤ e.stop ∧ e.stop ≤ code.length)
    ⟨fun h => ⟨h.1, h.2.1, h.2.2⟩, fun h => ⟨h.nonneg, h.ordered, h.bounded⟩⟩

/-! ### The table of edits -/

/-- The table holds the last edit of each key, the keys in the order in which they came up. -/
structure EditSet.Records (s : EditSet) (calls : List (String × Edit)) : Prop where
  keys : s.entries.map (·.1) = (calls.map (·.1)).eraseDups
  last : ∀ key, s.pending? key = (calls.reverse.find? (·.1 == key)).map (·.2)

namespace EditSet

variable {s : EditSet} {calls : List (String × Edit)}

/-- A key stays where it came up first. -/
theorem keys_put (key : String) (e : Edit) (entries : List (String × Edit)) :
    (put key e entries).map (·.1)
      = if key ∈ entries.map (·.1) then entries.map (·.1) else entries.map (·.1) ++ [key] := by
  induction entries with
  | nil => rfl
  | cons x rest ih =>
    obtain ⟨k, old⟩ := x
    rw [put_cons]
    by_cases hk : k = key
    · simp [hk]
    · have hne : key ≠ k := fun h => hk h.symm
      rw [if_neg hk]
      simp only [List.map_cons, ih, List.mem_cons, hne, false_or]
      split <;> rfl

/-- One more edit is recorded. -/
theorem Records.edit (h : s.Records calls) (key : String) (e : Edit) :
    (s.edit key e).Records (calls ++ [(key, e)]) where
  keys := by
    -- the keys are those called so far, each one once, in the order of its first call
    have hmem : key ∈ s.entries.map (·.1) ↔ key ∈ calls.map (·.1) := by
      rw [h.keys, List.mem_eraseDups]
    rw [EditSet.edit, keys_put, List.map_append, List.eraseDups_append, ← h.keys]
    by_cases hkey : key ∈ calls.map (·.1)
    · rw [if_pos (hmem.mpr hkey)]
      simp [List.removeAll, hkey]
    · rw [if_neg (hmem.not.mpr hkey)]
      simp [List.removeAll, hkey, List.eraseDups_cons]
  last := by
    intro other
    have hput := find?_put (put key e) rfl (put_cons key e) s.entries other
    rw [pending?, EditSet.edit, hput, List.reverse_append, List.reverse_singleton,
      List.singleton_append]
    -- the key that was edited has the new edit, every other one its last
    by_cases hkey : key = other
    · simp [hkey]
    · have hlast := h.last other
      rw [pending?] at hlast
      rw [if_neg hkey, hlast, List.find?_cons_of_neg (by simpa using hkey)]

end EditSet

/-- Records edits under their keys, one after another. -/
def SourceTree.editAll (t : SourceTree) (calls : List (String × Edit)) : SourceTree :=
  calls.foldl (fun t c => t.edit c.1 c.2.start c.2.stop c.2.text) t

/-- After edits are recorded the table holds the last of each key. -/
theorem SourceTree.records_editAll {t : SourceTree} (hclean : t.edits.entries = [])
    (calls : List (String × Edit)) : (t.editAll calls).edits.Records calls := by
  induction calls using List.reverseRecOn with
  | nil => exact ⟨by simp [editAll, hclean], by simp [editAll, EditSet.pending?, hclean]⟩
  | append_singleton calls c ih =>
    rw [editAll, List.foldl_append]
    exact ih.edit c.1 c.2

/-- What stands in the table after edits are recorded is one of them. -/
theorem SourceTree.mem_editAll {t : SourceTree} (hclean : t.edits.entries = [])
    {calls : List (String × Edit)} {x : String × Edit} (hx : x ∈ (t.editAll calls).edits.entries) :
    x ∈ calls := by
  induction calls using List.reverseRecOn with
  | nil => rw [editAll, List.foldl_nil, hclean] at hx; cases hx
  | append_singleton calls c ih =>
    rw [editAll, List.foldl_append] at hx
    rcases mem_put (EditSet.put c.1 c.2) rfl (EditSet.put_cons c.1 c.2) hx with rfl | hx
    · exact List.mem_append_right _ List.mem_cons_self
    · exact List.mem_append_left _ (ih hx)

/-- The code of a source stays as it is when edits are recorded. -/
theorem SourceTree.code_editAll (t : SourceTree) (calls : List (String × Edit)) :
    (t.editAll calls).code = t.code := by
  induction calls generalizing t with
  | nil => rfl
  | cons c rest ih => exact ih _

/-! ### The order of edits -/

/-- The second list holds the edits of the first in order: by their beginnings, those that end later first,
    and as they stand in the first when neither tells them apart. -/
structure Edit.Sorts (edits ordered : List Edit) : Prop where
  perm : ordered.Perm edits
  sorted : ordered.Pairwise fun a b => a.start < b.start ∨ a.start = b.start ∧ b.stop ≤ a.stop
  stable : ∀ start stop : Int, ordered.filter (fun e => e.start == start && e.stop == stop)
    = edits.filter fun e => e.start == start && e.stop == stop

theorem Edit.before_iff {a b : Edit} :
    a.before b = true ↔ a.start < b.start ∨ a.start = b.start ∧ b.stop ≤ a.stop := by
  simp [Edit.before]

/-- **The edits of a table are sorted.** -/
theorem EditSet.sorts_ordered (s : EditSet) : Edit.Sorts (s.entries.map (·.2)) s.ordered := by
  have htrans (a b c : Edit) (hab : a.before b = true) (hbc : b.before c = true) :
      a.before c = true := by
    rw [Edit.before_iff] at hab hbc ⊢
    omega
  have htotal (a b : Edit) : (a.before b || b.before a) = true := by
    rw [Bool.or_eq_true, Edit.before_iff, Edit.before_iff]
    omega
  constructor
  case perm => exact List.mergeSort_perm _ _
  case sorted => exact (List.pairwise_mergeSort htrans htotal _).imp Edit.before_iff.mp
  case stable =>
    intro start stop
    refine filter_mergeSort htrans htotal (fun a b ha hb => ?_) _
    simp only [Bool.and_eq_true, beq_iff_eq] at ha hb
    rw [Edit.before_iff]
    omega

/-! ### The edits that are kept -/

/-- Where the last of the edits ends that are kept from an offset on. -/
def reach : Int → List Edit → Int
  | pos, [] => pos
  | pos, e :: rest => if e.start < pos then reach pos rest else reach e.stop rest

/-- Which edits are kept behind some others depends on where those end. -/
theorem keptFrom_append (pos : Int) (xs ys : List Edit) :
    keptFrom pos (xs ++ ys) = keptFrom pos xs ++ keptFrom (reach pos xs) ys := by
  induction xs generalizing pos with
  | nil => rfl
  | cons e rest ih =>
    simp only [List.cons_append, keptFrom, reach, ih]
    split <;> rfl

theorem keptFrom_sublist (pos : Int) (edits : List Edit) : (keptFrom pos edits).Sublist edits := by
  induction edits generalizing pos with
  | nil => exact .slnil
  | cons e rest ih =>
    rw [keptFrom]
    split
    · exact (ih _).cons e
    · exact (ih _).cons_cons e

/-- Edits that begin before an offset are not kept from there on. -/
theorem reach_of_lt (h : ∀ x ∈ xs, x.start < pos) : reach pos xs = pos := by
  induction xs with
  | nil => rfl
  | cons x rest ih =>
    rw [reach, if_pos (h x List.mem_cons_self)]
    exact ih fun y hy => h y (List.mem_cons_of_mem x hy)

/-- An edit that begins no earlier than some others begins before the last of those ends that are kept if it
    begins inside of one of them. -/
theorem lt_reach_iff (hxs : ∀ x ∈ xs, x.start ≤ e.start) (hpos : pos ≤ e.start) :
    e.start < reach pos xs ↔ ∃ k ∈ keptFrom pos xs, k.start ≤ e.start ∧ e.start < k.stop := by
  induction xs generalizing pos with
  | nil => simp only [reach, keptFrom, List.not_mem_nil, false_and, exists_false, iff_false]; omega
  | cons x rest ih =>
    have hx := hxs x List.mem_cons_self
    have hrest : ∀ y ∈ rest, y.start ≤ e.start := fun y hy => hxs y (List.mem_cons_of_mem x hy)
    rw [reach, keptFrom]
    split
    · exact ih hrest hpos
    · simp only [List.exists_mem_cons_iff]
      by_cases hinside : e.start < x.stop
      · -- the others all begin inside of this one
        have hreach : reach x.stop rest = x.stop := reach_of_lt fun y hy => by
          have := hrest y hy
          omega
        rw [hreach]
        exact ⟨fun _ => .inl ⟨hx, hinside⟩, fun _ => hinside⟩
      · rw [ih hrest (by omega)]
        simp [hinside]

/-- The edits that are kept do not meet, and begin at the offset from which they are kept or later. -/
theorem pairwise_keptFrom (h : ∀ x ∈ edits, x.start ≤ x.stop) (pos : Int) :
    (keptFrom pos edits).Pairwise (fun a b => a.stop ≤ b.start) ∧
      ∀ x ∈ keptFrom pos edits, pos ≤ x.start := by
  induction edits generalizing pos with
  | nil => exact ⟨.nil, by simp [keptFrom]⟩
  | cons e rest ih =>
    have hrest : ∀ x ∈ rest, x.start ≤ x.stop := fun x hx => h x (List.mem_cons_of_mem e hx)
    have he := h e List.mem_cons_self
    rw [keptFrom]
    split
    · exact ih hrest pos
    · obtain ⟨hpair, hstart⟩ := ih hrest e.stop
      refine ⟨List.pairwise_cons.mpr ⟨hstart, hpair⟩, fun x hx => ?_⟩
      rcases List.mem_cons.mp hx with rfl | hx
      · omega
      · have := hstart x hx
        omega

/-! ### What rendering makes of a source -/

/-- The stretches of code between edits that do not meet, from an offset on. -/
def stretches (size : Int) : Int → List Edit → List (Int × Int)
  | pos, [] => [(pos, size)]
  | pos, e :: rest => (pos, e.start) :: stretches size e.stop rest

/-- The offsets in a stretch. -/
def offsets (s : Int × Int) : List Nat := List.range' s.1.toNat (s.2 - s.1).toNat

/-- An offset lies in none of some edits. -/
def outside (edits : List Edit) (i : Nat) : Bool := !edits.any fun e => e.start ≤ i && i < e.stop

/-- The code with the texts of some edits between its stretches. -/
def Bytes.woven (code : Bytes) (pos : Int) (edits : List Edit) : Bytes :=
  (List.zipWith (fun s text => code.slice s.1 s.2 ++ text) (stretches code.length pos edits)
    (edits.map (·.text) ++ [[]])).flatten

/-- Making edits sets the texts of those that are kept between the stretches of code between them. -/
theorem Bytes.applyEdits_eq (code : Bytes) (pos : Int) (edits : List Edit) :
    code.applyEdits pos edits = code.woven pos (keptFrom pos edits) := by
  induction edits generalizing pos with
  | nil => simp [applyEdits, woven, keptFrom, stretches]
  | cons e rest ih =>
    rw [applyEdits, keptFrom]
    split
    · exact ih pos
    · rw [ih e.stop]
      simp [woven, stretches]

/-- The offsets from one place to another are those up to a place between them, and those from there on. -/
theorem range'_split {a b c : Nat} (hab : a ≤ b) (hbc : b ≤ c) :
    List.range' a (c - a) = List.range' a (b - a) ++ List.range' b (c - b) := by
  have happend := List.range'_append_1 (s := a) (m := b - a) (n := c - b)
  rw [Nat.add_sub_cancel' hab, show b - a + (c - b) = c - a by omega] at happend
  exact happend.symm

/-- **The stretches between edits that do not meet are all that lies outside of them.** -/
theorem flatMap_stretches {size : Nat} (hpair : edits.Pairwise fun a b => a.stop ≤ b.start)
    (hin : ∀ x ∈ edits, x.start ≤ x.stop ∧ x.stop ≤ size) {a : Nat} (ha : ∀ x ∈ edits, a ≤ x.start)
    (hsize : a ≤ size) :
    (stretches size a edits).flatMap offsets = (List.range' a (size - a)).filter (outside edits) := by
  induction edits generalizing a with
  | nil =>
    have hall : (List.range' a (size - a)).filter (outside []) = List.range' a (size - a) :=
      List.filter_eq_self.mpr fun i _ => rfl
    have hlength : ((size : Int) - a).toNat = size - a := by omega
    simp [hall, stretches, offsets, hlength]
  | cons e rest ih =>
    obtain ⟨he, hrest⟩ := List.pairwise_cons.mp hpair
    obtain ⟨hordered, hbounded⟩ := hin e List.mem_cons_self
    have hstart := ha e List.mem_cons_self
    obtain ⟨b, hb⟩ := Int.eq_ofNat_of_zero_le (a := e.start) (by omega)
    obtain ⟨c, hc⟩ := Int.eq_ofNat_of_zero_le (a := e.stop) (by omega)
    have hlater := ih hrest (fun x hx => hin x (List.mem_cons_of_mem e hx)) (a := c)
      (fun x hx => by have := he x hx; omega) (by omega)
    -- before the edit, inside of it, and behind it
    have hbefore : (List.range' a (b - a)).filter (outside (e :: rest)) = List.range' a (b - a) := by
      refine List.filter_eq_self.mpr fun i hi => ?_
      rw [List.mem_range'_1] at hi
      have hout : ∀ x ∈ e :: rest, (decide (x.start ≤ i) && decide ((i : Int) < x.stop)) = false := by
        intro x hx
        rw [Bool.and_eq_false_iff, decide_eq_false_iff_not, decide_eq_false_iff_not]
        rcases List.mem_cons.mp hx with rfl | hx
        · omega
        · have := he x hx
          omega
      rw [outside, Bool.not_eq_true', List.any_eq_false]
      exact fun x hx => by simpa using hout x hx
    have hinside : (List.range' b (c - b)).filter (outside (e :: rest)) = [] := by
      refine List.filter_eq_nil_iff.mpr fun i hi => ?_
      rw [List.mem_range'_1] at hi
      have hhere : e.start ≤ i ∧ (i : Int) < e.stop := by omega
      simp [outside, hhere]
    have hbehind : (List.range' c (size - c)).filter (outside (e :: rest))
        = (List.range' c (size - c)).filter (outside rest) := by
      refine List.filter_congr fun i hi => ?_
      rw [List.mem_range'_1] at hi
      have hpast : ¬ (i : Int) < e.stop := by omega
      simp [outside, hpast]
    have hhead : offsets (a, e.start) = List.range' a (b - a) := by
      simp only [offsets, hb]
      congr 1
      omega
    have hsplit : List.range' a (size - a)
        = List.range' a (b - a) ++ (List.range' b (c - b) ++ List.range' c (size - c)) := by
      rw [range'_split (a := a) (b := b) (by omega) (by omega),
        range'_split (a := b) (b := c) (by omega) (by omega)]
    rw [hsplit, List.filter_append, List.filter_append, hbefore, hinside, hbehind, stretches, List.flatMap_cons,
      hc, hlater, hhead, List.nil_append]

/-- The length of a source in which edits that do not meet are made. -/
theorem Bytes.length_woven (hpair : edits.Pairwise fun a b => a.stop ≤ b.start)
    (hin : ∀ x ∈ edits, x.In code) {a : Nat} (ha : ∀ x ∈ edits, a ≤ x.start)
    (hsize : a ≤ code.length) : ((code.woven a edits).length : Int)
      = code.length - a + (edits.map fun e => (e.text.length : Int) - (e.stop - e.start)).sum := by
  -- induction on the edits: the text up to the first one, its own text, and the rest behind it
  induction edits generalizing a with
  | nil =>
    simp [woven, stretches, slice_nat]
    omega
  | cons e rest ih =>
    obtain ⟨he, hrest⟩ := List.pairwise_cons.mp hpair
    obtain ⟨hnonneg, hordered, hbounded⟩ := hin e List.mem_cons_self
    have hstart := ha e List.mem_cons_self
    obtain ⟨b, hb⟩ := Int.eq_ofNat_of_zero_le (a := e.start) hnonneg
    obtain ⟨c, hc⟩ := Int.eq_ofNat_of_zero_le (a := e.stop) (by omega)
    have hlater := ih hrest (fun x hx => hin x (List.mem_cons_of_mem e hx)) (a := c)
      (fun x hx => by have := he x hx; omega) (by omega)
    have hwoven : code.woven a (e :: rest) = code.slice a b ++ e.text ++ code.woven c rest := by
      simp [woven, stretches, hb, hc]
    have hslice : (code.slice a b).length = b - a := by
      rw [slice_nat, List.length_drop, List.length_take]
      omega
    -- the two lengths are taken over integers, since an edit may remove more than it writes
    rw [hwoven, List.length_append, List.length_append, hslice, List.map_cons, List.sum_cons]
    omega

/-- **Rendering makes the edits that are kept.** -/
theorem SourceTree.render_makes_kept (code : Bytes) (root : Node) (calls : List (String × Edit))
    (h : ∀ c ∈ calls, c.2.In code) :
    let t := (SourceTree.mk code root {}).editAll calls
    let kept := keptFrom 0 t.edits.ordered
    t.edits.Records calls ∧ Edit.Sorts (t.edits.entries.map (·.2)) t.edits.ordered ∧
      (kept.Pairwise fun a b => a.stop ≤ b.start) ∧
      (∀ before e after, t.edits.ordered = before ++ e :: after → ∃ rest, rest.Sublist after ∧
        ((∃ k ∈ keptFrom 0 before, k.start ≤ e.start ∧ e.start < k.stop) →
          kept = keptFrom 0 before ++ rest) ∧
        ((¬ ∃ k ∈ keptFrom 0 before, k.start ≤ e.start ∧ e.start < k.stop) →
          kept = keptFrom 0 before ++ e :: rest)) ∧
      t.render = code.woven 0 kept ∧
      (stretches code.length 0 kept).flatMap offsets = (List.range code.length).filter (outside kept) ∧
      (t.render.length : Int)
        = code.length + (kept.map fun e => (e.text.length : Int) - (e.stop - e.start)).sum ∧
      (calls = [] → t.render = code) := by
  intro t kept
  have hcode : t.code = code := code_editAll _ calls
  have hin : ∀ e ∈ t.edits.ordered, e.In code := by
    intro e he
    have hmem : e ∈ t.edits.entries.map (·.2) := t.edits.sorts_ordered.perm.mem_iff.mp he
    obtain ⟨x, hx, rfl⟩ := List.mem_map.mp hmem
    exact h x (mem_editAll rfl hx)
  have hkept : ∀ e ∈ kept, e.In code := fun e he => hin e ((keptFrom_sublist 0 _).subset he)
  obtain ⟨hpair, hstart⟩ := pairwise_keptFrom (fun e he => (hin e he).ordered) 0
  have hrender : t.render = code.woven 0 kept := by
    rw [render, EditSet.render, hcode, Bytes.applyEdits_eq]
  have hlength := Bytes.length_woven (a := 0) hpair hkept hstart (Nat.zero_le _)
  refine ⟨records_editAll rfl calls, t.edits.sorts_ordered, hpair, ?_, hrender, ?_, ?_, ?_⟩
  · intro before e after hsplit
    have hbefore : ∀ x ∈ before, x.start ≤ e.start := by
      have hsorted := t.edits.sorts_ordered.sorted
      rw [hsplit] at hsorted
      intro x hx
      have hx := (List.pairwise_append.mp hsorted).2.2 x hx e List.mem_cons_self
      omega
    have hnonneg : 0 ≤ e.start := (hin e (by rw [hsplit]; simp)).nonneg
    have hfate := lt_reach_iff hbefore hnonneg
    -- what is kept behind `e` is found from where the edits before it reach
    have happend : kept = keptFrom 0 before ++ keptFrom (reach 0 before) (e :: after) := by
      rw [← keptFrom_append, ← hsplit]
    rw [keptFrom] at happend
    -- a start inside a kept range is dropped; otherwise it is kept and begins the next range
    by_cases hdrop : e.start < reach 0 before
    · rw [if_pos hdrop] at happend
      exact ⟨_, keptFrom_sublist _ after, fun _ => happend, fun hno => absurd (hfate.mp hdrop) hno⟩
    · rw [if_neg hdrop] at happend
      exact ⟨_, keptFrom_sublist _ after, fun hyes => absurd (hfate.mpr hyes) hdrop, fun _ => happend⟩
  · have hstretches := flatMap_stretches (a := 0) hpair
      (fun e he => ⟨(hkept e he).ordered, (hkept e he).bounded⟩) hstart (Nat.zero_le code.length)
    rw [List.range_eq_range']
    exact hstretches
  · rw [hrender]
    simpa using hlength
  -- without any edit the whole code is copied
  · rintro rfl
    have hnone : kept = [] := by simp [kept, t, editAll, EditSet.ordered, keptFrom]
    have hwhole : code.slice (0 : Nat) code.length = code := by
      rw [Bytes.slice_nat, List.take_length, List.drop_zero]
    rw [hrender, hnone]
    simpa [Bytes.woven, stretches] using hwhole

/-- Five edits under four keys: of two under one key the second counts, two begin inside of it and are
    dropped, and one that came up first only puts in a letter where it ends. -/
theorem SourceTree.render_makes_kept_of_five :
    let code := Text.encode "abcdefgh"
    let calls : List (String × Edit) := [("d", ⟨4, 4, Text.encode "W"⟩), ("a", ⟨1, 3, Text.encode "X"⟩),
      ("b", ⟨2, 5, Text.encode "Y"⟩), ("a", ⟨0, 4, Text.encode "Z"⟩), ("c", ⟨3, 3, Text.encode "V"⟩)]
    let t := (SourceTree.mk code (.mk { kind := "source", extent := ⟨0, 8, 0, 0⟩ } []) {}).editAll calls
    (∀ c ∈ calls, c.2.In code) ∧ t.edits.entries.map (·.1) = ["d", "a", "b", "c"] ∧
      t.render = Text.encode "ZWefgh" := by
  intro code calls t
  have hin : ∀ c ∈ calls, c.2.In code := by decide +kernel
  have hentries : t.edits = ⟨[("d", ⟨4, 4, Text.encode "W"⟩), ("a", ⟨0, 4, Text.encode "Z"⟩),
      ("b", ⟨2, 5, Text.encode "Y"⟩), ("c", ⟨3, 3, Text.encode "V"⟩)]⟩ := rfl
  have hordered : t.edits.ordered = [⟨0, 4, Text.encode "Z"⟩, ⟨2, 5, Text.encode "Y"⟩,
      ⟨3, 3, Text.encode "V"⟩, ⟨4, 4, Text.encode "W"⟩] := by
    rw [hentries]
    simp [EditSet.ordered, List.mergeSort, List.MergeSort.Internal.splitInTwo, Edit.before]
  obtain ⟨⟨hkeys, -⟩, -, -, -, hrender, -⟩ := render_makes_kept code t.root calls hin
  refine ⟨hin, hkeys.trans (by decide +kernel), hrender.trans ?_⟩
  show Bytes.woven code 0 (keptFrom 0 t.edits.ordered) = Text.encode "ZWefgh"
  rw [hordered]
  decide +kernel

end Docsmith
