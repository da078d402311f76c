import Docsmith.Proofs.Go.Comments
import Docsmith.Proofs.Go.Shorter
import Docsmith.Proofs.Grammar.Whole

namespace Docsmith.Go

/-!
# Steps add no words to Go sources

Comments, bodies and documentation begin and end between the characters of a source, because tokens and comments
do.  So a step of minification deletes whole characters.  However the code behind a deletion joins the code before
it, there are no more words then, and no more characters.

* `readTerminal_lined`: a terminal and the comments before it cut no character.
* `Orderly`: a tree cuts no character and no edit of it waits, and `parseTree_orderly`: so is the tree of a source.
* `stripBodies_tamed`, `stripComments_tamed`, `strip_tamed`: a step adds neither words nor characters.
-/

open Grammar SourceTree

variable {code : Bytes} {p : Place} {s s' : State} {xs : List Node} {t : SourceTree}

/-! ### Reading terminals -/

theorem between_mark (h : p.Between code) : (p.advance (markLength p)).Between code := by
  unfold markLength
  split
  · rename_i hmark
    exact h.marker (Bool.and_eq_true_iff.mp hmark).2 fun rest => ⟨0xfeff, rfl⟩
  · exact h

theorem between_comment (h : p.Between code) (hcomment : commentLength p.rest ≠ 0) :
    (p.advance (commentLength p.rest)).Between code := by
  obtain ⟨-, -, ⟨-, hnext⟩ | hlast⟩ := commentLength_cases hcomment
  · refine h.next fun x hx => ?_
    rcases hnext x hx with rfl | rfl <;> decide
  · exact h.last hcomment hlast (by decide)

theorem between_found {size : Nat} (h : p.Between code) (hfound : Found p.rest size) (hsize : size ≠ 0) :
    (p.advance size).Between code := by
  cases hfound with
  | name hname =>
    rw [hname]
    exact h.name
  | framed hframed =>
    obtain ⟨x, hx, hgraph⟩ := hframed.last
    exact h.last hsize hx (Bytes.ascii_of_isGraph hgraph)
  | stop hone x hx hstop =>
    subst hone
    refine h.last Nat.one_ne_zero hx ?_
    rcases hstop with rfl | rfl <;> decide

/-- The comments before a token cut no character. -/
theorem extras_lined (lines : Bool) (steps : Nat) (h : p.Between code) :
    Lined code.Whole p.offset (extras lines steps p).1 (extras lines steps p).2.offset ∧
      (extras lines steps p).2.Between code := by
  -- induction on the reading steps; a place between two characters stays one after a blank and after a comment
  induction steps generalizing p with
  | zero => exact ⟨Nat.le_refl _, h⟩
  | succ steps ih =>
    rw [extras]
    split
    · exact ⟨Nat.le_refl _, h⟩
    · rename_i b rest hrest
      split
      · rename_i hblank
        -- a blank is one byte of ASCII, so the place behind it stands between characters too
        have hnext : (p.advance 1).Between code :=
          h.last Nat.one_ne_zero (by rw [hrest]; rfl) (Bytes.ascii_of_isBlank (Bool.and_eq_true_iff.mp hblank).1)
        obtain ⟨hlined, hend⟩ := ih hnext
        exact ⟨hlined.from_le (by rw [Place.offset_advance]; exact Nat.le_add_right _ _), hend⟩
      · dsimp only
        split
        · exact ⟨Nat.le_refl _, h⟩
        · rename_i hsize
          have hnext := between_comment h (by simpa using hsize)
          obtain ⟨hlined, hend⟩ := ih hnext
          exact ⟨(h.lined_leaf hnext "comment" true).append hlined, hend⟩

/-- **A terminal and the comments before it cut no character.** -/
theorem readTerminal_lined {bound : Bool} {t : Terminal} (h : readTerminal bound t s = .ok (xs, s'))
    (ht : t.plain = true) (hs : s.place.Between code) :
    Lined code.Whole s.place.offset xs s'.place.offset ∧ s'.place.Between code := by
  have hstart := between_mark hs
  have hle : s.place.offset ≤ (s.place.advance (markLength s.place)).offset :=
    (gap_mark s.place : Gap code _ _).le
  rcases readTerminal_cases h with ⟨-, rfl, rfl⟩ | ⟨lines, steps, ⟨-, rfl, hplace⟩ |
    ⟨kind, named, size, hsize, hscan, rfl, hplace⟩⟩
  · exact ⟨Nat.le_refl _, hs⟩
  · obtain ⟨hlined, hend⟩ := extras_lined lines steps hstart
    rw [hplace]
    exact ⟨hlined.from_le hle, hend⟩
  · -- the comments, and the token behind them
    obtain ⟨hlined, hend⟩ := extras_lined lines steps hstart
    have hfound := Form.scan_found hscan (Bool.and_eq_true_iff.mp ht).1 hsize
    have hnext := between_found hend hfound hsize
    rw [hplace]
    exact ⟨(hlined.from_le hle).append (hend.lined_leaf hnext kind named), hnext⟩

/-- The tree is firm, and no edit of it waits. -/
structure Orderly (t : SourceTree) : Prop extends t.Firm where
  clean : t.edits.dirty = false

/-- **The tree of a source is orderly.** -/
theorem parseTree_orderly (code : Bytes) : Returns (parseTree code) Orderly := by
  intro t ht
  have hparse := parse_of_fresh (parseTree_reads.fresh code t ht)
  obtain ⟨s, hyields, -, hstart, hstop⟩ := yields_of_parse hparse
  refine ⟨?_, (parseTree_reads code t ht).2⟩
  refine hyields.firm (fun s => s.place.Between t.code) admitted_covers
    (fun h x hx => (readTerminal_sorted h x hx).1) (fun hs => ⟨hs.whole, hs.bounded⟩) readTerminal_lined
    (admitted_covers _) (.origin t.code) (fun _ => true) ⟨hstart, hstop, ?_⟩
  rw [List.filter_eq_self.mpr fun _ _ => rfl]

/-! ### Steps -/

/-- A step adds neither words nor characters to a source. -/
structure Tamed (code code' : Bytes) : Prop extends code.Tamed code' where
  chars : code.NoMoreTokens Tokenizer.chars code'

theorem Tamed.refl (code : Bytes) : Tamed code code := ⟨.refl code, .refl _ code⟩

theorem Tamed.trans {code code' code'' : Bytes} (h : Tamed code code') (h' : Tamed code' code'') :
    Tamed code code'' := ⟨h.toTamed.trans h'.toTamed, h.chars.trans h'.chars⟩

/-- Deletions that cut no character add neither words nor characters, and reading the result gives an orderly
    tree. -/
theorem reparse_tamed {t₀ : SourceTree} (h₀ : Orderly t₀) (h : Revised (Edit.Cuts t₀.code) t₀ t) :
    Returns (t.reparse parseTree) fun t' => Tamed t₀.code t'.code ∧ Orderly t' := fun t' ht' =>
  ⟨⟨(h.mono fun _ => .inl).tamed parseTree_reads t' ht', h.shorter parseTree_reads t' ht'⟩,
    reparse_keeps parseTree_orderly h₀ h₀.clean h.toSame t' ht'⟩

/-- A body goes from the end of what is before it to its own end. -/
theorem bodyRange?_cuts {n : Node} {a b : Nat} (h : t.Firm) (hn : n ∈ t.root.preorder)
    (hrange : bodyRange? n = some (a, b)) : Edit.Cuts t.code ⟨a, b, []⟩ := by
  unfold bodyRange? at hrange
  split at hrange
  case h_1 prev others body hfound =>
    cases hrange
    have hmem := List.mem_of_find?_eq_some hfound
    obtain ⟨after, hchildren⟩ := mem_withBefore hmem
    have hprev : prev ∈ t.root.preorder := preorder_child hn (mem_before hmem List.mem_cons_self)
    have hbody : body ∈ t.root.preorder := preorder_child hn (mem_of_withBefore hmem)
    have hordered := h.ordered hn
    rw [← List.nil_append n.children, ← List.reverse_nil, hchildren] at hordered
    have hle := (List.pairwise_append.mp hordered).2.2 prev (by simp) body List.mem_cons_self
    exact h.cuts hbody (h.parts prev hprev).ends.2 (Nat.le_trans hle (h.node hbody).1)
  case h_2 => cases hrange

/-- Taking bodies adds no words, and gives an orderly tree. -/
theorem stripBodies_tamed (h : Orderly t) (exported : Bool) :
    Returns (stripBodies t exported) fun t' => Tamed t.code t'.code ∧ Orderly t' := by
  unfold stripBodies
  refine Returns.bind (P := Revised (Edit.Cuts t.code) t) (.foldlM _ (fun t' ht' n hn => ?_) (.refl h.clean))
    fun t' ht' => reparse_tamed h ht'
  refine (Returns.of_any _).bind fun loses _ => ?_
  split
  · split
    · rename_i a b hrange
      have hmem := preorder_child (mem_preorder.mpr (.inl rfl)) (List.mem_filter.mp hn).1
      exact .pure (ht'.edit _ (bodyRange?_cuts h.toFirm hmem hrange))
    · exact .pure ht'
  · exact .pure ht'

/-- So does taking comments. -/
theorem stripComments_tamed (h : Orderly t) (exported : Bool) :
    Returns (stripComments t exported) fun t' => Tamed t.code t'.code ∧ Orderly t' := by
  cases exported with
  | true => exact reparse_tamed h (h.revised_dropComments h.clean)
  | false =>
    refine (Returns.self (declarations t)).bind fun ds hds => reparse_tamed h ?_
    -- the comments above what is not exported
    have hcuts : AllSlots (fun s => s.hasDoc = true → Edit.Cuts t.code ⟨s.start, s.stop, []⟩) ds :=
      slots_declarations h.lineSlots_cut ds hds
    refine List.foldlRecOn _ _ (Revised.refl h.clean) fun t' ht' d hd => ?_
    obtain ⟨hmem, hhidden⟩ := List.mem_filter.mp hd
    exact ht'.edit _ (hcuts d hmem (Bool.and_eq_true_iff.mp hhidden).2)

/-- **A step adds neither words nor characters to a Go source.** -/
theorem strip_tamed (h : Orderly t) (step : MinifyStep) :
    Returns (strip t step) fun t' => Tamed t.code t'.code ∧ Orderly t' := by
  rw [strip_eq]
  refine Returns.bind (P := fun t₁ => Tamed t.code t₁.code ∧ Orderly t₁) ?_ fun t₁ ⟨hbodies, h₁⟩ => ?_
  · split
    · exact stripBodies_tamed h _
    · exact .pure ⟨.refl _, h⟩
  · split
    · exact fun t' ht' => (stripComments_tamed h₁ _ t' ht').imp_left hbodies.trans
    · exact .pure ⟨hbodies, h₁⟩

end Docsmith.Go
