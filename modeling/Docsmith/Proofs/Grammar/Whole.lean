import Docsmith.Proofs.Grammar.Laid
import Docsmith.Proofs.Tree.Firm

namespace Docsmith.Grammar

/-!
# Places between characters

A reader that moves on by whole characters yields nodes that cut none.  To see that it does, one looks at the
last byte that it takes, or at the first one that it leaves, unless it takes a name.

* `Place.Between`: a place is one of a source and cuts no character.
* `Place.Between.last`, `Place.Between.next`, `Place.Between.name`, `Place.Between.char`: so is the place some bytes
  further on.
* `Table.Yields.firm`: the tree of what a rule yields is firm, if its terminals lie between such places.
-/

variable {code : Bytes} {p : Place} {n : Nat} {x : UInt8}

/-- The place is one of a source, and no character is cut there. -/
structure Place.Between (code : Bytes) (p : Place) : Prop extends p.Within code where
  whole : code.Whole p.offset

namespace Place.Between

theorem origin (code : Bytes) : (Place.origin code).Between code := ⟨.origin code, Bytes.whole_zero code⟩

/-- The offset some bytes further on, or the end of the source. -/
theorem offset_cases (p : Place) (n : Nat) : (p.advance n).offset = p.offset + n ∧ n ≤ p.rest.length ∨
    (p.advance n).rest = [] := by
  rw [offset_advance, rest_advance]
  rcases Nat.le_total n p.rest.length with hle | hle
  · exact .inl ⟨by rw [Nat.min_eq_left hle], hle⟩
  · exact .inr (List.drop_eq_nil_of_le hle)

/-- Whether a place further on cuts a character is to be shown unless it is the end of the source. -/
theorem advance (h : p.Between code) (hn : n ≤ p.rest.length → code.Whole (p.offset + n)) :
    (p.advance n).Between code := by
  have hwithin := h.toWithin.advance n
  refine ⟨hwithin, ?_⟩
  rcases offset_cases p n with ⟨hoffset, hle⟩ | hend
  · rw [hoffset]
    exact hn hle
  · have hlength := hwithin.length_rest
    rw [hend, List.length_nil] at hlength
    exact Bytes.whole_of_le (by omega)

/-- Behind a byte of ASCII. -/
theorem last (h : p.Between code) (hn : n ≠ 0) (hx : p.rest[n - 1]? = some x) (hascii : x < 0x80) :
    (p.advance n).Between code := by
  refine h.advance fun _ => ?_
  rw [h.getElem?_rest, ← Nat.add_sub_assoc (Nat.one_le_iff_ne_zero.mpr hn)] at hx
  exact Bytes.whole_of_last (by omega) hx hascii

/-- Before a byte of ASCII, or at the end of the source. -/
theorem next (h : p.Between code) (hn : ∀ x, p.rest[n]? = some x → x < 0x80) : (p.advance n).Between code := by
  refine h.advance fun _ => ?_
  cases hx : p.rest[n]? with
  | none =>
    rw [h.getElem?_rest, List.getElem?_eq_none_iff] at hx
    exact Bytes.whole_of_le hx
  | some x =>
    have hascii := hn x hx
    rw [h.getElem?_rest] at hx
    exact .before hx hascii

/-- Behind a name. -/
theorem name (h : p.Between code) : (p.advance (nameLength p.rest)).Between code := by
  refine h.advance fun _ => ?_
  rw [h.toWithin.rest]
  exact Bytes.whole_name h.whole

/-- Behind a character. -/
theorem char {a : UInt8} {rest : Bytes} {c size : Nat} (h : p.Between code) (hrest : p.rest = a :: rest)
    (hread : Text.Rune.read a rest = .char c size) : (p.advance size).Between code :=
  h.advance fun _ => h.whole.step (h.toWithin.rest ▸ hrest) hread

/-- Behind one of the characters that take three bytes. -/
theorem marker {a b c : UInt8} (h : p.Between code) (hstarts : startsWith [a, b, c] p.rest = true)
    (hread : ∀ rest, ∃ code, Text.Rune.read a (b :: c :: rest) = .char code 3) : (p.advance 3).Between code := by
  obtain ⟨n, hn⟩ := hread (p.rest.drop 3)
  have hsplit : p.rest.take [a, b, c].length ++ p.rest.drop 3 = p.rest := List.take_append_drop 3 p.rest
  rw [take_of_startsWith hstarts] at hsplit
  exact h.char hsplit.symm hn

/-- The node of some bytes is lined, if neither end of it cuts a character. -/
theorem lined_leaf (h : p.Between code) (h' : (p.advance n).Between code) (kind : String) (named : Bool) :
    Lined code.Whole p.offset [p.leaf kind named n] (p.advance n).offset := by
  have hle : p.offset ≤ (p.advance n).offset := by
    rw [offset_advance]
    exact Nat.le_add_right _ _
  exact ⟨⟨Nat.le_refl _, hle⟩, ⟨h.whole, h'.whole⟩, Nat.le_refl _⟩

end Place.Between

/-- **The tree of what a rule yields is firm**, if what its terminals yield lies between places of the source
    that cut no character. -/
theorem Table.Yields.firm {τ ρ μ σ : Type} {g : Table τ ρ μ σ} {ad : Admitted τ ρ μ} {m : μ} {r : Rule τ ρ μ}
    {s s' : σ} {xs : List Node} {t : SourceTree} (inv : σ → Prop) (htable : ∀ p, ad.Covers (g.rule p))
    (hnone : ∀ {m t s xs s'}, g.lexis.read m t s = .ok (xs, s') → ∀ x ∈ xs, x.children = [])
    (hplace : ∀ {s}, inv s → t.code.Whole (g.lexis.offset s) ∧ g.lexis.offset s ≤ t.code.length)
    (hleaf : ∀ {m t' s xs s'}, g.lexis.read m t' s = .ok (xs, s') → ad.terminal t' → inv s →
      Lined t.code.Whole (g.lexis.offset s) xs (g.lexis.offset s') ∧ inv s')
    (h : g.Yields m r s xs s') (hr : ad.Covers r) (hs : inv s) (keeps : Node → Bool)
    (hroot : t.root.start = g.lexis.offset s ∧ t.root.stop = g.lexis.offset s' ∧
      t.root.children = xs.filter keeps) : t.Firm := by
  obtain ⟨hstart, hstop, hchildren⟩ := hroot
  obtain ⟨hlined, hs'⟩ := h.lined htable hleaf hr hs
  refine ⟨by rw [hstop]; exact (hplace hs').2, fun n hn => ?_⟩
  -- the root ends where the state does, and every node below it was ranged by its own reading
  rcases mem_preorder.mp hn with rfl | ⟨c, hc, hn⟩
  · constructor
    · rw [hstart, hstop]
      exact ⟨(hplace hs).1, (hplace hs').1⟩
    · rw [hstart, hstop, hchildren]
      exact hlined.filter keeps
  · rw [hchildren] at hc
    exact (h.holds (Table.passes_ranged htable hnone hleaf) htable hr hs).1 c (List.mem_filter.mp hc).1 n hn

end Docsmith.Grammar
