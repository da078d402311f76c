import Docsmith.Proofs.Grammar.Place

namespace Docsmith.Grammar

/-!
# Bytes of a class

* `Run`: the first bytes are there, and all of them are of a class.
* `isGraph`: the visible bytes of ASCII, and `graph_digits`: digits are such.
* `Inked`: there is no white space among the first bytes.
* `Framed`: the first and the last of some bytes are visible.
* `take_of_startsWith`: the bytes begin with a text that they start with, and `graph_of_longestOf`: the longest of
  some visible texts is visible.
* `isNameByte`: the bytes of names, and `inked_name`: a name has no white space in it.
-/

/-- The first bytes are there, and all of them are of a class. -/
structure Run (P : UInt8 → Prop) (bytes : Bytes) (n : Nat) : Prop where
  le : n ≤ bytes.length
  all : ∀ x ∈ bytes.take n, P x

variable {P Q : UInt8 → Prop} {bytes rest : Bytes} {a b n : Nat} {x : UInt8}

namespace Run

theorem zero (bytes : Bytes) : Run P bytes 0 :=
  ⟨Nat.zero_le _, fun x hx => by simp at hx⟩

theorem cons (hx : P x) (h : Run P rest n) : Run P (x :: rest) (n + 1) := by
  refine ⟨Nat.succ_le_succ h.le, fun y hy => ?_⟩
  rw [List.take_succ_cons] at hy
  rcases List.mem_cons.mp hy with rfl | hy
  · exact hx
  · exact h.all y hy

theorem tail (h : Run P (x :: rest) (n + 1)) : P x ∧ Run P rest n := by
  have hall := h.all
  rw [List.take_succ_cons] at hall
  exact ⟨hall x List.mem_cons_self, Nat.le_of_succ_le_succ h.le,
    fun y hy => hall y (List.mem_cons_of_mem x hy)⟩

theorem add (h : Run P bytes a) (h' : Run P (bytes.drop a) b) : Run P bytes (a + b) := by
  refine ⟨?_, fun x hx => ?_⟩
  · have hlength := h'.le
    have ha := h.le
    rw [List.length_drop] at hlength
    omega
  · rw [List.take_add] at hx
    rcases List.mem_append.mp hx with hx | hx
    · exact h.all x hx
    · exact h'.all x hx

theorem mono (h : Run P bytes n) (hPQ : ∀ x, P x → Q x) : Run Q bytes n :=
  ⟨h.le, fun x hx => hPQ x (h.all x hx)⟩

/-- The first and the last of the bytes. -/
theorem ends (h : Run P bytes n) (hn : n ≠ 0) :
    (∃ x, bytes[0]? = some x ∧ P x) ∧ ∃ x, bytes[n - 1]? = some x ∧ P x := by
  have hplace (i : Nat) (hi : i < n) : ∃ x, bytes[i]? = some x ∧ P x := by
    have hlength := h.le
    have hx : bytes[i]? = some bytes[i] := List.getElem?_eq_getElem (by omega)
    refine ⟨_, hx, h.all _ (List.mem_of_getElem? (i := i) ?_)⟩
    rw [List.getElem?_take, if_pos hi, hx]
  exact ⟨hplace 0 (by omega), hplace (n - 1) (by omega)⟩

end Run

/-! ### White space and visible bytes -/

/-- No byte above the space is white space. -/
theorem isBlank_of_toNat (h : 0x21 ≤ x.toNat) : Bytes.isBlank x = false := by
  simp only [Bytes.isBlank, Bool.or_eq_false_iff, Bool.and_eq_false_iff, beq_eq_false_iff_ne,
    decide_eq_false_iff_not, UInt8.le_iff_toNat_le, UInt8.reduceToNat]
  refine ⟨fun heq => ?_, by omega⟩
  rw [heq] at h
  exact absurd h (by decide)

theorem isBlank_eq_false (h : 0x21 ≤ x) : Bytes.isBlank x = false :=
  isBlank_of_toNat (UInt8.le_iff_toNat_le.mp h)

/-- There is no white space among the first bytes. -/
abbrev Inked (bytes : Bytes) (n : Nat) : Prop := Run (fun x => Bytes.isBlank x = false) bytes n

/-- The byte is a visible one of ASCII. -/
def isGraph (x : UInt8) : Bool := 0x21 ≤ x && x < 0x7f

/-- The first bytes are visible ones of ASCII. -/
abbrev Graph (bytes : Bytes) (n : Nat) : Prop := Run (fun x => isGraph x = true) bytes n

theorem isBlank_of_isGraph (h : isGraph x = true) : Bytes.isBlank x = false :=
  isBlank_eq_false (of_decide_eq_true (Bool.and_eq_true_iff.mp h).1)

/-- A byte between visible ones is visible. -/
theorem isGraph_of_range {a b : UInt8} (h : (decide (a ≤ x) && decide (x ≤ b)) = true) (ha : 0x21 ≤ a)
    (hb : b < 0x7f) : isGraph x = true := by
  simp only [isGraph, Bool.and_eq_true, decide_eq_true_eq] at h ⊢
  exact ⟨UInt8.le_trans ha h.1, UInt8.lt_of_le_of_lt h.2 hb⟩

theorem isDigit_graph (h : isDigit x = true) : isGraph x = true := isGraph_of_range h (by decide) (by decide)

theorem isHexDigit_graph (h : isHexDigit x = true) : isGraph x = true := by
  simp only [isHexDigit, Bool.or_eq_true] at h
  rcases h with (h | h) | h
  · exact isDigit_graph h
  · exact isGraph_of_range h (by decide) (by decide)
  · exact isGraph_of_range h (by decide) (by decide)

/-- Digits with single underscores between them are of a class that both are of. -/
theorem run_digits {digit : UInt8 → Bool} (hdigit : ∀ x, digit x = true → P x) (hmark : P 0x5f) (bytes : Bytes) :
    Run P bytes (digitsLength digit bytes) := by
  fun_induction digitsLength digit bytes with
  | case1 => exact .zero _
  | case2 a ha b c more hpair ih =>
    rw [Bool.and_eq_true, beq_iff_eq] at hpair
    rw [hpair.1]
    exact .cons (hdigit a ha) (.cons hmark ih)
  | case3 a ha b c more hpair ih => exact .cons (hdigit a ha) ih
  | case4 a ha rest hrest ih => exact .cons (hdigit a ha) ih
  | case5 => exact .zero _

/-- Digits with single underscores between them are visible. -/
theorem graph_digits {digit : UInt8 → Bool} (hdigit : ∀ x, digit x = true → isGraph x = true) (bytes : Bytes) :
    Graph bytes (digitsLength digit bytes) := run_digits hdigit (by decide) bytes

/-- The bytes begin with a text that they start with. -/
theorem take_of_startsWith {xs : Bytes} (h : startsWith xs bytes = true) : bytes.take xs.length = xs := by
  induction xs generalizing bytes with
  | nil => rfl
  | cons x rest ih =>
    cases bytes with
    | nil => cases h
    | cons b more =>
      rw [startsWith, Bool.and_eq_true, beq_iff_eq] at h
      rw [List.length_cons, List.take_succ_cons, ih h.2, h.1]

/-- A visible text is so where it stands. -/
theorem graph_of_startsWith {xs : Bytes} (h : startsWith xs bytes = true) (hxs : xs.all isGraph = true) :
    Graph bytes xs.length := by
  have htake := take_of_startsWith h
  constructor
  · rw [← htake, List.length_take]
    exact Nat.min_le_right _ _
  · rw [htake]
    exact List.all_eq_true.mp hxs

/-- The longest of some texts is visible where it stands, if it consists of visible characters. -/
theorem graph_of_longestOf {texts : List String} {t : String} (h : longestOf texts bytes = some t)
    (ht : (t.utf8ByteSize == (Text.encode t).length && (Text.encode t).all isGraph) = true) :
    Graph bytes t.utf8ByteSize := by
  obtain ⟨hlength, hgraph⟩ := Bool.and_eq_true_iff.mp ht
  rw [beq_iff_eq.mp hlength]
  exact graph_of_startsWith (startsWith_of_longestOf h) hgraph

/-- The first and the last of some bytes are visible ones of ASCII. -/
structure Framed (bytes : Bytes) (n : Nat) : Prop where
  first : ∃ x, bytes[0]? = some x ∧ isGraph x = true
  last : ∃ x, bytes[n - 1]? = some x ∧ isGraph x = true

theorem framed_of_graph (h : Graph bytes n) (hn : n ≠ 0) : Framed bytes n :=
  ⟨(h.ends hn).1, (h.ends hn).2⟩

/-! ### Names -/

/-- The byte may be part of a name: a letter, a digit or an underscore, or a byte above ASCII. -/
def isNameByte (x : UInt8) : Bool := 0x80 ≤ x || Text.isNameRest x.toNat

/-- The first bytes may be part of a name. -/
abbrev Named (bytes : Bytes) (n : Nat) : Prop := Run (fun x => isNameByte x = true) bytes n

theorem isNameByte_of_isContinuation (h : Text.isContinuation x = true) : isNameByte x = true := by
  simp only [Text.isContinuation, Bool.and_eq_true] at h
  simp [isNameByte, h.1]

/-- What may be part of a name is no white space. -/
theorem isBlank_of_isNameByte (h : isNameByte x = true) : Bytes.isBlank x = false := by
  rw [isNameByte, Bool.or_eq_true, decide_eq_true_eq] at h
  rcases h with h | h
  · exact isBlank_eq_false (UInt8.le_trans (by decide) h)
  · by_cases hx : x.toNat < 0x80
    · simp only [Text.isNameRest, Text.isNameStart, hx, if_true, Bool.or_eq_true, Bool.and_eq_true,
        decide_eq_true_eq, beq_iff_eq] at h
      exact isBlank_of_toNat (by omega)
    · exact isBlank_of_toNat (by omega)

/-- A character is an ASCII byte, or a byte above ASCII and some that continue it. -/
theorem read_cases {code size : Nat} (h : Text.Rune.read x rest = .char code size) :
    code = x.toNat ∧ size = 1 ∨ 0x80 ≤ x ∧ Run (fun x => Text.isContinuation x = true) rest (size - 1) := by
  unfold Text.Rune.read at h
  split at h
  · cases h
    exact .inl ⟨rfl, rfl⟩
  · rename_i hx
    refine .inr ⟨UInt8.not_lt.mp hx, ?_⟩
    split at h
    · cases h
    · split at h
      · -- two bytes
        split at h
        · cases h
        · split at h
          · rename_i hb
            cases h
            exact .cons hb (.zero _)
          · cases h
      · split at h
        · -- three bytes
          split at h
          · cases h
          · split at h
            · cases h
            · rename_i hb
              split at h
              · cases h
              · split at h
                · rename_i hc
                  cases h
                  simp only [Bool.not_eq_true', Bool.not_eq_false, Text.validSecondOfThree,
                    Bool.and_eq_true] at hb
                  exact .cons hb.1 (.cons hc (.zero _))
                · cases h
        · split at h
          · -- four bytes
            split at h
            · cases h
            · split at h
              · cases h
              · rename_i hb
                split at h
                · cases h
                · split at h
                  · cases h
                  · rename_i hc
                    split at h
                    · cases h
                    · split at h
                      · rename_i hd
                        cases h
                        simp only [Bool.not_eq_true', Bool.not_eq_false, Text.validSecondOfFour,
                          Bool.and_eq_true] at hb hc
                        exact .cons hb.1 (.cons hc (.cons hd (.zero _)))
                      · cases h
          · cases h

/-- What goes on a name may be part of one. -/
theorem isNameRest_named {code size : Nat} (h : Text.Rune.read x rest = .char code size)
    (hname : Text.isNameRest code = true) : isNameByte x = true ∧ Named rest (size - 1) := by
  rcases read_cases h with ⟨rfl, rfl⟩ | ⟨hhigh, hmore⟩
  · exact ⟨by simp [isNameByte, hname], .zero _⟩
  · exact ⟨by simp [isNameByte, hhigh], hmore.mono fun _ => isNameByte_of_isContinuation⟩

theorem named_nameRest {skip : Nat} (h : Named bytes skip) : Named bytes (nameRestLength skip bytes) := by
  fun_induction nameRestLength skip bytes with
  | case1 => exact .zero _
  | case2 skip x rest ih => exact .cons h.tail.1 (ih h.tail.2)
  | case3 x rest code size hread hname ih =>
    obtain ⟨hx, hskip⟩ := isNameRest_named hread hname
    exact .cons hx (ih hskip)
  | case4 => exact .zero _
  | case5 => exact .zero _

/-- What may begin a name may go it on. -/
theorem isNameRest_of_isNameStart {code : Nat} (h : Text.isNameStart code = true) : Text.isNameRest code = true := by
  simp only [Text.isNameRest, Text.isNameStart] at h ⊢
  split <;> rename_i hcode <;> simp only [hcode, if_true, if_false] at h <;> simp [h]

/-- **What is read as a name may be part of one.** -/
theorem named_name (bytes : Bytes) : Named bytes (nameLength bytes) := by
  unfold nameLength
  split
  · exact .zero _
  · split
    · rename_i code size hread
      split
      · rename_i hname
        obtain ⟨hx, hskip⟩ := isNameRest_named hread (isNameRest_of_isNameStart hname)
        exact .cons hx (named_nameRest hskip)
      · exact .zero _
    · exact .zero _

/-- **A name has no white space in it.** -/
theorem inked_name (bytes : Bytes) : Inked bytes (nameLength bytes) :=
  (named_name bytes).mono fun _ => isBlank_of_isNameByte

end Docsmith.Grammar
