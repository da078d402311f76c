import Docsmith.Text.Utf8

namespace Docsmith.Text

/-!
# Bytes that are text

The characters of a text stand one after another, each in bytes of its own, and none of its bytes but the first
can begin a character.  So it is seen from a single byte whether a text falls apart before it.

* `Rune.read_char`: the bytes of the character at the head.
* `Spells`: some bytes are those of some characters, and `decodeChars_eq_ok`: then these are read.
* `Spells.append`, `Spells.split`: texts one after another, and a text that falls apart.
* `Spells.after_ascii`: a text falls apart behind a byte of ASCII.
-/

variable {a x : UInt8} {bytes bytes' rest : List UInt8} {cs cs' : List Char} {code size i : Nat}

/-! ### Characters -/

theorem read_ascii (h : a < 0x80) (rest : List UInt8) : Rune.read a rest = .char a.toNat 1 := by
  unfold Rune.read
  rw [if_pos h]

theorem isContinuation_of_lt (h : a < 0x80) : isContinuation a = false := by
  simp [isContinuation, UInt8.not_le.mpr h]

/-- **The bytes of the character at the head**: one that begins it and some that continue it.  Whatever comes
    after them does not matter. -/
theorem Rune.read_char (h : Rune.read a rest = .char code size) :
    isContinuation a = false ∧ ∃ tail more, rest = tail ++ more ∧ size = tail.length + 1 ∧
      (∀ b ∈ tail, isContinuation b = true) ∧ ∀ more', Rune.read a (tail ++ more') = .char code size := by
  by_cases hascii : a < 0x80
  · rw [read_ascii hascii] at h
    cases h
    exact ⟨isContinuation_of_lt hascii, [], rest, rfl, rfl, List.forall_mem_nil _,
      fun more' => read_ascii hascii _⟩
  unfold read at h
  rw [if_neg hascii] at h
  have hlow : ¬a < 0xc2 := by
    intro hlow
    rw [if_pos hlow] at h
    cases h
  have hhead : isContinuation a = false := by
    have hhigh : ¬a < 0xc0 := fun hhigh => hlow (UInt8.lt_of_lt_of_le hhigh (by decide))
    simp [isContinuation, hhigh]
  refine ⟨hhead, ?_⟩
  rw [if_neg hlow] at h
  split at h
  · -- two bytes
    rename_i htwo
    split at h
    · cases h
    · rename_i b more
      split at h
      · rename_i hb
        cases h
        exact ⟨[b], more, rfl, rfl, by simpa using hb, fun more' => by simp [read, hascii, hlow, htwo, hb]⟩
      · cases h
  · rename_i htwo
    split at h
    · -- three bytes
      rename_i hthree
      split at h
      · cases h
      · rename_i b more
        split at h
        · cases h
        · rename_i hb
          split at h
          · cases h
          · rename_i c more
            split at h
            · rename_i hc
              cases h
              have hsecond : validSecondOfThree a b = true := by simpa using hb
              have hb' : isContinuation b = true := (Bool.and_eq_true_iff.mp hsecond).1
              exact ⟨[b, c], more, rfl, rfl, by simp [hb', hc],
                fun more' => by simp [read, hascii, hlow, htwo, hthree, hsecond, hc]⟩
            · cases h
    · rename_i hthree
      split at h
      · -- four bytes
        rename_i hfour
        split at h
        · cases h
        · rename_i b more
          split at h
          · cases h
          · rename_i hb
            split at h
            · cases h
            · rename_i c more
              split at h
              · cases h
              · rename_i hc
                split at h
                · cases h
                · rename_i d more
                  split at h
                  · rename_i hd
                    cases h
                    have hsecond : validSecondOfFour a b = true := by simpa using hb
                    have hb' : isContinuation b = true := (Bool.and_eq_true_iff.mp hsecond).1
                    have hc' : isContinuation c = true := by simpa using hc
                    exact ⟨[b, c, d], more, rfl, rfl, by simp [hb', hc', hd], fun more' => by
                      simp [read, hascii, hlow, htwo, hthree, hfour, hsecond, hc', hd]⟩
                  · cases h
      · cases h

/-! ### Texts -/

/-- The bytes are those of the characters, one after another. -/
inductive Spells : List UInt8 → List Char → Prop where
  | nil : Spells [] []
  | cons {a : UInt8} {tail rest : List UInt8} {code : Nat} {cs : List Char}
      (hread : Rune.read a (tail ++ rest) = .char code (tail.length + 1)) (h : Spells rest cs) :
      Spells (a :: (tail ++ rest)) (Char.ofNat code :: cs)

/-- What is read after the bytes that belong to the character before. -/
theorem decodeFrom_eq_ok (position skip : Nat) (bytes : List UInt8) (cs : List Char) :
    decodeFrom position skip bytes = .ok cs ↔ Spells (bytes.drop skip) cs := by
  -- induction on the decoding: the end, a byte that is skipped, a rune read, or a fault
  fun_induction decodeFrom position skip bytes generalizing cs with
  | case1 =>
    rw [List.drop_nil]
    constructor
    · rintro ⟨⟩
      exact .nil
    · rintro ⟨⟩
      rfl
  | case2 position skip x rest ih => exact ih cs
  | case3 position a rest code size hread ih =>
    obtain ⟨-, tail, more, rfl, rfl, -, -⟩ := Rune.read_char hread
    rw [Nat.add_sub_cancel, List.drop_left] at ih
    rw [List.drop_zero]
    constructor
    · intro h
      cases hrest : decodeFrom (position + 1) (tail.length + 1 - 1) (tail ++ more) with
      | error fault => rw [hrest] at h; cases h
      | ok cs' =>
        rw [hrest] at h
        cases h
        exact .cons hread ((ih cs').mp hrest)
    · intro h
      -- what is spelled decides the same character, since the bytes are read in the same way
      generalize hbytes : a :: (tail ++ more) = bytes at h
      cases h with
      | nil => cases hbytes
      | @cons a' tail' rest' code' cs' hread' h =>
        obtain ⟨rfl, hsame⟩ := List.cons.inj hbytes
        rw [← hsame, hread, Rune.char.injEq] at hread'
        obtain ⟨rfl, hlength⟩ := hread'
        obtain ⟨-, rfl⟩ := List.append_inj hsame (by omega)
        rw [Nat.add_sub_cancel, (ih cs').mpr h]
        rfl
  | case4 position a rest length reason hread =>
    rw [List.drop_zero]
    -- a fault is no spelling, and no spelling is read as a fault
    constructor
    · rintro ⟨⟩
    · intro h
      generalize hbytes : a :: rest = bytes at h
      cases h with
      | nil => cases hbytes
      | cons hread' h =>
        obtain ⟨rfl, rfl⟩ := List.cons.inj hbytes
        rw [hread] at hread'
        cases hread'

/-- **The characters of bytes are read** if the bytes are those of characters. -/
theorem decodeChars_eq_ok : decodeChars bytes = .ok cs ↔ Spells bytes cs := by
  rw [decodeChars, decodeFrom_eq_ok, List.drop_zero]

namespace Spells

theorem append (h : Spells bytes cs) (h' : Spells bytes' cs') : Spells (bytes ++ bytes') (cs ++ cs') := by
  induction h with
  | nil => exact h'
  | @cons a tail rest code cs hread _ ih =>
    obtain ⟨-, tail', more, hsplit, hlength, -, hall⟩ := Rune.read_char hread
    obtain ⟨rfl, -⟩ := List.append_inj hsplit (by omega)
    rw [List.cons_append, List.append_assoc]
    exact .cons (hall _) ih

/-- Bytes of ASCII are text. -/
theorem of_ascii (h : ∀ x ∈ bytes, x < 0x80) : Spells bytes (bytes.map fun x => Char.ofNat x.toNat) := by
  induction bytes with
  | nil => exact .nil
  | cons x rest ih =>
    exact @Spells.cons x [] rest _ _ (read_ascii (h x List.mem_cons_self) rest)
      (ih fun y hy => h y (List.mem_cons_of_mem x hy))

/-- A text begins with its first character. -/
theorem first (h : Spells (a :: rest) cs) :
    ∃ code size cs', Rune.read a rest = .char code size ∧ cs = Char.ofNat code :: cs' ∧
      Spells (rest.drop (size - 1)) cs' := by
  generalize hbytes : a :: rest = bytes at h
  cases h with
  | nil => cases hbytes
  | @cons a' tail rest' code cs' hread h =>
    obtain ⟨rfl, rfl⟩ := List.cons.inj hbytes
    exact ⟨code, _, cs', hread, rfl, by rwa [Nat.add_sub_cancel, List.drop_left]⟩

/-- A text does not begin inside a character. -/
theorem head (h : Spells bytes cs) : ∀ x ∈ bytes[0]?, isContinuation x = false := by
  cases h with
  | nil => exact fun x hx => by cases hx
  | cons hread _ =>
    intro x hx
    cases hx
    exact (Rune.read_char hread).1

/-- The bytes of a character behind the first one continue it. -/
theorem continues {tail : List UInt8} (hread : Rune.read a (tail ++ rest) = .char code (tail.length + 1))
    (hx : (a :: (tail ++ rest))[i]? = some x) (hi : i ≠ 0) (hle : i ≤ tail.length) :
    isContinuation x = true := by
  obtain ⟨-, tail', more, hsplit, hlength, hall, -⟩ := Rune.read_char hread
  obtain ⟨rfl, -⟩ := List.append_inj hsplit (by omega)
  obtain ⟨j, rfl⟩ := Nat.exists_eq_succ_of_ne_zero hi
  rw [Nat.succ_eq_add_one, List.getElem?_cons_succ, List.getElem?_append_left (by omega)] at hx
  exact hall x (List.mem_of_getElem? hx)

/-- **A text falls apart** before each byte that does not continue a character. -/
theorem split (h : Spells bytes cs) (hi : ∀ x ∈ bytes[i]?, isContinuation x = false) :
    ∃ as bs, cs = as ++ bs ∧ Spells (bytes.take i) as ∧ Spells (bytes.drop i) bs := by
  induction h generalizing i with
  | nil => exact ⟨[], [], rfl, by rw [List.take_nil]; exact .nil, by rw [List.drop_nil]; exact .nil⟩
  -- no character reaches over the place: a byte inside one would continue it
  | @cons a tail rest code cs hread h ih =>
    by_cases hzero : i = 0
    · rw [hzero]
      exact ⟨[], _, rfl, .nil, .cons hread h⟩
    · have hlt : tail.length < i := by
        refine Nat.lt_of_not_le fun hle => ?_
        have hlength : i < (a :: (tail ++ rest)).length := by simp; omega
        have hx := List.getElem?_eq_getElem hlength
        have hcontinues := continues hread hx hzero (by omega)
        rw [hi _ hx] at hcontinues
        cases hcontinues
      -- so the place is behind the first character, and the induction goes on from there
      obtain ⟨j, rfl⟩ : ∃ j, i = tail.length + 1 + j := ⟨i - (tail.length + 1), by omega⟩
      have hsame : a :: (tail ++ rest) = (a :: tail) ++ rest := rfl
      have hlength : (a :: tail).length = tail.length + 1 := rfl
      rw [hsame, ← hlength] at hi ⊢
      rw [List.getElem?_append_right (by omega), Nat.add_sub_cancel_left] at hi
      obtain ⟨as, bs, rfl, has, hbs⟩ := ih hi
      rw [List.take_length_add_append, List.drop_length_add_append]
      obtain ⟨-, tail', more, hsplit, htail, -, hall⟩ := Rune.read_char hread
      obtain ⟨rfl, -⟩ := List.append_inj hsplit (by omega)
      exact ⟨_ :: as, bs, rfl, .cons (hall _) has, hbs⟩

/-- **A text falls apart behind a byte of ASCII.** -/
theorem after_ascii (h : Spells bytes cs) (hx : bytes[i]? = some x) (hascii : x < 0x80) :
    ∀ y ∈ bytes[i + 1]?, isContinuation y = false := by
  induction h generalizing i with
  | nil => cases hx
  | @cons a tail rest code cs hread h ih =>
    have hlt : ¬(i ≠ 0 ∧ i ≤ tail.length) := by
      rintro ⟨hi, hle⟩
      have hcontinues := continues hread hx hi hle
      rw [isContinuation_of_lt hascii] at hcontinues
      cases hcontinues
    have hsame : a :: (tail ++ rest) = (a :: tail) ++ rest := rfl
    have hlength : (a :: tail).length = tail.length + 1 := rfl
    by_cases hi : i = 0
    · subst hi
      -- the first character is the byte of ASCII alone
      cases hx
      rw [read_ascii hascii, Rune.char.injEq] at hread
      obtain rfl : tail = [] := List.eq_nil_of_length_eq_zero (by omega)
      exact h.head
    · rw [hsame] at hx ⊢
      rw [List.getElem?_append_right (by omega)] at hx ⊢
      have hnext := ih hx
      rwa [show i - (a :: tail).length + 1 = i + 1 - (a :: tail).length by omega] at hnext

end Spells

end Docsmith.Text
