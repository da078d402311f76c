import Docsmith.Identifier

namespace Docsmith.Identifier

/-!
# Addresses are read back

Reading an address and writing it are inverse to each other: what is read is written as it was, and
an identifier is read back from its address if its parts leave no doubt about where they end.

* `Identifier.WellFormed`: the parts leave no doubt.
* `cutAt_eq_some_iff`, `splitPath?_spec`, `splitPath?_ownerText`: what the pieces of the reader accept.
* `parse?_spec`, `parse?_text`: what is read has this address, and an address is read back.
* `reading_inverts_writing`: both directions, and which texts are addresses.
-/

/-- An owner that can be told from the name after it: none, a plain one, or a pointer. -/
inductive Owned : List Char → Bool → Prop where
  | none : Owned [] false
  | plain {owner : List Char} (hne : owner ≠ []) (hdot : '.' ∉ owner) (hopen : '(' ∉ owner)
      (hclose : ')' ∉ owner) : Owned owner false
  | pointer {owner : List Char} (hne : owner ≠ []) (hclose : ')' ∉ owner) : Owned owner true

/-- The parts leave no doubt about where they end: a kind of symbol, a name without a dot, and an
    owner that can be told from it. -/
structure WellFormed (i : Identifier) : Prop where
  kind : i.kind ∈ kinds
  name_ne : i.name ≠ ""
  name_dot : '.' ∉ i.name.toList
  owned : Owned i.owner.toList i.pointer

/-- A pointer has an owner to point to. -/
theorem Owned.pointer_eq_false {owner : List Char} {pointer : Bool} (h : Owned owner pointer)
    (hempty : owner = []) : pointer = false := by
  cases h with
  | none => rfl
  | plain => rfl
  | pointer hne => exact absurd hempty hne

variable {mark : Char} {cs a b owner name path : List Char} {pointer : Bool}

/-! ### The pieces of the reader -/

/-- A text is cut at the first place of a character. -/
theorem cutAt_eq_some_iff : cutAt mark cs = some (a, b) ↔ cs = a ++ mark :: b ∧ mark ∉ a := by
  induction cs generalizing a with
  | nil => simp [cutAt]
  | cons c rest ih =>
    unfold cutAt
    -- the mark itself, or some character before it that the induction passes over
    by_cases hc : c = mark
    · subst hc
      cases a with
      | nil => simp [eq_comm]
      | cons x a => simp +contextual [eq_comm]
    · rw [if_neg (by simpa using hc), Option.map_eq_some_iff]
      constructor
      · rintro ⟨⟨a', b'⟩, hcut, heq⟩
        obtain ⟨rfl, rfl⟩ := Prod.mk.inj heq
        obtain ⟨rfl, hnot⟩ := ih.mp hcut
        exact ⟨rfl, by simp [hnot, Ne.symm hc]⟩
      · rintro ⟨heq, hnot⟩
        -- where the text begins with another character, the part before the mark begins with it too
        cases a with
        | nil => exact absurd (List.cons.inj heq).1 hc
        | cons x a =>
          obtain ⟨rfl, rfl⟩ := List.cons.inj heq
          exact ⟨(a, b), ih.mpr ⟨rfl, fun h => hnot (List.mem_cons_of_mem _ h)⟩, rfl⟩

/-- The owner as it stands before the dot of a path. -/
def ownerText (pointer : Bool) (owner : List Char) : List Char :=
  if pointer then '(' :: '*' :: owner ++ [')'] else owner

/-- What is refused of an owner and a name: that one of them is empty, and a dot in the name. -/
theorem unfit_eq_false : (owner.isEmpty || name.isEmpty || name.contains '.') = false ↔
    owner ≠ [] ∧ name ≠ [] ∧ '.' ∉ name := by
  simp [and_assoc]

/-- What is split off a path is an owner and a name, with a dot between them. -/
theorem splitPath?_spec (h : splitPath? path = some (owner, name, pointer)) :
    path = ownerText pointer owner ++ '.' :: name ∧ Owned owner pointer ∧ owner ≠ [] ∧ name ≠ [] ∧
      '.' ∉ name := by
  unfold splitPath? at h
  dsimp only at h
  split at h
  · -- a pointer, up to the first closing parenthesis
    split at h
    · rename_i hcut
      obtain ⟨rfl, hclose⟩ := cutAt_eq_some_iff.mp hcut
      split at h
      · cases h
      · rename_i hfit
        obtain ⟨hne, hname, hdot⟩ := unfit_eq_false.mp (Bool.eq_false_iff.mpr hfit)
        cases h
        exact ⟨by simp [ownerText], .pointer hne hclose, hne, hname, hdot⟩
    · cases h
  · -- a plain owner, up to the first dot
    split at h
    · rename_i hcut
      obtain ⟨rfl, hplain⟩ := cutAt_eq_some_iff.mp hcut
      split at h
      · cases h
      · rename_i hparens
        split at h
        · cases h
        · rename_i hfit
          obtain ⟨hne, hname, hdot⟩ := unfit_eq_false.mp (Bool.eq_false_iff.mpr hfit)
          simp only [Bool.or_eq_true, List.contains_iff_mem, not_or] at hparens
          cases h
          exact ⟨rfl, .plain hne hplain hparens.1 hparens.2, hne, hname, hdot⟩
    · cases h

/-- An owner that can be told from the name is split off the path. -/
theorem splitPath?_ownerText (howned : Owned owner pointer) (hne : owner ≠ []) (hname : name ≠ [])
    (hdot : '.' ∉ name) :
    splitPath? (ownerText pointer owner ++ '.' :: name) = some (owner, name, pointer) := by
  have hfit := unfit_eq_false.mpr ⟨hne, hname, hdot⟩
  cases howned with
  | none => exact absurd rfl hne
  | plain _ hplain hopen hclose =>
    have hcut : cutAt '.' (owner ++ '.' :: name) = some (owner, name) :=
      cutAt_eq_some_iff.mpr ⟨rfl, hplain⟩
    have hparens : (owner.contains '(' || owner.contains ')') = false := by simp [hopen, hclose]
    show splitPath? (owner ++ '.' :: name) = _
    unfold splitPath?
    dsimp only
    split
    · -- a plain owner does not begin with a parenthesis
      rename_i rest heq
      cases owner with
      | nil => exact absurd rfl hne
      | cons c owner =>
        obtain rfl : c = '(' := (List.cons.inj heq).1
        exact absurd List.mem_cons_self hopen
    · rw [hcut]
      dsimp only
      rw [hparens, hfit]
      rfl
  | pointer _ hclose =>
    have hcut : cutAt ')' (owner ++ ')' :: '.' :: name) = some (owner, '.' :: name) :=
      cutAt_eq_some_iff.mpr ⟨rfl, hclose⟩
    have htext : ownerText true owner ++ '.' :: name
        = '(' :: '*' :: (owner ++ ')' :: '.' :: name) := by simp [ownerText]
    rw [htext]
    simp only [splitPath?, hcut, hfit]
    rfl

/-! ### Addresses -/

/-- The characters of an address. -/
theorem toList_text (i : Identifier) : i.text.toList = i.kind.toList ++ ':' :: i.path.toList := by
  simp [text]

/-- The characters of a path. -/
theorem toList_path (i : Identifier) : i.path.toList =
    if i.owner.toList = [] then i.name.toList
    else ownerText i.pointer i.owner.toList ++ '.' :: i.name.toList := by
  unfold path ownerText
  by_cases howner : i.owner.toList = []
  · rw [if_pos howner, if_pos (by simpa using howner)]
  · rw [if_neg howner, if_neg (by simpa using howner)]
    cases i.pointer <;> simp

/-- No kind of symbol has a colon. -/
theorem colon_not_mem_kind {kind : String} (h : kind ∈ kinds) : ':' ∉ kind.toList := by
  revert kind
  decide

/-- **What is read is an address of well-formed parts.** -/
theorem parse?_spec {s : String} {i : Identifier} (h : parse? s = some i) :
    i.WellFormed ∧ i.text = s := by
  unfold parse? at h
  split at h
  · cases h
  · rename_i kind path hcut
    obtain ⟨hs, -⟩ := cutAt_eq_some_iff.mp hcut
    dsimp only at h
    split at h
    · cases h
    · rename_i hhead
      obtain ⟨hkind, hpath⟩ : String.ofList kind ∈ kinds ∧ path ≠ [] := by simpa using hhead
      have hs' : s = String.ofList kind ++ ":" ++ String.ofList path := by
        rw [← String.toList_inj]
        simpa using hs
      split at h
      · -- a path without a dot is a name
        rename_i hdot
        cases h
        refine ⟨⟨hkind, by simpa using hpath, by simpa using hdot, .none⟩, ?_⟩
        rw [hs']
        rfl
      · obtain ⟨⟨owner, name, pointer⟩, hsplit, rfl⟩ := Option.map_eq_some_iff.mp h
        obtain ⟨rfl, howned, hne, hname, hdot⟩ := splitPath?_spec hsplit
        refine ⟨⟨hkind, by simpa using hname, by simpa using hdot, by simpa using howned⟩, ?_⟩
        rw [hs', ← String.toList_inj, toList_text, toList_path, String.toList_ofList, String.toList_ofList,
          if_neg hne]
        simp

/-- **An address of well-formed parts is read back.** -/
theorem parse?_text {i : Identifier} (h : i.WellFormed) : parse? i.text = some i := by
  have hcut : cutAt ':' i.text.toList = some (i.kind.toList, i.path.toList) :=
    cutAt_eq_some_iff.mpr ⟨toList_text i, colon_not_mem_kind h.kind⟩
  have hkind : kinds.contains i.kind = true := List.contains_iff_mem.mpr h.kind
  have hname : i.name.toList ≠ [] := by simpa using h.name_ne
  unfold parse?
  rw [hcut, toList_path]
  simp only [String.ofList_toList, hkind]
  by_cases howner : i.owner.toList = []
  · -- without an owner the name is the whole path, and it has no dot
    have hpointer : i.pointer = false := h.owned.pointer_eq_false howner
    have hempty : i.owner = "" := by simpa using howner
    rw [if_pos howner]
    simp [hname, h.name_dot]
    rw [← hempty, ← hpointer]
  · rw [if_neg howner, splitPath?_ownerText h.owned howner hname h.name_dot]
    simp

/-- **Reading and writing addresses are inverse to each other.**  What is read is written as it was, for
    every text; identifiers with well-formed parts are read back, names and pointers included; and the
    texts that are read are the addresses of such identifiers and no others. -/
theorem reading_inverts_writing :
    (∀ s i, parse? s = some i → i.text = s) ∧
    (∀ i : Identifier, i.WellFormed → parse? i.text = some i) ∧
    ∀ s, (parse? s).isSome = true ↔ ∃ i : Identifier, i.WellFormed ∧ i.text = s := by
  refine ⟨fun s i h => (parse?_spec h).2, fun i h => parse?_text h, fun s => ?_⟩
  constructor
  · intro h
    obtain ⟨i, hi⟩ := Option.isSome_iff_exists.mp h
    exact ⟨i, parse?_spec hi⟩
  · rintro ⟨i, hwell, rfl⟩
    rw [parse?_text hwell]
    rfl

/-- The owner of a pointer may have dots, colons and parentheses that open, and a name may have anything
    but dots; the same text without the closing parenthesis is no address. -/
theorem reading_inverts_writing_of_a_pointer :
    let i : Identifier := { kind := "func", name := "B:)\n", owner := "a.(b:", pointer := true }
    i.WellFormed ∧ i.text = "func:(*a.(b:).B:)\n" ∧ parse? "func:(*a.(b:).B:)\n" = some i ∧
      ¬ ∃ j : Identifier, j.WellFormed ∧ j.text = "func:(*a.(b:" := by
  intro i
  have hwell : i.WellFormed :=
    ⟨by decide, by decide, by decide, .pointer (by decide) (by decide)⟩
  obtain ⟨-, hback, haddress⟩ := reading_inverts_writing
  refine ⟨hwell, by decide, hback i hwell, fun h => ?_⟩
  have hread := (haddress "func:(*a.(b:").mpr h
  revert hread
  decide

end Docsmith.Identifier
