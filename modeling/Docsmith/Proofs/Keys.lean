import Docsmith.Language.Registry

namespace Docsmith

/-!
# Values under keys

Several tables of the library are lists of keys with their values, in which a value is put in the
place of an earlier one or added at the end.

* `find?_put`: the value under a key afterwards.
* `mem_put`, `nodup_put`: the entries afterwards, and their keys.
* `find?_eq_some_iff`: with each key once, a lookup tells the entries.
* `toString_nat_inj`: a key that ends with a number tells it.
* `EditSet.put_cons`: the table of edits.
* `Languages.put_cons`, `Languages.named_ofList`, `Languages.mem_of_get_ofList`: the table of
  languages.
-/

section Keys

variable {κ α : Type} [DecidableEq κ] (put : List (κ × α) → List (κ × α)) {key : κ} {value : α}

/-- The value under a key after one was put in its place or added at the end. -/
theorem find?_put [BEq κ] [LawfulBEq κ] (hnil : put [] = [(key, value)])
    (hcons : ∀ k old rest, put ((k, old) :: rest)
      = if k = key then (k, value) :: rest else (k, old) :: put rest)
    (entries : List (κ × α)) (other : κ) :
    ((put entries).find? (·.1 == other)).map (·.2)
      = if key = other then some value else (entries.find? (·.1 == other)).map (·.2) := by
  -- the entry is found at its key, or stands where it did; the induction is over the list
  induction entries with
  | nil => by_cases h : key = other <;> simp [hnil, h]
  | cons x rest ih =>
    obtain ⟨k, old⟩ := x
    rw [hcons]
    -- the key was in the list: its value is replaced there
    by_cases hk : k = key
    · subst hk
      by_cases h : k = other <;> simp [h]
    · rw [if_neg hk]
      -- the entry looked up stands first, and it is not the one that was put
      by_cases h : k = other
      · subst h
        have hkey : key ≠ k := fun h => hk h.symm
        simp [hkey]
      · simpa [h] using ih

/-- The entries after a value was put: the one with this value, and some of those before. -/
theorem mem_put (hnil : put [] = [(key, value)])
    (hcons : ∀ k old rest, put ((k, old) :: rest)
      = if k = key then (k, value) :: rest else (k, old) :: put rest)
    {entries : List (κ × α)} {x : κ × α} (h : x ∈ put entries) :
    x = (key, value) ∨ x ∈ entries := by
  induction entries with
  | nil => rw [hnil] at h; exact .inl (List.mem_singleton.mp h)
  | cons y rest ih =>
    obtain ⟨k, old⟩ := y
    rw [hcons] at h
    -- where the key stands already, the new pair takes the place of the old one
    split at h
    · rename_i hk
      rcases List.mem_cons.mp h with h | h
      · exact .inl (by rw [h, hk])
      · exact .inr (List.mem_cons_of_mem _ h)
    · rcases List.mem_cons.mp h with h | h
      · exact .inr (by rw [h]; exact List.mem_cons_self)
      · rcases ih h with h | h
        · exact .inl h
        · exact .inr (List.mem_cons_of_mem _ h)

/-- Each key still stands once after a value was put. -/
theorem nodup_put (hnil : put [] = [(key, value)])
    (hcons : ∀ k old rest, put ((k, old) :: rest)
      = if k = key then (k, value) :: rest else (k, old) :: put rest)
    {entries : List (κ × α)} (h : (entries.map Prod.fst).Nodup) :
    ((put entries).map Prod.fst).Nodup := by
  induction entries with
  | nil => simp [hnil]
  | cons y rest ih =>
    obtain ⟨k, old⟩ := y
    obtain ⟨hnot, hrest⟩ := List.nodup_cons.mp h
    rw [hcons]
    -- a key that was there is not put a second time; a new one goes to the end
    by_cases hk : k = key
    · rw [if_pos hk]
      exact List.nodup_cons.mpr ⟨hnot, hrest⟩
    · rw [if_neg hk]
      refine List.nodup_cons.mpr ⟨fun hmem => ?_, ih hrest⟩
      obtain ⟨x, hx, hfirst⟩ := List.mem_map.mp hmem
      rcases mem_put put hnil hcons hx with rfl | hx
      · exact hk hfirst.symm
      · exact hnot (List.mem_map.mpr ⟨x, hx, hfirst⟩)

end Keys

/-- When each key stands once, a value is found under its key if it is there. -/
theorem find?_eq_some_iff {κ α : Type} [BEq κ] [LawfulBEq κ] {entries : List (κ × α)}
    (h : (entries.map Prod.fst).Nodup) {key : κ} {value : α} :
    (entries.find? (·.1 == key)).map (·.2) = some value ↔ (key, value) ∈ entries := by
  induction entries with
  | nil => simp
  | cons x rest ih =>
    obtain ⟨k, old⟩ := x
    obtain ⟨hnot, hrest⟩ := List.nodup_cons.mp h
    by_cases hk : k = key
    · subst hk
      have habsent : (k, value) ∉ rest := fun hmem => hnot (List.mem_map.mpr ⟨_, hmem, rfl⟩)
      simp [habsent, eq_comm]
    · have hk' : key ≠ k := fun h => hk h.symm
      simpa [hk, hk'] using ih hrest

/-- A number is told by its digits. -/
theorem toString_nat_inj {m n : Nat} : toString m = toString n ↔ m = n := by
  refine ⟨fun h => ?_, fun h => by rw [h]⟩
  have hdigits : Nat.toDigits 10 m = Nat.toDigits 10 n := by
    rw [← Nat.toList_repr, ← Nat.toList_repr]
    exact congrArg String.toList h
  calc m = Nat.ofDigitChars 10 (Nat.toDigits 10 m) 0 := Nat.ofDigitChars_ten_toDigits.symm
    _ = Nat.ofDigitChars 10 (Nat.toDigits 10 n) 0 := by rw [hdigits]
    _ = n := Nat.ofDigitChars_ten_toDigits

theorem EditSet.put_cons (key : String) (e : Edit) (k : String) (old : Edit)
    (rest : List (String × Edit)) : put key e ((k, old) :: rest)
      = if k = key then (k, e) :: rest else (k, old) :: put key e rest := by
  by_cases h : k = key <;> simp [put, h]

namespace Languages

theorem put_cons (key : String) (l : Language) (k : String) (old : Language)
    (rest : List (String × Language)) : put key l ((k, old) :: rest)
      = if k = key then (k, l) :: rest else (k, old) :: put key l rest := by
  by_cases h : k = key <;> simp [put, h]

/-- Every language is found under its own name. -/
def Named (r : Languages) : Prop := ∀ name l, r.get name = .ok l → l.name = name

theorem get_eq_ok {r : Languages} {name : String} {l : Language} :
    r.get name = .ok l ↔ lookup r.byName name = some l := by
  unfold get
  cases lookup r.byName name with
  | none => simp
  | some l => simp

/-- A language is registered under its own name. -/
theorem Named.register {r : Languages} (h : r.Named) (l : Language) : (r.register l).Named := by
  intro name other hget
  have hlookup : lookup (put l.name l r.byName) name
      = if l.name = name then some l else lookup r.byName name :=
    find?_put (put l.name l) rfl (put_cons l.name l) r.byName name
  have hfound : lookup (put l.name l r.byName) name = some other := get_eq_ok.mp hget
  rw [hlookup] at hfound
  by_cases hname : l.name = name
  · rw [if_pos hname] at hfound
    rw [← Option.some.inj hfound, hname]
  · rw [if_neg hname] at hfound
    exact h name other (get_eq_ok.mpr hfound)

/-- Languages that are registered are found under their own names. -/
theorem named_ofList (ls : List Language) : (ofList ls).Named := by
  have hfrom : ∀ r : Languages, r.Named → (ls.foldl Languages.register r).Named := by
    induction ls with
    | nil => exact fun _ h => h
    | cons l ls ih => exact fun r h => ih (r.register l) (h.register l)
  refine hfrom {} ?_
  intro name l hget
  cases hget

/-- A language that is found is one of those that were registered. -/
theorem mem_of_get_ofList {ls : List Language} {name : String} {l : Language}
    (h : (ofList ls).get name = .ok l) : l ∈ ls := by
  -- registering one language after the other adds its own names and keeps the older entries
  have hfrom : ∀ (ls : List Language) (r : Languages),
      ∀ e ∈ (ls.foldl Languages.register r).byName, e.2 ∈ ls ∨ e ∈ r.byName := by
    intro ls
    induction ls with
    | nil => exact fun r e he => .inr he
    | cons first rest ih =>
      intro r e he
      rcases ih (r.register first) e he with hrest | hbefore
      · exact .inl (List.mem_cons_of_mem first hrest)
      · rcases mem_put (put first.name first) rfl (put_cons first.name first) hbefore
          with rfl | hold
        · exact .inl List.mem_cons_self
        · exact .inr hold
  obtain ⟨e, he, rfl⟩ := Option.map_eq_some_iff.mp (get_eq_ok.mp h)
  rcases hfrom ls {} e (List.mem_of_find?_eq_some he) with hmem | hnil
  · exact hmem
  · cases hnil

end Languages

end Docsmith
