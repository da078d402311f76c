import Docsmith.Find.Resolve
import Docsmith.Proofs.Identifier

namespace Docsmith

/-!
# Declarations are found by their identifiers

The identifier of a declaration leads back to it, or to one that cannot be told from it by its name: one of the
same sort, owner and name.  A further name of a value counts only where no value has it as its own.

* `isPlainName`, `Declaration.Plain`: names without the marks of an address.
* `Declaration.address`, `Declaration.parse?_identifier`: the parts of the identifier of a declaration.
* `Declaration.Agrees`: two declarations cannot be told apart by sort, owner and name.
* `Identifier.ownMatchers`, `resolve?_eq`: the ways to mean a declaration by its own name come first.
* `agrees_of_means`, `exists_means`: what they mean.
* `resolve?_agrees`, `resolve?_identifier`: the identifier of a declaration leads to one that agrees with it.
* `resolve?_value`: what the identifier of a value leads to.
-/

/-! ### Plain names -/

/-- The marks of an address: what stands between its parts, and around an owner. -/
def addressMarks : List Char := ['.', ':', '(', ')', '*', '[', ']']

/-- A name that is not empty and has no marks of an address. -/
def isPlainName (s : String) : Bool :=
  !s.isEmpty && s.toList.all fun c => !addressMarks.contains c

theorem isPlainName_iff {s : String} : isPlainName s = true ↔ s ≠ "" ∧ ∀ c ∈ s.toList, c ∉ addressMarks := by
  simp [isPlainName]

/-- The sorts whose declarations belong to an owner. -/
def DeclKind.owned : DeclKind → Bool
  | .method | .interfaceMethod | .property => true
  | .function | .type | .value => false

/-- The sort under which a declaration is addressed: a method of an interface counts as a method. -/
def DeclKind.space : DeclKind → DeclKind
  | .interfaceMethod => .method
  | kind => kind

/-- The names of a declaration are plain; it has an owner if its sort has one, and the keyword of a value if it
    is one. -/
structure Declaration.Plain (d : Declaration) : Prop where
  name : isPlainName d.name = true
  owner : if d.kind.owned then isPlainName d.owner = true else d.owner = ""
  keyword : d.kind = .value → d.keyword ∈ ["", "var", "const"]

instance (d : Declaration) : Decidable d.Plain :=
  decidable_of_iff (isPlainName d.name = true ∧
      (if d.kind.owned then isPlainName d.owner = true else d.owner = "") ∧
      (d.kind = .value → d.keyword ∈ ["", "var", "const"]))
    ⟨fun ⟨h₁, h₂, h₃⟩ => ⟨h₁, h₂, h₃⟩, fun ⟨h₁, h₂, h₃⟩ => ⟨h₁, h₂, h₃⟩⟩

/-- Nothing is dropped from a text without parameters. -/
theorem dropParameters_eq_self {cs : List Char} (h : '[' ∉ cs) : dropParameters cs = cs := by
  induction cs with
  | nil => rfl
  | cons c rest ih =>
    rw [List.mem_cons, not_or] at h
    rw [dropParameters, if_neg (by simpa using Ne.symm h.1), ih h.2]

/-- Nothing is dropped from the front of a list if its elements are to be kept. -/
theorem dropWhile_eq_self {α : Type} {p : α → Bool} {xs : List α} (h : ∀ x ∈ xs, p x = false) :
    xs.dropWhile p = xs := by
  cases xs with
  | nil => rfl
  | cons x rest => rw [List.dropWhile_cons_of_neg (by simp [h x List.mem_cons_self])]

/-- An owner without marks is kept as it is. -/
theorem ownerName_eq_self {s : String} (h : ∀ c ∈ s.toList, c ∉ addressMarks) : ownerName s = s := by
  have hmark : ∀ c ∈ s.toList, ∀ mark ∈ addressMarks, c ≠ mark := fun c hc mark hmark heq => h c hc (heq ▸ hmark)
  have hparens : ∀ c ∈ s.toList, (c == '(' || c == ')') = false := fun c hc => by
    simp [hmark c hc '(' (by decide), hmark c hc ')' (by decide)]
  have hstar : ∀ c ∈ s.toList, (c == '*') = false := fun c hc => by simp [hmark c hc '*' (by decide)]
  have hbracket : '[' ∉ s.toList := fun hmem => h _ hmem (by decide)
  unfold ownerName
  dsimp only
  rw [dropWhile_eq_self hparens, dropWhile_eq_self (fun c hc => hparens c (List.mem_reverse.mp hc)),
    List.reverse_reverse, dropWhile_eq_self hstar, dropParameters_eq_self hbracket, String.ofList_toList]

namespace Declaration

variable {d e : Declaration}

theorem Plain.owner_of_owned (h : d.Plain) (hkind : d.kind.owned = true) : isPlainName d.owner = true := by
  have howner := h.owner
  rwa [if_pos hkind] at howner

theorem Plain.owner_eq (h : d.Plain) (hkind : d.kind.owned = false) : d.owner = "" := by
  have howner := h.owner
  rwa [if_neg (by simp [hkind])] at howner

/-- The owner of a declaration is kept as it is. -/
theorem Plain.ownerName_eq (h : d.Plain) : ownerName d.owner = d.owner := by
  refine ownerName_eq_self ?_
  cases hkind : d.kind.owned with
  | true => exact (isPlainName_iff.mp (h.owner_of_owned hkind)).2
  | false => rw [h.owner_eq hkind]; simp

/-! ### Addresses -/

/-- The parts of the identifier of a declaration. -/
def address (d : Declaration) : Identifier :=
  match d.kind with
  | .type => { kind := "type", name := d.name }
  | .value => { kind := if d.keyword.isEmpty then "var" else d.keyword, name := d.name }
  | .property => { kind := "prop", name := d.name, owner := d.owner }
  | .method | .interfaceMethod => { kind := "func", name := d.name, owner := d.owner, pointer := d.pointer }
  | .function => { kind := "func", name := d.name }

/-- The name in an identifier is that of the declaration. -/
theorem address_name (d : Declaration) : d.address.name = d.name := by
  unfold address
  split <;> rfl

/-- The owner in an identifier is that of the declaration. -/
theorem Plain.address_owner (h : d.Plain) : d.address.owner = d.owner := by
  have howner := h.owner_eq
  unfold address
  split <;> simp_all [DeclKind.owned]

/-- The kind of an identifier is one of those that there are. -/
theorem Plain.address_kind (h : d.Plain) : d.address.kind ∈ Identifier.kinds := by
  have hkeyword := h.keyword
  unfold address
  split
  case h_2 hkind =>
    have hcases : d.keyword = "" ∨ d.keyword = "var" ∨ d.keyword = "const" := by simpa using hkeyword hkind
    rcases hcases with hk | hk | hk <;> simp only [hk] <;> decide
  all_goals simp [Identifier.kinds]

/-- The parts of the identifier of a declaration leave no doubt about where they end. -/
theorem Plain.wellFormed (h : d.Plain) : d.address.WellFormed where
  kind := h.address_kind
  name_ne := by
    rw [address_name]
    exact (isPlainName_iff.mp h.name).1
  name_dot hdot := by
    rw [address_name] at hdot
    exact (isPlainName_iff.mp h.name).2 _ hdot (by decide)
  owned := by
    -- an owner of its own sort is plain, and marked as a pointer or not
    have howned (pointer : Bool) (hkind : d.kind.owned = true) : Identifier.Owned d.owner.toList pointer := by
      obtain ⟨hne, hmarks⟩ := isPlainName_iff.mp (h.owner_of_owned hkind)
      have hmark : ∀ mark ∈ addressMarks, mark ∉ d.owner.toList := fun mark hmark hmem => hmarks mark hmem hmark
      have hnil : d.owner.toList ≠ [] := by simpa using hne
      cases pointer with
      | true => exact .pointer hnil (hmark ')' (by decide))
      | false => exact .plain hnil (hmark '.' (by decide)) (hmark '(' (by decide)) (hmark ')' (by decide))
    unfold address
    split
    · exact .none
    · exact .none
    · rename_i hkind
      exact howned false (by rw [hkind]; rfl)
    · rename_i hkind
      exact howned d.pointer (by rw [hkind]; rfl)
    · rename_i hkind
      exact howned d.pointer (by rw [hkind]; rfl)
    · exact .none

/-- The identifier of a declaration is the address of its parts. -/
theorem Plain.identifier_eq (h : d.Plain) : d.identifier = d.address.text := by
  have howner (hkind : d.kind.owned = true) : d.owner ≠ "" := (isPlainName_iff.mp (h.owner_of_owned hkind)).1
  rw [← String.toList_inj]
  unfold identifier address
  split <;> rename_i hkind <;>
    simp_all [DeclKind.owned, Identifier.text, Identifier.path, ownerText]

/-- **The identifier of a declaration is read back as its parts.** -/
theorem Plain.parse?_identifier (h : d.Plain) : Identifier.parse? d.identifier = some d.address := by
  rw [h.identifier_eq, Identifier.parse?_text h.wellFormed]

/-- The declarations have one sort, methods of interfaces counted as methods, one owner and one name. -/
structure Agrees (d e : Declaration) : Prop where
  space : d.kind.space = e.kind.space
  owner : d.owner = e.owner
  name : d.name = e.name

end Declaration

/-! ### What an identifier means -/

namespace Identifier

variable {i : Identifier} {d e : Declaration} {ds : List Declaration}

/-- The ways in which an identifier can mean a declaration by its own name, the strongest first. -/
def ownMatchers : List (Identifier → Declaration → Bool) :=
  [meansFunction, meansMethod, meansType, meansValue, meansInterfaceMethod, meansProperty]

/-- A further name comes after all own names. -/
theorem matchers_eq : matchers = ownMatchers ++ [meansAlias] := rfl

theorem meansFunction_iff : i.meansFunction d = true ↔
    i.kind = "func" ∧ i.owner = "" ∧ d.kind = .function ∧ d.name = i.name := by
  simp [meansFunction, and_assoc]

theorem meansMethod_iff : i.meansMethod d = true ↔
    i.kind = "func" ∧ d.kind = .method ∧ d.name = i.name ∧ ownerName d.owner = ownerName i.owner := by
  simp [meansMethod, and_assoc]

theorem meansType_iff : i.meansType d = true ↔ i.kind = "type" ∧ d.kind = .type ∧ d.name = i.name := by
  simp [meansType, and_assoc]

theorem meansValue_iff : i.meansValue d = true ↔ i.isValue = true ∧ d.kind = .value ∧ d.name = i.name := by
  simp [meansValue, and_assoc]

theorem meansInterfaceMethod_iff : i.meansInterfaceMethod d = true ↔
    i.kind = "func" ∧ d.kind = .interfaceMethod ∧ d.name = i.name ∧ d.owner = ownerName i.owner := by
  simp [meansInterfaceMethod, and_assoc]

theorem meansProperty_iff : i.meansProperty d = true ↔
    i.kind = "prop" ∧ d.kind = .property ∧ d.name = i.name ∧ d.owner = i.owner := by
  simp [meansProperty, and_assoc]

theorem meansAlias_iff : i.meansAlias d = true ↔
    i.isValue = true ∧ d.kind = .value ∧ i.name ∈ d.aliases := by
  simp [meansAlias, and_assoc]

theorem isValue_iff : i.isValue = true ↔ i.kind = "var" ∨ i.kind = "const" := by
  simp [isValue]

end Identifier

namespace Declaration

variable {d e : Declaration}

/-- The kind of an identifier tells the sort of its declaration; of what is addressed like a function, the
    owner tells whether it is one. -/
theorem Plain.kind_cases (h : d.Plain) :
    d.address.kind = "func" ∧ (d.kind = .function ∧ d.owner = "" ∨ d.kind.space = .method ∧ d.owner ≠ "") ∨
    d.address.kind = "type" ∧ d.kind = .type ∧ d.owner = "" ∨
    d.address.isValue = true ∧ d.kind = .value ∧ d.owner = "" ∨
    d.address.kind = "prop" ∧ d.kind = .property := by
  have hkeyword := h.keyword
  have hnone := h.owner_eq
  have hsome (hkind : d.kind.owned = true) : d.owner ≠ "" := (isPlainName_iff.mp (h.owner_of_owned hkind)).1
  unfold address
  cases hkind : d.kind <;> simp_all [DeclKind.owned, DeclKind.space, Identifier.isValue]
  rcases hkeyword with hk | hk | hk <;> simp [hk]

/-- **A declaration is meant by its own identifier.** -/
theorem Plain.exists_means (h : d.Plain) : ∃ means ∈ Identifier.ownMatchers, means d.address d = true := by
  have howner := h.ownerName_eq.symm
  -- each kind has the matcher that asks for its own kind, name and owner
  cases hkind : d.kind with
  | function => exact ⟨Identifier.meansFunction, by simp [Identifier.ownMatchers], by
      simp [Identifier.meansFunction, address, hkind]⟩
  | method => exact ⟨Identifier.meansMethod, by simp [Identifier.ownMatchers], by
      simp [Identifier.meansMethod, address, hkind]⟩
  | type => exact ⟨Identifier.meansType, by simp [Identifier.ownMatchers], by
      simp [Identifier.meansType, address, hkind]⟩
  | value =>
    refine ⟨Identifier.meansValue, by simp [Identifier.ownMatchers], ?_⟩
    have hvalue : d.address.isValue = true := by
      rcases h.kind_cases with ⟨-, ⟨hk, -⟩ | ⟨hk, -⟩⟩ | ⟨-, hk, -⟩ | ⟨hvalue, -⟩ | ⟨-, hk⟩
      all_goals simp_all [DeclKind.space]
    exact Identifier.meansValue_iff.mpr ⟨hvalue, hkind, d.address_name.symm⟩
  | interfaceMethod => exact ⟨Identifier.meansInterfaceMethod, by simp [Identifier.ownMatchers], by
      simp [Identifier.meansInterfaceMethod, address, hkind, ← howner]⟩
  | property => exact ⟨Identifier.meansProperty, by simp [Identifier.ownMatchers], by
      simp [Identifier.meansProperty, address, hkind]⟩

/-- **What an identifier means by its own name agrees** with the declaration that it is of. -/
theorem Plain.agrees_of_means (hd : d.Plain) (he : e.Plain) {means : Identifier → Declaration → Bool}
    (hmem : means ∈ Identifier.ownMatchers) (hmeans : means d.address e = true) : e.Agrees d := by
  have hcases := hd.kind_cases
  have hname := d.address_name
  have howner := hd.address_owner
  have hnone := he.owner_eq
  -- the matchers one by one; the kinds that an address allows settle which declaration it is of
  simp only [Identifier.ownMatchers, List.mem_cons, List.not_mem_nil, or_false] at hmem
  rcases hmem with rfl | rfl | rfl | rfl | rfl | rfl
  · -- a function has no owner, and methods have
    obtain ⟨hfunc, hempty, hkind, hname'⟩ := Identifier.meansFunction_iff.mp hmeans
    have hspace : d.kind = .function ∧ d.owner = "" := by simp_all [Identifier.isValue]
    exact ⟨by rw [hkind, hspace.1], by rw [hnone (by rw [hkind]; rfl), hspace.2], hname'.trans hname⟩
  · obtain ⟨hfunc, hkind, hname', howner'⟩ := Identifier.meansMethod_iff.mp hmeans
    rw [howner, he.ownerName_eq, hd.ownerName_eq] at howner'
    have hsome := (isPlainName_iff.mp (he.owner_of_owned (by rw [hkind]; rfl))).1
    have hspace : d.kind.space = .method := by simp_all [Identifier.isValue]
    exact ⟨by rw [hkind, hspace]; rfl, howner', hname'.trans hname⟩
  · obtain ⟨htype, hkind, hname'⟩ := Identifier.meansType_iff.mp hmeans
    have hspace : d.kind = .type ∧ d.owner = "" := by simp_all [Identifier.isValue]
    exact ⟨by rw [hkind, hspace.1], by rw [hnone (by rw [hkind]; rfl), hspace.2], hname'.trans hname⟩
  · obtain ⟨hvalue, hkind, hname'⟩ := Identifier.meansValue_iff.mp hmeans
    have hspace : d.kind = .value ∧ d.owner = "" := by
      rw [Identifier.isValue_iff] at hvalue
      rcases hvalue with hvalue | hvalue <;> simp_all [Identifier.isValue]
    exact ⟨by rw [hkind, hspace.1], by rw [hnone (by rw [hkind]; rfl), hspace.2], hname'.trans hname⟩
  · obtain ⟨hfunc, hkind, hname', howner'⟩ := Identifier.meansInterfaceMethod_iff.mp hmeans
    rw [howner, hd.ownerName_eq] at howner'
    have hsome := (isPlainName_iff.mp (he.owner_of_owned (by rw [hkind]; rfl))).1
    have hspace : d.kind.space = .method := by simp_all [Identifier.isValue]
    exact ⟨by rw [hkind, hspace]; rfl, howner', hname'.trans hname⟩
  · obtain ⟨hprop, hkind, hname', howner'⟩ := Identifier.meansProperty_iff.mp hmeans
    have hspace : d.kind = .property := by simp_all [Identifier.isValue]
    exact ⟨by rw [hkind, hspace], howner'.trans howner, hname'.trans hname⟩

end Declaration

/-! ### What an identifier leads to -/

section Resolve

variable {ds : List Declaration} {d r : Declaration} {s : String} {i : Identifier}

/-- Own names are tried before further names. -/
theorem resolve?_eq (ds : List Declaration) (h : Identifier.parse? s = some i) : resolve? ds s
    = (Identifier.ownMatchers.findSome? fun means => ds.find? (means i)).or (ds.find? (i.meansAlias)) := by
  simp [resolve?, h, Identifier.matchers_eq, List.findSome?_append]

/-- What is meant by its own name is among the declarations, in one of the ways. -/
theorem exists_of_own (h : (Identifier.ownMatchers.findSome? fun means => ds.find? (means i)) = some r) :
    r ∈ ds ∧ ∃ means ∈ Identifier.ownMatchers, means i r = true := by
  obtain ⟨means, hmeans, hfind⟩ := List.exists_of_findSome?_eq_some h
  exact ⟨List.mem_of_find?_eq_some hfind, means, hmeans, List.find?_some hfind⟩

/-- When nothing is meant by its own name, no declaration is. -/
theorem not_means_of_own (h : (Identifier.ownMatchers.findSome? fun means => ds.find? (means i)) = none) :
    ∀ means ∈ Identifier.ownMatchers, ∀ e ∈ ds, ¬ means i e = true := by
  intro means hmeans
  exact List.find?_eq_none.mp (List.findSome?_eq_none_iff.mp h means hmeans)

/-- **The identifier of a declaration leads to one that agrees with it.** -/
theorem resolve?_agrees (hplain : ∀ e ∈ ds, e.Plain) (hd : d ∈ ds) :
    ∃ r ∈ ds, resolve? ds d.identifier = some r ∧ r.Agrees d := by
  rw [resolve?_eq ds (hplain d hd).parse?_identifier]
  cases hown : Identifier.ownMatchers.findSome? fun means => ds.find? (means d.address) with
  | none =>
    obtain ⟨means, hmem, hmeans⟩ := (hplain d hd).exists_means
    exact absurd hmeans (not_means_of_own hown means hmem d hd)
  | some r =>
    obtain ⟨hr, means, hmem, hmeans⟩ := exists_of_own hown
    exact ⟨r, hr, rfl, (hplain d hd).agrees_of_means (hplain r hr) hmem hmeans⟩

/-- **The identifier of a declaration leads back to it** if no other one agrees with it. -/
theorem resolve?_identifier (hplain : ∀ e ∈ ds, e.Plain) (hd : d ∈ ds)
    (halone : ∀ e ∈ ds, e.Agrees d → e = d) : resolve? ds d.identifier = some d := by
  obtain ⟨r, hr, hresolve, hagrees⟩ := resolve?_agrees hplain hd
  rw [hresolve, halone r hr hagrees]

/-- An identifier of a value means nothing else by its own name. -/
theorem kind_of_isValue {means : Identifier → Declaration → Bool} (hvalue : i.isValue = true)
    (hmem : means ∈ Identifier.ownMatchers) (hmeans : means i d = true) :
    d.kind = .value ∧ d.name = i.name := by
  have hkind := Identifier.isValue_iff.mp hvalue
  simp only [Identifier.ownMatchers, List.mem_cons, List.not_mem_nil, or_false] at hmem
  rcases hmem with rfl | rfl | rfl | rfl | rfl | rfl
  case inr.inr.inr.inl => exact (Identifier.meansValue_iff.mp hmeans).2
  all_goals
    rcases hkind with hkind | hkind <;>
      simp [Identifier.meansFunction, Identifier.meansMethod, Identifier.meansType,
        Identifier.meansInterfaceMethod, Identifier.meansProperty, hkind] at hmeans

/-- **What the identifier of a value leads to**: a value of this name, and only if there is none a value that
    has it as a further name. -/
theorem resolve?_value (hparse : Identifier.parse? s = some i) (hvalue : i.isValue = true)
    (h : resolve? ds s = some r) : r ∈ ds ∧ r.kind = .value ∧
      (r.name = i.name ∨ i.name ∈ r.aliases ∧ ∀ e ∈ ds, e.kind = .value → e.name ≠ i.name) := by
  rw [resolve?_eq ds hparse] at h
  cases hown : Identifier.ownMatchers.findSome? fun means => ds.find? (means i) with
  | some r' =>
    obtain rfl : r' = r := by simpa [hown] using h
    obtain ⟨hr, means, hmem, hmeans⟩ := exists_of_own hown
    obtain ⟨hkind, hname⟩ := kind_of_isValue hvalue hmem hmeans
    exact ⟨hr, hkind, .inl hname⟩
  | none =>
    have hfind : ds.find? i.meansAlias = some r := by simpa [hown] using h
    obtain ⟨-, hkind, halias⟩ := Identifier.meansAlias_iff.mp (List.find?_some hfind)
    refine ⟨List.mem_of_find?_eq_some hfind, hkind, .inr ⟨halias, fun e he hvalue' hname => ?_⟩⟩
    exact not_means_of_own hown Identifier.meansValue (by simp [Identifier.ownMatchers]) e he
      (Identifier.meansValue_iff.mpr ⟨hvalue, hvalue', hname⟩)

/-- A value is found under a name of its own. -/
theorem resolve?_of_name {e : Declaration} (hparse : Identifier.parse? s = some i) (hvalue : i.isValue = true)
    (he : e ∈ ds) (hkind : e.kind = .value) (hname : e.name = i.name) :
    ∃ r ∈ ds, resolve? ds s = some r ∧ r.kind = .value ∧ r.name = i.name := by
  rw [resolve?_eq ds hparse]
  cases hown : Identifier.ownMatchers.findSome? fun means => ds.find? (means i) with
  | none =>
    exact absurd (Identifier.meansValue_iff.mpr ⟨hvalue, hkind, hname⟩)
      (not_means_of_own hown _ (by simp [Identifier.ownMatchers]) e he)
  | some r =>
    obtain ⟨hr, means, hmem, hmeans⟩ := exists_of_own hown
    exact ⟨r, hr, rfl, kind_of_isValue hvalue hmem hmeans⟩

/-- The identifier of a value by its keyword and name. -/
theorem parse?_value {keyword name : String} (hkeyword : keyword ∈ ["var", "const"]) (hne : name ≠ "")
    (hdot : '.' ∉ name.toList) :
    Identifier.parse? (keyword ++ ":" ++ name) = some { kind := keyword, name := name } := by
  have hkinds : ∀ k ∈ ["var", "const"], k ∈ Identifier.kinds := by decide
  have hwell : Identifier.WellFormed { kind := keyword, name := name } :=
    ⟨hkinds keyword hkeyword, hne, hdot, .none⟩
  have htext : Identifier.text { kind := keyword, name := name } = keyword ++ ":" ++ name := by
    simp [Identifier.text, Identifier.path]
  rw [← htext, Identifier.parse?_text hwell]

end Resolve

/-- **The identifiers of declarations lead back to them.**  In any list of declarations with plain names, the
    identifier of each leads to one of its sort, owner and name, and to itself if no other one agrees with it in
    these.  In any list at all, an identifier of a value leads to a value, by a further name only if no value has
    the name as its own; so where a value has the name, a value of this name is found. -/
theorem identifiers_lead_back :
    (∀ ds : List Declaration, (∀ e ∈ ds, e.Plain) → ∀ d ∈ ds,
      (∃ r ∈ ds, resolve? ds d.identifier = some r ∧ r.Agrees d) ∧
      ((∀ e ∈ ds, e.Agrees d → e = d) → resolve? ds d.identifier = some d)) ∧
    (∀ (ds : List Declaration) (s : String) (i : Identifier) (r : Declaration),
      Identifier.parse? s = some i → i.isValue = true → resolve? ds s = some r → r ∈ ds ∧ r.kind = .value ∧
        (r.name = i.name ∨ i.name ∈ r.aliases ∧ ∀ e ∈ ds, e.kind = .value → e.name ≠ i.name)) ∧
    ∀ (ds : List Declaration) (keyword name : String), keyword ∈ ["var", "const"] → name ≠ "" →
      '.' ∉ name.toList → (∃ e ∈ ds, e.kind = .value ∧ e.name = name) →
      ∃ r ∈ ds, resolve? ds (keyword ++ ":" ++ name) = some r ∧ r.kind = .value ∧ r.name = name := by
  refine ⟨fun ds hplain d hd => ⟨resolve?_agrees hplain hd, resolve?_identifier hplain hd⟩,
    fun ds s i r => resolve?_value, fun ds keyword name hkeyword hne hdot ⟨e, he, hkind, hname⟩ => ?_⟩
  refine resolve?_of_name (parse?_value hkeyword hne hdot) ?_ he hkind hname
  revert keyword
  simp [Identifier.isValue]

/-- A method and a method of an interface that agree, a property of the same owner and name, and a value whose
    further name is the name of the next one. -/
theorem identifiers_lead_back_of_five :
    let slot : DocSlot := { start := 0, stop := 0, indent := "", style := .line }
    let method : Declaration := { kind := .method, name := "M", slot := slot, owner := "T", pointer := true }
    let required : Declaration := { kind := .interfaceMethod, name := "M", slot := slot, owner := "T" }
    let property : Declaration := { kind := .property, name := "M", slot := slot, owner := "T" }
    let pair : Declaration := { kind := .value, name := "X", slot := slot, keyword := "const", aliases := ["Y"] }
    let value : Declaration := { kind := .value, name := "Y", slot := slot }
    let ds := [required, method, property, pair, value]
    (∀ e ∈ ds, e.Plain) ∧ (∃ r ∈ ds, resolve? ds "func:T.M" = some r ∧ r.Agrees required) ∧
      resolve? ds "prop:T.M" = some property ∧ resolve? ds "const:X" = some pair ∧
      resolve? [required, pair] "var:Y" = some pair ∧
      (pair.name = "Y" ∨ "Y" ∈ pair.aliases ∧ ∀ e ∈ [required, pair], e.kind = .value → e.name ≠ "Y") ∧
      ∃ r ∈ ds, resolve? ds "const:Y" = some r ∧ r.kind = .value ∧ r.name = "Y" := by
  intro slot method required property pair value ds
  have hplain : ∀ e ∈ ds, e.Plain := by decide
  have halias : resolve? [required, pair] "var:Y" = some pair := by decide
  obtain ⟨hback, hvalue, hname⟩ := identifiers_lead_back
  refine ⟨hplain, (hback ds hplain required (by simp [ds])).1,
    (hback ds hplain property (by simp [ds])).2 ?_, (hback ds hplain pair (by simp [ds])).2 ?_, halias,
    (hvalue _ _ ⟨"var", "Y", "", false⟩ pair (by decide) (by decide) halias).2.2,
    hname ds "const" "Y" (by decide) (by decide) (by decide) ⟨value, by simp [ds], rfl, rfl⟩⟩
  · rintro e he ⟨hspace, howner, hname⟩
    simp only [ds, List.mem_cons, List.not_mem_nil, or_false] at he
    rcases he with rfl | rfl | rfl | rfl | rfl
    case inr.inr.inl => rfl
    all_goals cases hspace
  · rintro e he ⟨hspace, howner, hname⟩
    simp only [ds, List.mem_cons, List.not_mem_nil, or_false] at he
    rcases he with rfl | rfl | rfl | rfl | rfl
    case inr.inr.inr.inl => rfl
    case inr.inr.inr.inr => exact absurd hname (by decide)
    all_goals cases hspace

end Docsmith
