import Docsmith.Find.Finding
import Docsmith.Proofs.Patch.Declared

namespace Docsmith

open Text

/-!
# Documenting what was found

* `FindOptions.wanted`: the declarations that are found, each under its own identifier.
* `FindOptions.mem_find`: what is found is a declaration without documentation.
* `remarks`: the comments on the findings of a source.
* `PatchFile.ToldBy`, `Patch.toldBy_after`: what waits for the slots of a file was said in comments.
* `Patch.remark_of_undocumented`: why a comment on a declaration without documentation may be refused.
* `Patch.shared_line_is_refused`: a finding that shares its line with another one is refused.
-/

/-- A finding as it is reported for a declaration. -/
def Declaration.finding (language file : String) (d : Declaration) : Finding :=
  { file := file, identifier := d.identifier, target := d.target, language := language }

/-- The declarations that are found, before they are sorted. -/
def FindOptions.wanted (o : FindOptions) (ds : List Declaration) : List Declaration :=
  firstOfEach [] (ds.filter o.wants)

/-- The findings of a source whose declarations are known. -/
theorem FindOptions.find_eq {o : FindOptions} {l : Language} {code : Bytes} {file : String}
    {t : SourceTree} {ds : List Declaration} (ht : l.parse code = .ok t)
    (hds : l.declarations t = .ok ds) :
    o.find l code file = .ok (((o.wanted ds).map (Declaration.finding l.name file)).mergeSort
      fun a b => a.identifier ≤ b.identifier) := by
  rw [find, ht]
  show (l.declarations t >>= fun ds => pure (o.among l.name file ds)) = _
  rw [hds]
  rfl

/-- The findings of a source by a check of what it declares. -/
theorem FindOptions.find_of_check {o : FindOptions} {l : Language} {code : Bytes} {file : String}
    {found : List Finding} (h : (l.parse code).toOption.any (fun t =>
      (l.declarations t).toOption.any fun ds =>
        (o.wanted ds).map (Declaration.finding l.name file) = found) = true) :
    o.find l code file = .ok (found.mergeSort fun a b => a.identifier ≤ b.identifier) := by
  cases ht : l.parse code with
  | error e => rw [ht] at h; cases h
  | ok t =>
    rw [ht, Except.toOption, Option.any_some] at h
    cases hds : l.declarations t with
    | error e => rw [hds] at h; cases h
    | ok ds =>
      rw [hds, Except.toOption, Option.any_some, decide_eq_true_eq] at h
      rw [find_eq ht hds, h]

/-- Declarations are taken from a list. -/
theorem FindOptions.firstOfEach_subset (seen : List String) (ds : List Declaration) :
    firstOfEach seen ds ⊆ ds := by
  induction ds generalizing seen with
  | nil => exact fun d hd => hd
  | cons d rest ih =>
    unfold firstOfEach
    split
    · exact List.subset_cons_of_subset d (ih seen)
    · exact List.cons_subset_cons d (ih _)

/-- **What is found is declared**, and is not documented unless this was asked for. -/
theorem FindOptions.mem_find {o : FindOptions} {l : Language} {code : Bytes} {file : String} {t : SourceTree}
    {ds : List Declaration} {fs : List Finding} {x : Finding} (ht : l.parse code = .ok t)
    (hds : l.declarations t = .ok ds) (hfs : o.find l code file = .ok fs) (hx : x ∈ fs) :
    ∃ d ∈ ds, x = d.finding l.name file ∧ (o.includeDocumented = false → d.slot.hasDoc = false) := by
  rw [find_eq ht hds] at hfs
  cases hfs
  obtain ⟨d, hd, rfl⟩ := List.mem_map.mp ((List.mergeSort_perm _ _).mem_iff.mp hx)
  obtain ⟨hd, hwants⟩ := List.mem_filter.mp (firstOfEach_subset [] _ hd)
  refine ⟨d, hd, rfl, fun hdocumented => ?_⟩
  simp only [wants, hdocumented, Bool.or_false, Bool.and_eq_true, Bool.not_eq_true'] at hwants
  exact hwants.2

/-- The comments on some findings, in their order, with a text for each identifier. -/
def remarks (disk : FileTree) (text : String → String) (fs : List Finding) : List Remark :=
  fs.map fun x => ⟨disk, x.file, x.identifier, text x.identifier⟩

/-! ### Texts that wait -/

/-- What waits for the slots of a file was said in some comments on it, each of a declaration with the slot. -/
structure PatchFile.ToldBy (f f₀ : PatchFile) (file : String) (calls : List Remark) : Prop where
  declarations : f.declarations = f₀.declarations
  told : ∀ key text, f.text? key = some text → f₀.text? key = some text ∨ ∃ c ∈ calls, c.file = file ∧
    c.text = text ∧ ∃ d, resolve? f₀.declarations c.identifier = some d ∧ d.slot.key = key

namespace PatchFile

variable {f f₀ : PatchFile} {file : String} {calls : List Remark} {c : Remark}

theorem ToldBy.mono {later : List Remark} (h : f.ToldBy f₀ file calls) : f.ToldBy f₀ file (calls ++ later) where
  declarations := h.declarations
  told key text htext := (h.told key text htext).imp id fun ⟨c, hc, hrest⟩ => ⟨c, List.mem_append_left _ hc, hrest⟩

/-- A comment tells of the slot of its symbol. -/
theorem ToldBy.heed (h : f.ToldBy f₀ c.file calls) (override : Bool) :
    (c.heed override f).ToldBy f₀ c.file (calls ++ [c]) := by
  unfold Remark.heed
  split
  · rename_i d hverdict
    refine ⟨h.declarations, fun key text htext => ?_⟩
    rw [text?_setDoc] at htext
    split at htext
    · rename_i hkey
      cases htext
      have hd := Remark.resolve?_of_verdict hverdict
      rw [h.declarations] at hd
      exact .inr ⟨c, by simp, rfl, rfl, d, hd, hkey⟩
    · exact h.mono.told key text htext
  · exact h.mono

end PatchFile

namespace Patch

variable {p : Patch} {f f₀ : PatchFile} {file : String} {calls : List Remark} {c : Remark} {d : Declaration}

/-- A file that is read and parsed is loaded. -/
theorem load_of_parse {disk : FileTree} {l : Language} {code : Bytes} {t : SourceTree} {ds : List Declaration}
    (hl : p.languages.forFile? file = some l) (hread : p.folder.read disk file = .ok code)
    (ht : l.parse code = .ok t) (hds : l.declarations t = .ok ds) :
    p.load disk file = .ok { language := l, tree := t, declarations := ds } := by
  rw [load, hl]
  dsimp only
  rw [hread]
  change ((l.parse code).mapError _ >>= _) = _
  rw [ht]
  change (l.declarations t >>= _) = _
  rw [hds]
  rfl

/-- A file that opens the same way each time does so after some comments, and holds what they tell. -/
theorem toldBy_after (hnew : p.files = []) (hload : ∀ c ∈ calls, c.file = file → p.load c.disk file = .ok f₀)
    {disk : FileTree} (hdisk : p.load disk file = .ok f₀) :
    ∃ f, (p.after calls).openFile disk file = .ok f ∧ f.ToldBy f₀ file calls := by
  -- from the last call back: what the calls before it left is what it finds
  induction calls using List.reverseRecOn generalizing disk with
  | nil =>
    refine ⟨f₀, ?_, rfl, fun _ _ htext => .inl htext⟩
    rw [after, List.foldl_nil, openFile, file?, hnew]
    exact hdisk
  | append_singleton calls c ih =>
    have hearlier : ∀ c ∈ calls, c.file = file → p.load c.disk file = .ok f₀ :=
      fun c hc => hload c (List.mem_append_left _ hc)
    have hlast : p.after (calls ++ [c]) = ((p.after calls).remark c).2 := after_append p calls [c]
    rw [hlast]
    -- a call on another file leaves this one, and the texts told to it, alone
    by_cases hfile : c.file = file
    · subst hfile
      obtain ⟨f, hopen, htold⟩ := ih hearlier (hload c (by simp) rfl)
      refine ⟨_, openFile_of_file? ?_ disk, htold.heed (p.after calls).override⟩
      rw [file?_remark, if_pos rfl, hopen]
      rfl
    · obtain ⟨f, hopen, htold⟩ := ih hearlier hdisk
      refine ⟨f, ?_, htold.mono⟩
      rw [openFile, file?_remark, if_neg hfile, load_remark]
      exact hopen

/-- **A comment on a declaration without documentation is accepted** on a new patch, unless an earlier one
    said something of a declaration with the same slot. -/
theorem remark_of_undocumented (hnew : p.files = []) (hclean : f₀.texts = [])
    (hload : ∀ c' ∈ calls ++ [c], c'.file = c.file → p.load c'.disk c.file = .ok f₀)
    (hresolve : resolve? f₀.declarations c.identifier = some d) (hdoc : d.slot.hasDoc = false) :
    ((p.after calls).remark c).1 = .ok () ∨
      ((p.after calls).remark c).1 = .error (.alreadyDocumented c.file c.identifier) ∧
        ∃ c' ∈ calls, c'.file = c.file ∧ isBlankText c'.text = false ∧
          ∃ d', resolve? f₀.declarations c'.identifier = some d' ∧ d'.slot.key = d.slot.key := by
  obtain ⟨f, hopen, htold⟩ := toldBy_after hnew (fun c' hc' => hload c' (List.mem_append_left _ hc'))
    (hload c (by simp) rfl)
  have hverdict (override : Bool) : c.verdict override f = if f.documented d.slot && !override then
      .error (.alreadyDocumented c.file c.identifier) else .ok d := by
    rw [Remark.verdict, htold.declarations, hresolve]
  rw [remark_of_open hopen, hverdict]
  cases hdocumented : f.documented d.slot with
  | false => exact .inl rfl
  | true =>
    -- the slot was free in the source, so that a text waits for it
    unfold PatchFile.documented at hdocumented
    cases htext : f.text? d.slot.key with
    | none =>
      rw [htext] at hdocumented
      exact absurd (hdoc.symm.trans hdocumented) (by simp)
    | some text =>
      rw [htext] at hdocumented
      rcases htold.told _ _ htext with hold | ⟨c', hc', hfile, rfl, hresolve'⟩
      · rw [PatchFile.text?, hclean] at hold
        cases hold
      · cases hoverride : (p.after calls).override with
        | true => exact .inl rfl
        | false => exact .inr ⟨rfl, c', hc', hfile, by simpa using hdocumented, hresolve'⟩

/-- A method of an interface on the line of the type: both are found without documentation and share a
    slot, so that the comment on the second is refused. -/
theorem shared_line_is_refused :
    let code := encode "package a\n\ntype I interface{ A() }\n"
    let disk : FileTree := [.file "a.go" code]
    let first : Finding := ⟨"a.go", "func:I.A", "interface method 'A' of 'I'", "go"⟩
    let second : Finding := ⟨"a.go", "type:I", "type 'I'", "go"⟩
    FindOptions.find {} .go code "a.go" = .ok [first, second] ∧
      ∀ c ∈ remarks disk (fun _ => "It does.") [second],
        ((after { folder := {} } (remarks disk (fun _ => "It does.") [first])).remark c).1.isOk
          = false := by
  intro code disk first second
  constructor
  · have hfind : FindOptions.find {} .go code "a.go"
        = .ok ([second, first].mergeSort fun a b => a.identifier ≤ b.identifier) :=
      FindOptions.find_of_check (by decide +kernel)
    rw [hfind]
    simp [List.mergeSort, first, second]
  · decide +kernel

end Patch

end Docsmith
