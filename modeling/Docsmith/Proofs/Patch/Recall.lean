import Docsmith.Proofs.Go.Firm
import Docsmith.Proofs.Python.Apart
import Docsmith.Proofs.Python.Dark

namespace Docsmith

open Text

/-!
# What the edits of a patch recall

Of all that was said on the slots of a file its edits recall what was said last, whatever the patch may override.
A blank text puts back what stood in a slot without documentation, so that it undoes whatever was said before.

* `DocSlot.Restores`: a blank text leaves a slot without documentation as it is.
* `Go.restores_declarations`, `Python.restores_declarations`: the slots of both languages are so.
* `Bytes.applyEdits_eq_drop`: edits that put back what they replace change nothing.
* `PatchFile.said`, `lastSaid?`: what comments say on the slots of a file.
* `PatchFile.Traced`, `Patch.Recalls`: the texts and the edits of a file are those of what was said last.
* `Patch.Recalls.after`: so it is after any comments.
* `Patch.clearing_restores_source`: blank texts restore the source, and only the last texts count.
-/

/-! ### Slots that a blank text leaves as they are -/

/-- A blank text for the slot puts back what stands there, if the slot has no documentation and nothing else is to
    take its place. -/
def DocSlot.Restores (renderDoc : DocSlot → String → Bytes) (code : Bytes) (slot : DocSlot) : Prop :=
  slot.hasDoc = false → slot.clear = none → slot.start ≤ slot.stop ∧
    ∀ text, isBlankText text = true → renderDoc slot text = code.slice slot.start slot.stop

theorem Bytes.slice_self (code : Bytes) (a : Nat) : code.slice a a = [] := by
  rw [Bytes.slice_nat, List.drop_eq_nil_iff, List.length_take]
  exact Nat.min_le_left _ _

/-- A place without code is restored by no code. -/
theorem DocSlot.restores_of_place {renderDoc : DocSlot → String → Bytes} {code : Bytes} {slot : DocSlot}
    (hplace : slot.start = slot.stop) (hnone : ∀ text, isBlankText text = true → renderDoc slot text = []) :
    slot.Restores renderDoc code := by
  intro _ _
  rw [← hplace]
  exact ⟨Nat.le_refl _, fun text hblank => by rw [hnone text hblank, Bytes.slice_self]⟩

/-- Line comments are written for slots in the style of lines. -/
def WritesLines (renderDoc : DocSlot → String → Bytes) : Prop :=
  ∃ marker, ∀ slot text, slot.style = .line → renderDoc slot text = slot.renderLine marker text

/-- **The slots for line comments are restored.** -/
theorem lineSlots_restore {t : SourceTree} {renderDoc : DocSlot → String → Bytes} (hlines : WritesLines renderDoc)
    (h : t.Firm) : LineSlots t (·.Restores renderDoc t.code) where
  line := by
    intro _ _ before n _
    obtain ⟨marker, hmarker⟩ := hlines
    unfold lineSlot
    dsimp only
    split
    · refine DocSlot.restores_of_place rfl fun text hblank => ?_
      rw [hmarker _ _ rfl, DocSlot.renderLine, if_pos hblank]
      rfl
    · rintro ⟨⟩
  inline := by
    intro parent hparent before n hmem indent _ _
    obtain ⟨marker, hmarker⟩ := hlines
    refine ⟨?_, fun text hblank => ?_⟩
    · -- the sibling before the node ends before it begins
      show (inlineSlot t.code before n indent).start ≤ n.start
      cases before with
      | nil => exact Nat.le_refl _
      | cons prev others =>
        obtain ⟨rest, hrest⟩ := mem_withBefore hmem
        rw [List.reverse_nil, List.nil_append] at hrest
        have hordered := h.ordered hparent
        rw [hrest] at hordered
        apply (List.pairwise_append.mp hordered).2.2
        · exact List.mem_reverse.mpr List.mem_cons_self
        · exact List.mem_cons_self
    · rw [hmarker _ _ rfl, DocSlot.renderLine, if_pos hblank]
      rfl

theorem Go.restores_declarations {t : SourceTree} (h : t.Firm) :
    Returns (Go.declarations t) (AllSlots (·.Restores Language.go.renderDoc t.code)) :=
  Go.slots_declarations (lineSlots_restore ⟨"//", fun _ _ _ => rfl⟩ h)

namespace Python

variable {t : SourceTree} {n : Node}

theorem writesLines : WritesLines renderDoc := by
  refine ⟨"#", fun slot text hstyle => ?_⟩
  rw [renderDoc, hstyle]

/-- **The slots of bodies without documentation are restored.** -/
theorem restores_docstringSlot (hparse : parse t.code = .ok t.root) (h : t.Firm) (hn : n ∈ t.root.preorder)
    (hdefinition : isDefinition n = true) :
    Returns (docstringSlot t n) (·.Restores renderDoc t.code) := by
  have hblank {slot : DocSlot} (hstyle : slot.style = .docstring) (hclear : slot.clear = none) (text : String)
      (hblank : isBlankText text = true) : renderDoc slot text = slot.former := by
    rw [renderDoc, hstyle, hclear]
    exact if_pos hblank
  obtain ⟨before, between, colon, block, hheaded⟩ := headed_of_parse hparse hn hdefinition
  unfold docstringSlot
  rw [hheaded.lastColon, hheaded.body?]
  cases hstatements : statements block with
  | nil => simp only [Option.map_some, Option.getD_some, hstatements]; exact .error _ _
  | cons first others =>
    simp only [Option.map_some, Option.getD_some, hstatements]
    split
    · -- a literal is not restored: something else is to take its place
      intro slot hslot _ hnone
      obtain ⟨-, -, ⟨next, -, -, -, hclear⟩ | ⟨-, -, hclear⟩⟩ := literalSlot_spec t _ _ block first slot hslot
      · rw [hnone] at hclear
        cases hclear
      · rw [hnone] at hclear
        cases hclear
    · split
      · refine .pure fun _ _ => ⟨?_, hblank rfl rfl⟩
        -- the colon ends before the body begins, and the body begins with the statement
        obtain ⟨-, hstart, -⟩ := hheaded.first first (by rw [hstatements]; rfl)
        have hordered := h.ordered hn
        rw [hheaded.split, List.append_assoc] at hordered
        have hbehind := (List.pairwise_append.mp hordered).2.1
        show colon.stop ≤ first.start
        rw [← hstart]
        apply List.rel_of_pairwise_cons hbehind
        exact List.mem_append_right between List.mem_cons_self
      · exact .pure (DocSlot.restores_of_place rfl (hblank rfl rfl))

theorem restores_declarations (hparse : parse t.code = .ok t.root) (h : t.Firm) :
    Returns (declarations t) (AllSlots (·.Restores renderDoc t.code)) := by
  have hhead : ∀ n ∈ t.root.preorder, isDefinition n = true →
      Returns (docstringSlot t n) (·.Restores renderDoc t.code) :=
    fun n hn hdefinition => restores_docstringSlot hparse h hn hdefinition
  refine (slots_definitions hhead (lineSlots_restore writesLines h)).map fun found hfound => ?_
  intro d hd
  obtain ⟨x, hx, rfl⟩ := List.mem_map.mp (lastOfEach_subset _ hd)
  exact (hfound x hx).1

end Python

/-- The slots of a Go or Python source are restored. -/
theorem PatchFile.Genuine.restores {f : PatchFile} (h : f.Genuine) :
    AllSlots (·.Restores f.language.renderDoc f.tree.code) f.declarations := by
  have hparsed := h.parsed
  have hdeclared := h.declared
  rcases h.known with hgo | hpython
  · rw [hgo] at hparsed hdeclared ⊢
    have hfirm := (Go.parseTree_orderly f.tree.code _ hparsed).toFirm
    exact Go.restores_declarations hfirm _ hdeclared
  · rw [hpython] at hparsed hdeclared ⊢
    have hfirm := (Python.parseTree_orderly f.tree.code _ hparsed).toFirm
    have hfresh := Python.parseTree_reads.fresh f.tree.code ⟨f.tree.code, f.tree.root, {}⟩ hparsed
    exact Python.restores_declarations (Python.parse_of_fresh hfresh) hfirm _ hdeclared

/-! ### Edits that change nothing -/

/-- The edit puts back what it replaces. -/
def Edit.Restoring (code : Bytes) (e : Edit) : Prop :=
  ∃ a b : Nat, e.start = a ∧ e.stop = b ∧ a ≤ b ∧ e.text = code.slice a b

/-- **Edits that put back what they replace change nothing**, in whatever order they are, and whether they meet or
    not. -/
theorem Bytes.applyEdits_eq_drop {code : Bytes} {edits : List Edit} (h : ∀ e ∈ edits, e.Restoring code)
    (pos : Nat) : code.applyEdits pos edits = code.drop pos := by
  -- the edits are made one after another, each from where the one before has ended
  induction edits generalizing pos with
  | nil =>
    show code.slice pos code.length = _
    rw [Bytes.slice_nat, List.take_length]
  | cons e rest ih =>
    obtain ⟨he, hrest⟩ := List.forall_mem_cons.mp h
    obtain ⟨a, b, hstart, hstop, hab, htext⟩ := he
    rw [Bytes.applyEdits, hstart, hstop, htext]
    split
    · exact ih hrest pos
    · rename_i hkept
      have hpos : pos ≤ a := by omega
      rw [ih hrest b, Lettering.drop_eq code hpos, Lettering.drop_eq code hab, List.append_assoc]

/-! ### What was said -/

/-- What comments say on the slots of a file of a name, in their order. -/
def PatchFile.said (f : PatchFile) (file : String) (cs : List Remark) : List (DocSlot × String) :=
  cs.filterMap fun c => if c.file = file
    then (resolve? f.declarations c.identifier).map fun d => (d.slot, c.text) else none

/-- The last that is said on slots of a key, and on which of them. -/
def lastSaid? (said : List (DocSlot × String)) (key : String) : Option (DocSlot × String) :=
  said.reverse.find? (·.1.key == key)

section Said

variable {f : PatchFile} {file key : String} {cs ds : List Remark} {c : Remark} {d : Declaration}
  {said : List (DocSlot × String)} {x : DocSlot × String}

theorem lastSaid?_snoc (said : List (DocSlot × String)) (x : DocSlot × String) (key : String) :
    lastSaid? (said ++ [x]) key = if x.1.key = key then some x else lastSaid? said key := by
  rw [lastSaid?, List.reverse_append, List.reverse_singleton, List.singleton_append]
  by_cases hkey : x.1.key = key
  · rw [if_pos hkey, List.find?_cons_of_pos (by simpa using hkey)]
  · rw [if_neg hkey, List.find?_cons_of_neg (by simpa using hkey), lastSaid?]

theorem mem_of_lastSaid? (h : lastSaid? said key = some x) : x ∈ said ∧ x.1.key = key := by
  refine ⟨List.mem_reverse.mp (List.mem_of_find?_eq_some h), ?_⟩
  simpa using List.find?_some h

theorem PatchFile.said_append : f.said file (cs ++ ds) = f.said file cs ++ f.said file ds :=
  List.filterMap_append

theorem PatchFile.said_singleton (hfile : c.file = file) (hd : resolve? f.declarations c.identifier = some d) :
    f.said file [c] = [(d.slot, c.text)] := by
  simp [PatchFile.said, hfile, hd]

@[simp] theorem PatchFile.said_setDoc (slot : DocSlot) (identifier text : String) :
    (f.setDoc slot identifier text).said file cs = f.said file cs := rfl

/-- On a file that no comment is on nothing is said. -/
theorem PatchFile.said_eq_nil (h : ∀ c ∈ cs, c.file ≠ file) : f.said file cs = [] :=
  List.filterMap_eq_nil_iff.mpr fun c hc => if_neg (h c hc)

/-- What is said is on the slot of a declaration. -/
theorem PatchFile.slot_of_said (h : x ∈ f.said file cs) : ∃ d ∈ f.declarations, x.1 = d.slot := by
  obtain ⟨c, -, hc⟩ := List.mem_filterMap.mp h
  split at hc
  · obtain ⟨d, hd, rfl⟩ := Option.map_eq_some_iff.mp hc
    exact ⟨d, Patch.resolve?_mem hd, rfl⟩
  · cases hc

end Said

/-! ### What is recalled -/

/-- A file of a patch after some comments, of which some were accepted: it is as one of the comments found it on the
    disk, but for the texts and edits that wait for it, and these are those of what was said last. -/
structure PatchFile.Traced (f : PatchFile) (folder : Folder) (file : String) (made heard : List Remark) : Prop where
  genuine : f.Genuine
  language : Languages.default.forFile? file = some f.language
  source : ∃ c ∈ made, c.file = file ∧ folder.read c.disk file = .ok f.tree.code
  texts : ∀ key, f.text? key = (lastSaid? (f.said file heard) key).map Prod.snd
  edits : ∀ key, f.tree.edits.pending? key = (lastSaid? (f.said file heard) key).map fun x =>
    ⟨x.1.start, x.1.stop, f.language.renderDoc x.1 x.2⟩

namespace PatchFile

variable {f : PatchFile} {folder : Folder} {file : String} {made heard : List Remark} {c : Remark}

/-- More comments may have been made. -/
theorem Traced.later (h : f.Traced folder file made heard) (c : Remark) : f.Traced folder file (made ++ [c]) heard where
  genuine := h.genuine
  language := h.language
  source := by
    obtain ⟨d, hd, hsource⟩ := h.source
    exact ⟨d, List.mem_append_left _ hd, hsource⟩
  texts := h.texts
  edits := h.edits

/-- A comment on another file is nothing to recall. -/
theorem Traced.ignore (h : f.Traced folder file made heard) {more : List Remark}
    (hmore : ∀ c ∈ more, c.file ≠ file) : f.Traced folder file made (heard ++ more) where
  genuine := h.genuine
  language := h.language
  source := h.source
  texts := by
    rw [said_append, said_eq_nil hmore, List.append_nil]
    exact h.texts
  edits := by
    rw [said_append, said_eq_nil hmore, List.append_nil]
    exact h.edits

/-- **A comment that is accepted is recalled** in the place of what was said before on its slot. -/
theorem Traced.setDoc {d : Declaration} (h : f.Traced folder file made heard) (hfile : c.file = file)
    (hd : resolve? f.declarations c.identifier = some d) :
    (f.setDoc d.slot c.identifier c.text).Traced folder file made (heard ++ [c]) where
  genuine := ⟨h.genuine.known, h.genuine.parsed, h.genuine.declared⟩
  language := h.language
  source := h.source
  texts key := by
    rw [said_setDoc, said_append, said_singleton hfile hd, lastSaid?_snoc, text?_setDoc, h.texts]
    split <;> rfl
  edits key := by
    rw [said_setDoc, said_append, said_singleton hfile hd, lastSaid?_snoc, pending?_setDoc, h.edits]
    split <;> rfl

end PatchFile

namespace Patch

variable {p : Patch} {made heard : List Remark} {c : Remark} {f : PatchFile} {file : String}

/-- Every file of a patch is traced by the comments made on the patch and those accepted, and one that a comment was
    accepted for is in the patch. -/
structure Recalls (p : Patch) (made heard : List Remark) : Prop where
  languages_eq : p.languages = Languages.default
  opened : ∀ c ∈ heard, (p.file? c.file).isSome = true
  files : ∀ file f, p.file? file = some f → f.Traced p.folder file made heard

/-- A new patch has nothing to recall. -/
theorem recalls_fresh (folder : Folder) (override : Bool) :
    ({ folder := folder, override := override } : Patch).Recalls [] [] where
  languages_eq := rfl
  opened _ hc := by cases hc
  files _ _ hfile := by cases hfile

/-- A file that is read is traced as long as no comment on it was accepted. -/
theorem traced_load (hlanguages : p.languages = Languages.default) (hload : p.load c.disk c.file = .ok f)
    (hnone : ∀ d ∈ heard, d.file ≠ c.file) : f.Traced p.folder c.file (made ++ [c]) heard := by
  obtain ⟨hlanguage, -, hnew⟩ := declared_load p c.disk c.file f hload
  obtain ⟨code, hcode, huntouched⟩ := untouched_load (hlanguages ▸ Languages.reads_default) f hload
  have hdirty : f.tree.edits.dirty = false := by simp [EditSet.dirty, huntouched.edits]
  have hsource : f.tree.code = code := by rw [← SourceTree.render_of_clean hdirty, huntouched.rendering]
  refine ⟨(genuine_load hlanguages f hload).1, hlanguages ▸ hlanguage, ⟨c, ?_, rfl, ?_⟩, ?_, ?_⟩
  · exact List.mem_append_right _ List.mem_cons_self
  · rw [hsource, hcode]
  · intro key
    rw [PatchFile.said_eq_nil hnone, PatchFile.text?, huntouched.texts]
    rfl
  · intro key
    rw [PatchFile.said_eq_nil hnone, EditSet.pending?, huntouched.edits]
    rfl

/-- A file that a comment opens is traced. -/
theorem Recalls.openFile (h : p.Recalls made heard) (hopen : p.openFile c.disk c.file = .ok f) :
    f.Traced p.folder c.file (made ++ [c]) heard := by
  unfold Patch.openFile at hopen
  split at hopen
  · cases hopen
    exact (h.files c.file f ‹_›).later c
  · rename_i hfile
    refine traced_load h.languages_eq hopen fun d hd hsame => ?_
    -- a file that a comment was accepted for would be in the patch
    have hopened := h.opened d hd
    rw [hsame, hfile] at hopened
    cases hopened

/-- A comment alone is accepted or not. -/
theorem accepted_singleton_of_ok (h : (p.remark c).1 = .ok ()) : p.accepted [c] = [c] := accepted_of_ok h []

theorem accepted_singleton_of_error {e : Failure} (h : (p.remark c).1 = .error e) : p.accepted [c] = [] :=
  accepted_of_error h []

/-- **A comment is recalled if it is accepted.** -/
theorem Recalls.remark_file (h : p.Recalls made heard) (hfile : (p.remark c).2.file? file = some f) :
    f.Traced p.folder file (made ++ [c]) (heard ++ p.accepted [c]) := by
  by_cases hsame : c.file = file
  · subst hsame
    cases hopen : p.openFile c.disk c.file with
    | error e =>
      rw [file?_remark, if_pos rfl, hopen] at hfile
      cases hfile
    | ok g =>
      have htraced := h.openFile hopen
      rw [file?_remark, if_pos rfl, hopen] at hfile
      obtain rfl : c.heed p.override g = f := Option.some.inj hfile
      -- the comment leaves the file as it was opened, or it is the last one on its slot now
      cases hverdict : c.verdict p.override g with
      | error e =>
        have hrefused : (p.remark c).1 = .error e := by rw [remark_of_open hopen, hverdict]; rfl
        have hg : c.heed p.override g = g := by simp only [Remark.heed, hverdict]
        rw [accepted_singleton_of_error hrefused, hg, List.append_nil]
        exact htraced
      | ok d =>
        have hok : (p.remark c).1 = .ok () := by rw [remark_of_open hopen, hverdict]; rfl
        have hg : c.heed p.override g = g.setDoc d.slot c.identifier c.text := by
          simp only [Remark.heed, hverdict]
        rw [accepted_singleton_of_ok hok, hg]
        exact htraced.setDoc rfl (Remark.resolve?_of_verdict hverdict)
  · rw [file?_remark, if_neg hsame] at hfile
    refine ((h.files file f hfile).later c).ignore fun d hd => ?_
    cases hverdict : (p.remark c).1 with
    | error e => rw [accepted_singleton_of_error hverdict] at hd; cases hd
    | ok =>
      rw [accepted_singleton_of_ok hverdict] at hd
      rwa [List.mem_singleton.mp hd]

theorem Recalls.remark (h : p.Recalls made heard) (c : Remark) :
    (p.remark c).2.Recalls (made ++ [c]) (heard ++ p.accepted [c]) where
  languages_eq := by rw [languages_remark, h.languages_eq]
  opened d hd := by
    rcases List.mem_append.mp hd with hd | hd
    · exact file?_after_isSome (h.opened d hd) [c]
    -- a call that was refused is not heard, so it asks nothing of the files
    · cases hverdict : (p.remark c).1 with
      | error e => rw [accepted_singleton_of_error hverdict] at hd; cases hd
      | ok =>
        rw [accepted_singleton_of_ok hverdict] at hd
        obtain ⟨g, a, -, -, hset⟩ := pending?_of_accepted hverdict
        rw [List.mem_singleton.mp hd, hset]
        rfl
  files file f hfile := by
    obtain ⟨files, hfiles⟩ := remark_files p c
    have hfolder : (p.remark c).2.folder = p.folder := by rw [hfiles]
    rw [hfolder]
    exact h.remark_file hfile

/-- **What any comments leave is recalled**: those that were accepted, and no others. -/
theorem Recalls.after (h : p.Recalls made heard) (cs : List Remark) :
    (p.after cs).Recalls (made ++ cs) (heard ++ p.accepted cs) := by
  induction cs generalizing p made heard with
  | nil => exact (List.append_nil made).symm ▸ (List.append_nil heard).symm ▸ h
  | cons c rest ih =>
    have hrest := ih (h.remark c)
    rw [List.append_assoc, List.append_assoc, ← accepted_cons] at hrest
    exact hrest

/-- The files of a new patch after some comments are traced by them. -/
theorem traced_after {folder : Folder} {override : Bool} {calls : List Remark}
    (hfile : (after { folder := folder, override := override } calls).file? file = some f) :
    f.Traced folder file calls (accepted { folder := folder, override := override } calls) := by
  have htraced := ((recalls_fresh folder override).after calls).files file f hfile
  obtain ⟨files, hfiles⟩ := after_files { folder := folder, override := override } calls
  rwa [hfiles, List.nil_append, List.nil_append] at htraced

/-- A new patch is tidy after some comments. -/
theorem tidy_after (folder : Folder) (override : Bool) (calls : List Remark) :
    (after { folder := folder, override := override } calls).Tidy := by
  have hreachable := reachable_after (.fresh folder Languages.default override) calls
  obtain ⟨files, hfiles⟩ := after_files { folder := folder, override := override } calls
  exact hreachable.tidy (by rw [hfiles]; exact Languages.reads_default)

/-- Its edits stand under the keys of their slots. -/
theorem keyed_after {folder : Folder} {override : Bool} {calls : List Remark}
    (hfile : (after { folder := folder, override := override } calls).file? file = some f) :
    f.tree.edits.Keyed := (tidy_after folder override calls).edits file f hfile

end Patch

/-! ### What is rendered -/

namespace PatchFile

variable {f g : PatchFile} {folder folder' : Folder} {file : String} {made made' heard heard' : List Remark}
  {e : Edit}

/-- **The edits that wait for a file** are those of what was said last on its slots. -/
theorem Traced.mem_ordered_iff (h : f.Traced folder file made heard) (hkeyed : f.tree.edits.Keyed) :
    e ∈ f.tree.edits.ordered ↔ ∃ key y, lastSaid? (f.said file heard) key = some y ∧
      ⟨y.1.start, y.1.stop, f.language.renderDoc y.1 y.2⟩ = e := by
  have hpending (key : String) : (key, e) ∈ f.tree.edits.entries ↔ f.tree.edits.pending? key = some e :=
    (find?_eq_some_iff hkeyed.nodup).symm
  rw [EditSet.ordered, (List.mergeSort_perm _ _).mem_iff, List.mem_map]
  constructor
  · rintro ⟨⟨key, e⟩, hentry, rfl⟩
    have hlast := (hpending key).mp hentry
    rw [h.edits] at hlast
    exact ⟨key, Option.map_eq_some_iff.mp hlast⟩
  · rintro ⟨key, hlast⟩
    refine ⟨(key, e), (hpending key).mpr ?_, rfl⟩
    rw [h.edits]
    exact Option.map_eq_some_iff.mpr hlast

/-- **Blank texts restore the source**, if they are the last on every slot that was touched, and no slot with
    documentation was. -/
theorem Traced.render_of_blank (h : f.Traced folder file made heard) (hkeyed : f.tree.edits.Keyed)
    (hbare : ∀ x ∈ f.said file heard, x.1.hasDoc = false ∧ x.1.clear = none)
    (hblank : ∀ key x, lastSaid? (f.said file heard) key = some x → isBlankText x.2 = true) :
    f.render file = .ok f.tree.code := by
  -- each edit writes the text that stands there already: its slot is bare and what is said last is blank
  have hrestoring : ∀ e ∈ f.tree.edits.ordered, e.Restoring f.tree.code := by
    intro e he
    obtain ⟨key, x, hlast, rfl⟩ := (h.mem_ordered_iff hkeyed).mp he
    obtain ⟨hmem, -⟩ := mem_of_lastSaid? hlast
    obtain ⟨d, hd, hslot⟩ := slot_of_said hmem
    obtain ⟨hdoc, hclear⟩ := hbare x hmem
    obtain ⟨hle, htext⟩ := h.genuine.restores d hd (hslot ▸ hdoc) (hslot ▸ hclear)
    refine ⟨x.1.start, x.1.stop, rfl, rfl, ?_, ?_⟩
    · rw [hslot]
      exact hle
    · rw [hslot]
      exact htext x.2 (hblank key x hlast)
  -- and putting such edits into the source gives the source
  have hcode : f.tree.render = f.tree.code := Bytes.applyEdits_eq_drop hrestoring 0
  rw [render, hcode, h.genuine.parsed]

/-- The declarations of a source are told by its bytes. -/
theorem Traced.declarations_eq (h : f.Traced folder file made heard) (h' : g.Traced folder' file made' heard')
    (hcode : g.tree.code = f.tree.code) : g.language = f.language ∧ g.declarations = f.declarations := by
  have hlanguage : g.language = f.language := Option.some.inj (h'.language.symm.trans h.language)
  have hparsed := h'.genuine.parsed
  have hdeclared := h'.genuine.declared
  rw [hlanguage, hcode, h.genuine.parsed] at hparsed
  have htree := Except.ok.inj hparsed
  rw [hlanguage, hcode, ← htree, h.genuine.declared] at hdeclared
  exact ⟨hlanguage, (Except.ok.inj hdeclared).symm⟩

/-- **Files for which the same was said last** are alike, whatever was said before, if each key is that of one
    slot. -/
theorem Traced.alike (h : f.Traced folder file made heard) (h' : g.Traced folder' file made' heard')
    (hcode : g.tree.code = f.tree.code) (hshared : f.SharesSlots)
    (hsame : ∀ key, (lastSaid? (f.said file heard) key).map Prod.snd
      = (lastSaid? (g.said file heard') key).map Prod.snd) : f.Alike g := by
  obtain ⟨hlanguage, hdeclarations⟩ := h.declarations_eq h' hcode
  refine ⟨hlanguage.symm, hcode.symm, hdeclarations.symm, fun key => ?_, fun key => ?_⟩
  · rw [h.texts, h'.texts, hsame]
  · have hkey := hsame key
    rw [h.edits, h'.edits, hlanguage]
    cases hf : lastSaid? (f.said file heard) key with
    | none =>
      rw [hf] at hkey
      rw [Option.map_eq_none_iff.mp hkey.symm]
    | some x =>
      rw [hf] at hkey
      obtain ⟨y, hg, htext⟩ := Option.map_eq_some_iff.mp hkey.symm
      obtain ⟨hx, hxkey⟩ := mem_of_lastSaid? hf
      obtain ⟨hy, hykey⟩ := mem_of_lastSaid? hg
      obtain ⟨d, hd, hxslot⟩ := slot_of_said hx
      obtain ⟨e, he, hyslot⟩ := slot_of_said hy
      rw [hdeclarations] at he
      -- both were said under one key, so that it was on one slot
      have hslot : y.1 = x.1 := by
        rw [hxslot, hyslot]
        apply hshared e he d hd
        rw [← hxslot, ← hyslot, hxkey, hykey]
      rw [hg, Option.map_some, Option.map_some, hslot, htext]

end PatchFile

namespace Patch

variable {file : String} {f : PatchFile}

/-- **Clearing restores the source.**  After any comments on a new patch, whatever it may override, a file is the
    source that one of the comments found on the disk, with edits that recall what was accepted last on each slot.
    If only slots without documentation were touched, and the last texts on all of them are blank, the file is
    rendered as this source byte for byte, whatever was said before.  If each key is that of one slot, any other
    comments, on a patch of their own, have the same source rendered the same as long as the last texts on its slots
    are. -/
theorem clearing_restores_source (folder : Folder) (override : Bool) (calls : List Remark)
    (hfile : (after { folder := folder, override := override } calls).file? file = some f) :
    let said := f.said file (accepted { folder := folder, override := override } calls)
    (∃ c ∈ calls, c.file = file ∧ folder.read c.disk file = .ok f.tree.code) ∧
    ((∀ x ∈ said, x.1.hasDoc = false ∧ x.1.clear = none) →
      (∀ key x, lastSaid? said key = some x → isBlankText x.2 = true) → f.render file = .ok f.tree.code) ∧
    (f.SharesSlots → ∀ folder' override' calls' f',
      (after { folder := folder', override := override' } calls').file? file = some f' →
      f'.tree.code = f.tree.code →
      (∀ key, (lastSaid? said key).map Prod.snd = (lastSaid? (f'.said file
        (accepted { folder := folder', override := override' } calls')) key).map Prod.snd) →
      f.render file = f'.render file) := by
  intro said
  have htraced := traced_after hfile
  refine ⟨htraced.source, htraced.render_of_blank (keyed_after hfile), ?_⟩
  -- two patches that say the same at the end wrote the same edits, whatever they said before
  intro hshared folder' override' calls' f' hfile' hcode hsame
  have halike := htraced.alike (traced_after hfile') hcode hshared hsame
  exact halike.render_eq (keyed_after hfile) (keyed_after hfile') file

/-- Comments on a value and a function that share their lines with other code, each of them cleared again. -/
theorem clearing_restores_shared_lines :
    let source := Text.encode "x = 1; y = 2\ndef f(): return x\n"
    let disk : FileTree := [.file "a.py" source]
    let calls : List Remark := [⟨disk, "a.py", "var:y", "Two."⟩, ⟨disk, "a.py", "func:f", "Give one."⟩,
      ⟨disk, "a.py", "func:f", " "⟩, ⟨disk, "a.py", "func:g", "Give none."⟩, ⟨disk, "a.py", "var:y", ""⟩]
    let fresh : Patch := { folder := {}, override := true }
    ∃ f, (fresh.after calls).file? "a.py" = some f ∧ (f.said "a.py" (fresh.accepted calls)).length = 4 ∧
      f.tree.code = source ∧ f.render "a.py" = .ok f.tree.code := by
  intro source disk calls fresh
  have hall : ((fresh.after calls).file? "a.py").any (fun f =>
      let said := f.said "a.py" (fresh.accepted calls)
      said.length == 4 && f.tree.code == source && said.all fun x => !x.1.hasDoc && x.1.clear.isNone
        && (lastSaid? said x.1.key).all fun y => isBlankText y.2) = true := by
    decide +kernel
  obtain ⟨f, hfile, hf⟩ := (Option.any_eq_true _ _).mp hall
  simp only [Bool.and_eq_true, List.all_eq_true, beq_iff_eq, Bool.not_eq_true', Option.isNone_iff_eq_none] at hf
  obtain ⟨⟨hlength, hsource⟩, hsaid⟩ := hf
  refine ⟨f, hfile, hlength, hsource, (clearing_restores_source {} true calls hfile).2.1 ?_ ?_⟩
  · exact fun x hx => (hsaid x hx).1
  · intro key x hlast
    obtain ⟨hx, rfl⟩ := mem_of_lastSaid? hlast
    have hblank := (hsaid x hx).2
    rw [hlast] at hblank
    exact hblank

end Patch

end Docsmith
