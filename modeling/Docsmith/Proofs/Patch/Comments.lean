import Docsmith.Patch.Basic
import Docsmith.Proofs.Go.Slots
import Docsmith.Proofs.Keys
import Docsmith.Proofs.Python.Slots

namespace Docsmith

open Text

/-!
# Comments that leave the code alone

A patch that may not override adds documentation and takes nothing away, whatever comments it is asked
for and whichever of them it refuses.

* `Remark`, `Patch.after`: a comment on a symbol, and a patch after some of them.
* `Patch.remark_file`: what a comment may do to a file of the patch.
* `PatchFile.Settled`: a text that was accepted for a slot stays.
* `PatchFile.Modest`: edits are made only of slots without documentation.
* `Patch.comments_spare_code`: what is true of every file after any comments.
-/

/-- A comment on a symbol of a file, on the disk as it is then. -/
structure Remark where
  disk : FileTree
  file : String
  identifier : String
  text : String

namespace Patch

/-- Makes a comment. -/
def remark (p : Patch) (c : Remark) : Except Failure Unit × Patch :=
  p.comment c.disk c.file c.identifier c.text

/-- The patch after some comments, those included that were refused. -/
def after (p : Patch) (cs : List Remark) : Patch := cs.foldl (fun p c => (p.remark c).2) p

end Patch

/-! ### One slot of a file -/

/-- The replacement under a key after one was recorded. -/
@[simp] theorem EditSet.pending?_edit (s : EditSet) (key other : String) (e : Edit) :
    (s.edit key e).pending? other = if key = other then some e else s.pending? other :=
  find?_put (put key e) rfl (put_cons key e) s.entries other

namespace PatchFile

theorem putText_cons (key text k old : String) (rest : List (String × String)) :
    putText key text ((k, old) :: rest)
      = if k = key then (k, text) :: rest else (k, old) :: putText key text rest := by
  by_cases h : k = key <;> simp [putText, h]

variable {f : PatchFile} {slot : DocSlot} {identifier text key : String}

@[simp] theorem text?_setDoc : (f.setDoc slot identifier text).text? key
    = if slot.key = key then some text else f.text? key :=
  find?_put (putText slot.key text) rfl (putText_cons slot.key text) f.texts key

@[simp] theorem pending?_setDoc : (f.setDoc slot identifier text).tree.edits.pending? key
    = if slot.key = key then some ⟨slot.start, slot.stop, f.language.renderDoc slot text⟩
      else f.tree.edits.pending? key :=
  EditSet.pending?_edit ..

end PatchFile

/-! ### One comment -/

namespace Patch

theorem putFile_cons (name : String) (f : PatchFile) (k : String) (old : PatchFile)
    (rest : List (String × PatchFile)) : putFile name f ((k, old) :: rest)
      = if k = name then (k, f) :: rest else (k, old) :: putFile name f rest := by
  by_cases h : k = name <;> simp [putFile, h]

/-- A file of a name after a file was put. -/
theorem file?_putFile (p : Patch) (name file : String) (f : PatchFile) :
    ({ p with files := putFile name f p.files } : Patch).file? file
      = if name = file then some f else p.file? file :=
  find?_put (putFile name f) rfl (putFile_cons name f) p.files file

/-- What a comment that was accepted did: it resolved to a declaration without documentation, and the
    text was queued for its slot. -/
structure Accepts (p : Patch) (c : Remark) (f : PatchFile) (d : Declaration) : Prop where
  opened : p.openFile c.disk c.file = .ok f
  resolved : resolve? f.declarations c.identifier = some d
  open_slot : f.documented d.slot = false
  result : p.remark c = (.ok (), { p with
    files := putFile c.file (f.setDoc d.slot c.identifier c.text) p.files })

/-- What a comment that was refused did: nothing but perhaps to bring its file into the patch. -/
structure Refuses (p : Patch) (c : Remark) (e : Failure) : Prop where
  result : (p.remark c).1 = .error e
  unchanged : (p.remark c).2 = p ∨ ∃ f, p.openFile c.disk c.file = .ok f ∧
    (p.remark c).2 = { p with files := putFile c.file f p.files }

/-- **A comment is accepted or refused.** -/
theorem remark_cases {p : Patch} (hp : p.override = false) (c : Remark) :
    (∃ f d, p.Accepts c f d) ∨ ∃ e, p.Refuses c e := by
  -- a call is refused at opening, at the identifier, or at documentation that already stands there
  cases hopen : p.openFile c.disk c.file with
  | error e =>
    have hremark : p.remark c = (.error e, p) := by simp [remark, comment, hopen]
    exact .inr ⟨e, by rw [hremark], .inl (by rw [hremark])⟩
  | ok f =>
    -- a file that was opened is kept even where the comment is refused
    have hrefuse : ∀ e, f.comment p.override c.file c.identifier c.text = .error e →
        ∃ e, p.Refuses c e := by
      intro e hcomment
      have hremark : p.remark c = (.error e, { p with files := putFile c.file f p.files }) := by
        simp [remark, comment, hopen, hcomment]
      exact ⟨e, by rw [hremark], .inr ⟨f, hopen, by rw [hremark]⟩⟩
    cases hresolve : resolve? f.declarations c.identifier with
    | none => exact .inr (hrefuse _ (by simp [PatchFile.comment, hresolve]; rfl))
    | some d =>
      cases hdocumented : f.documented d.slot with
      | true => exact .inr (hrefuse _ (by simp [PatchFile.comment, hresolve, hdocumented, hp]; rfl))
      | false =>
        refine .inl ⟨f, d, hopen, hresolve, hdocumented, ?_⟩
        simp [remark, comment, hopen, PatchFile.comment, hresolve, hdocumented]

end Patch

/-! ### Texts that stay -/

namespace PatchFile

variable {f : PatchFile} {slot : DocSlot} {identifier text key : String} {e : Edit}

/-- A text was accepted for a slot, and an edit waits to write it. -/
structure Settled (f : PatchFile) (key : String) (e : Edit) : Prop where
  text : ∃ text, f.text? key = some text ∧ isBlankText text = false
  edit : f.tree.edits.pending? key = some e

/-- A settled slot counts as documented. -/
theorem Settled.documented (h : f.Settled slot.key e) : f.documented slot = true := by
  obtain ⟨text, htext, hblank⟩ := h.text
  simp [PatchFile.documented, htext, hblank]

/-- A text that says something settles its slot. -/
theorem settled_setDoc (htext : isBlankText text = false) :
    (f.setDoc slot identifier text).Settled slot.key
      ⟨slot.start, slot.stop, f.language.renderDoc slot text⟩ where
  text := ⟨text, by simp, htext⟩
  edit := by simp

/-- A settled slot stays so when the text of an open one is set. -/
theorem Settled.setDoc (h : f.Settled key e) (hopen : f.documented slot = false) :
    (f.setDoc slot identifier text).Settled key e := by
  have hkey : slot.key ≠ key := by
    intro hsame
    rw [← hsame] at h
    rw [h.documented] at hopen
    cases hopen
  exact ⟨by simpa [hkey] using h.text, by simpa [hkey] using h.edit⟩

end PatchFile

namespace Patch

variable {p : Patch} {c : Remark} {f : PatchFile} {file key : String} {e : Edit}

/-- Whether a patch may override does not change. -/
theorem override_remark (p : Patch) (c : Remark) : (p.remark c).2.override = p.override := by
  unfold remark comment
  split
  · rfl
  · split <;> rfl

/-- **What a comment does to the files of a patch**: nothing, or it brings one into it, or it queues a
    text for an open slot of one. -/
theorem remark_file (hp : p.override = false) (c : Remark) (file : String) :
    (p.remark c).2.file? file = p.file? file ∨
      ∃ f, p.openFile c.disk file = .ok f ∧
        ((p.remark c).2.file? file = some f ∨
          ∃ d, resolve? f.declarations c.identifier = some d ∧ f.documented d.slot = false ∧
            (p.remark c).2.file? file = some (f.setDoc d.slot c.identifier c.text)) := by
  -- the one file the call is about may have been opened or documented; every other file stays
  rcases remark_cases hp c with ⟨f, d, haccepts⟩ | ⟨e, hrefuses⟩
  · rw [haccepts.result, file?_putFile]
    by_cases hfile : c.file = file
    · subst hfile
      exact .inr ⟨f, haccepts.opened, .inr ⟨d, haccepts.resolved, haccepts.open_slot, by simp⟩⟩
    · exact .inl (if_neg hfile)
  · rcases hrefuses.unchanged with hsame | ⟨f, hopen, hput⟩
    · exact .inl (by rw [hsame])
    · rw [hput, file?_putFile]
      by_cases hfile : c.file = file
      · subst hfile
        exact .inr ⟨f, hopen, .inl (if_pos rfl)⟩
      · exact .inl (if_neg hfile)

/-- The declaration that an identifier means is among the declarations. -/
theorem resolve?_mem {ds : List Declaration} {identifier : String} {d : Declaration}
    (h : resolve? ds identifier = some d) : d ∈ ds := by
  unfold resolve? at h
  split at h
  · cases h
  · obtain ⟨means, -, hfind⟩ := List.exists_of_findSome?_eq_some h
    exact List.mem_of_find?_eq_some hfind

/-- A settled slot stays settled after a comment. -/
theorem settled_remark (hp : p.override = false) (hfile : p.file? file = some f)
    (h : f.Settled key e) (c : Remark) :
    ∃ f', (p.remark c).2.file? file = some f' ∧ f'.Settled key e ∧
      f'.declarations = f.declarations ∧ f'.language = f.language := by
  have hopen : p.openFile c.disk file = .ok f := by simp [openFile, hfile]
  rcases remark_file hp c file with hsame | ⟨f', hopen', hcases⟩
  · exact ⟨f, by rw [hsame, hfile], h, rfl, rfl⟩
  · rw [hopen] at hopen'
    cases hopen'
    rcases hcases with hsame | ⟨d, -, hslot, hset⟩
    · exact ⟨f, hsame, h, rfl, rfl⟩
    · exact ⟨_, hset, h.setDoc hslot, rfl, rfl⟩

/-- **A settled slot stays settled** after any comments. -/
theorem settled_after (hp : p.override = false) (hfile : p.file? file = some f)
    (h : f.Settled key e) (cs : List Remark) :
    ∃ f', (p.after cs).file? file = some f' ∧ f'.Settled key e ∧
      f'.declarations = f.declarations ∧ f'.language = f.language := by
  induction cs generalizing p f with
  | nil => exact ⟨f, hfile, h, rfl, rfl⟩
  | cons c rest ih =>
    obtain ⟨f₁, hfile₁, h₁, hdeclarations, hlanguage⟩ := settled_remark hp hfile h c
    have hp₁ : (p.remark c).2.override = false := by rw [override_remark, hp]
    obtain ⟨f', hfile', h', hdeclarations', hlanguage'⟩ := ih hp₁ hfile₁ h₁
    exact ⟨f', hfile', h', hdeclarations'.trans hdeclarations, hlanguage'.trans hlanguage⟩

/-- A comment on a settled slot is refused. -/
theorem refused_of_settled {d : Declaration} (hp : p.override = false)
    (hfile : p.file? c.file = some f) (h : f.Settled d.slot.key e)
    (hresolve : resolve? f.declarations c.identifier = some d) :
    (p.remark c).1 = .error (.alreadyDocumented c.file c.identifier) := by
  have hopen : p.openFile c.disk c.file = .ok f := by simp [openFile, hfile]
  simp [remark, comment, hopen, PatchFile.comment, hresolve, h.documented, hp]

/-- A comment that was accepted and says something settles the slot of its symbol. -/
theorem settled_of_accepted (hp : p.override = false) (hok : (p.remark c).1 = .ok ())
    (htext : isBlankText c.text = false) :
    ∃ f d, (p.remark c).2.file? c.file = some f ∧ resolve? f.declarations c.identifier = some d ∧
      f.Settled d.slot.key ⟨d.slot.start, d.slot.stop, f.language.renderDoc d.slot c.text⟩ := by
  rcases remark_cases hp c with ⟨f, d, haccepts⟩ | ⟨e, hrefuses⟩
  · refine ⟨f.setDoc d.slot c.identifier c.text, d, ?_, haccepts.resolved, ?_⟩
    · rw [haccepts.result, file?_putFile, if_pos rfl]
    · exact PatchFile.settled_setDoc htext
  · rw [hrefuses.result] at hok
    cases hok

end Patch

/-! ### Slots without documentation -/

namespace PatchFile

variable {f : PatchFile}

/-- Declarations under one key have one slot. -/
def SharesSlots (f : PatchFile) : Prop :=
  ∀ d ∈ f.declarations, ∀ d' ∈ f.declarations, d.slot.key = d'.slot.key → d.slot = d'.slot

instance (f : PatchFile) : Decidable f.SharesSlots :=
  inferInstanceAs (Decidable (∀ d ∈ f.declarations, ∀ d' ∈ f.declarations,
    d.slot.key = d'.slot.key → d.slot = d'.slot))

/-- The file is a Go or Python source, and its tree and declarations are those of the source. -/
structure Genuine (f : PatchFile) : Prop where
  known : f.language = .go ∨ f.language = .python
  parsed : f.language.parse f.tree.code = .ok { code := f.tree.code, root := f.tree.root }
  declared : f.language.declarations { code := f.tree.code, root := f.tree.root }
    = .ok f.declarations

/-- Texts and edits wait only for slots that have no documentation in the source. -/
structure Modest (f : PatchFile) : Prop where
  texts : ∀ x ∈ f.texts, ∃ d ∈ f.declarations, d.slot.hasDoc = false ∧ x.1 = d.slot.key
  edits : ∀ x ∈ f.tree.edits.entries, ∃ d ∈ f.declarations, d.slot.hasDoc = false ∧
    x.1 = d.slot.key ∧ x.2.start = d.slot.start ∧ x.2.stop = d.slot.stop

/-- An open slot has no documentation in the source: a blank text waits only for such a slot. -/
theorem Modest.hasDoc_of_open {d : Declaration} (h : f.Modest) (hshared : f.SharesSlots)
    (hd : d ∈ f.declarations) (hopen : f.documented d.slot = false) : d.slot.hasDoc = false := by
  unfold documented at hopen
  split at hopen
  · rename_i text htext
    obtain ⟨x, hfind, rfl⟩ := Option.map_eq_some_iff.mp htext
    obtain ⟨d', hd', hhasDoc, hkey⟩ := h.texts x (List.mem_of_find?_eq_some hfind)
    have hsame : x.1 = d.slot.key := by simpa using List.find?_some hfind
    rw [hshared d hd d' hd' (by rw [← hsame, hkey])]
    exact hhasDoc
  · exact hopen

/-- Setting the text of an open slot keeps a file modest. -/
theorem Modest.setDoc {d : Declaration} {identifier text : String} (h : f.Modest)
    (hshared : f.SharesSlots) (hd : d ∈ f.declarations) (hopen : f.documented d.slot = false) :
    (f.setDoc d.slot identifier text).Modest := by
  have hhasDoc := h.hasDoc_of_open hshared hd hopen
  constructor
  case texts =>
    intro x hx
    rcases mem_put (putText d.slot.key text) rfl (putText_cons d.slot.key text) hx with rfl | hx
    · exact ⟨d, hd, hhasDoc, rfl⟩
    · exact h.texts x hx
  case edits =>
    intro x hx
    rcases mem_put (EditSet.put d.slot.key _) rfl (EditSet.put_cons d.slot.key _) hx with rfl | hx
    · exact ⟨d, hd, hhasDoc, rfl, rfl, rfl⟩
    · exact h.edits x hx

/-- The string literals that say nothing at the heads of bodies; there are none in Go. -/
def blankLiterals (f : PatchFile) : List (Nat × Nat) :=
  if f.language.name == "python" then Python.blankLiterals f.tree else []

/-- The slots of a source cover no code but literals that say nothing. -/
theorem Genuine.vacant (h : f.Genuine) (hspaced : f.tree.spaced = true) :
    AllVacant f.blankLiterals f.tree.code f.declarations := by
  have hdeclared := h.declared
  have hparsed := h.parsed
  unfold blankLiterals
  -- every slot is vacant where its language puts it: in Go by the declaration itself
  rcases h.known with hgo | hpython
  · rw [hgo] at hdeclared ⊢
    exact Go.vacant_declarations (t := ⟨f.tree.code, f.tree.root, {}⟩) hspaced _ hdeclared
  · rw [hpython] at hdeclared hparsed ⊢
    -- in Python vacancy is a fact about the tree, so the tree has to be the one the source parses to
    have hparse : Python.parse f.tree.code = .ok f.tree.root := by
      change Python.parseTree f.tree.code = _ at hparsed
      unfold Python.parseTree at hparsed
      split at hparsed
      · rename_i root hroot
        cases hparsed
        exact hroot
      · cases hparsed
    exact Python.vacant_declarations (t := ⟨f.tree.code, f.tree.root, {}⟩) hparse hspaced _ hdeclared

/-- **Edits of a modest file keep its code.** -/
theorem Modest.keeps_code (h : f.Modest) (hgenuine : f.Genuine) (hspaced : f.tree.spaced = true) :
    (f.tree.code.ink f.blankLiterals).Sublist f.tree.render := by
  refine Bytes.ink_sublist_render fun x hx => ?_
  obtain ⟨d, hd, hhasDoc, -, hstart, hstop⟩ := h.edits x hx
  exact ⟨d.slot.start, d.slot.stop, hstart, hstop, hgenuine.vacant hspaced d hd hhasDoc⟩

/-- No edit of a modest file waits for a slot that has documentation. -/
theorem Modest.pending?_eq_none {d : Declaration} (h : f.Modest) (hshared : f.SharesSlots)
    (hd : d ∈ f.declarations) (hhasDoc : d.slot.hasDoc = true) :
    f.tree.edits.pending? d.slot.key = none := by
  rw [EditSet.pending?, Option.map_eq_none_iff, List.find?_eq_none]
  intro x hx hkey
  obtain ⟨d', hd', hnone, hkey', -⟩ := h.edits x hx
  rw [hshared d hd d' hd' (by rw [← hkey']; simpa using (beq_iff_eq.mp hkey).symm)] at hhasDoc
  rw [hnone] at hhasDoc
  cases hhasDoc

end PatchFile

/-! ### Any number of comments -/

namespace Patch

/-- A patch without override of Go and Python sources, with edits only where there is no
    documentation. -/
structure Sound (p : Patch) : Prop where
  override_eq : p.override = false
  languages_eq : p.languages = Languages.default
  files : ∀ {file f}, p.file? file = some f → f.Genuine ∧ (f.SharesSlots → f.Modest)

/-- The languages of files are those that were registered. -/
theorem mem_register {r : Languages} {l : Language} {x : String × Language}
    (h : x ∈ (r.register l).byExtension) : x.2 = l ∨ x ∈ r.byExtension := by
  change x ∈ l.extensions.foldl (fun entries x => Languages.put x l entries) r.byExtension at h
  generalize r.byExtension = entries at h ⊢
  generalize l.extensions = suffixes at h
  induction suffixes generalizing entries with
  | nil => exact .inr h
  | cons suffix rest ih =>
    rcases ih _ h with h | h
    · exact .inl h
    · rcases mem_put (Languages.put suffix l) rfl (Languages.put_cons suffix l) h with rfl | h
      · exact .inl rfl
      · exact .inr h

/-- The languages that are known from the start. -/
theorem forFile?_default {file : String} {l : Language}
    (h : Languages.default.forFile? file = some l) : l = .go ∨ l = .python := by
  unfold Languages.forFile? Languages.lookup at h
  obtain ⟨x, hfind, hx⟩ := Option.map_eq_some_iff.mp h
  have hmem := List.mem_of_find?_eq_some hfind
  rw [Languages.default, Languages.ofList, List.foldl_cons, List.foldl_cons, List.foldl_nil] at hmem
  rw [← hx]
  rcases mem_register hmem with h | hmem
  · exact .inr h
  · rcases mem_register hmem with h | hmem
    · exact .inl h
    · cases hmem

/-- The tree of a source is one of this source, without edits. -/
theorem parse_eq {l : Language} (hl : l = .go ∨ l = .python) {code : Bytes} {t : SourceTree}
    (h : l.parse code = .ok t) : ∃ root, t = { code := code, root := root } := by
  rcases hl with rfl | rfl
  · simp only [Language.go] at h
    unfold Go.parseTree at h
    split at h <;> cases h
    exact ⟨_, rfl⟩
  · simp only [Language.python] at h
    unfold Python.parseTree at h
    split at h <;> cases h
    exact ⟨_, rfl⟩

/-- A file that is read is genuine, and nothing waits for it. -/
theorem genuine_load {p : Patch} (hlanguages : p.languages = Languages.default) {disk : FileTree}
    {file : String} : Returns (p.load disk file) fun f => f.Genuine ∧ f.Modest := by
  unfold load
  split
  · exact .error _ _
  · rename_i l hl
    rw [hlanguages] at hl
    have hknown := forFile?_default hl
    -- the source that was read, its tree and its declarations
    refine (Returns.of_any (p.folder.read disk file)).bind fun code _ => ?_
    refine Returns.bind (P := fun tree => l.parse code = .ok tree) ?_ fun tree hparse => ?_
    · intro tree htree
      cases hparse : l.parse code with
      | error e => rw [hparse] at htree; cases htree
      | ok tree' => rw [hparse] at htree; cases htree; rfl
    · obtain ⟨root, rfl⟩ := parse_eq hknown hparse
      refine (Returns.self (l.declarations _)).bind fun ds hds => .pure ⟨⟨hknown, hparse, hds⟩, ?_, ?_⟩
      · rintro x ⟨⟩
      · rintro x ⟨⟩

variable {p : Patch}

/-- A new patch is sound. -/
theorem sound_fresh (folder : Folder) : Sound { folder := folder } where
  override_eq := rfl
  languages_eq := rfl
  files := by rintro file f ⟨⟩

/-- A comment keeps a patch sound. -/
theorem Sound.remark (h : p.Sound) (c : Remark) : (p.remark c).2.Sound where
  override_eq := by rw [override_remark, h.override_eq]
  languages_eq := by
    rw [← h.languages_eq, Patch.remark, comment]
    split
    · rfl
    · split <;> rfl
  files := by
    intro file f hfile
    -- the file was in the patch already, or it was loaded just now and is as the source is
    have hopened : ∀ f, p.openFile c.disk file = .ok f → f.Genuine ∧ (f.SharesSlots → f.Modest) := by
      intro f hopen
      unfold openFile at hopen
      split at hopen
      · cases hopen
        exact h.files ‹_›
      · obtain ⟨hgenuine, hmodest⟩ := genuine_load h.languages_eq f hopen
        exact ⟨hgenuine, fun _ => hmodest⟩
    rcases remark_file h.override_eq c file with hsame | ⟨f', hopen, hsame | ⟨d, hd, hslot, hset⟩⟩
    · rw [hsame] at hfile
      exact h.files hfile
    -- a call that was refused after opening leaves the file as it was loaded
    · rw [hsame] at hfile
      cases hfile
      exact hopened f hopen
    · rw [hset] at hfile
      cases hfile
      obtain ⟨hgenuine, hmodest⟩ := hopened f' hopen
      exact ⟨⟨hgenuine.known, hgenuine.parsed, hgenuine.declared⟩,
        fun hshared => (hmodest hshared).setDoc hshared (resolve?_mem hd) hslot⟩

/-- **Any comments keep a patch sound.** -/
theorem Sound.after (h : p.Sound) (cs : List Remark) : (p.after cs).Sound := by
  induction cs generalizing p with
  | nil => exact h
  | cons c rest ih => exact ih (h.remark c)

theorem after_append (p : Patch) (cs ds : List Remark) :
    p.after (cs ++ ds) = (p.after cs).after ds := List.foldl_append

/-- **Comments leave the code alone.**  Whatever comments a new patch without override was asked for, in
    each of its files no edit waits for a slot that has documentation; when a text that says something was
    accepted for a slot, its edit stays as it is and every further comment on the slot is refused; and the
    source without white space, and without string literals that say nothing at the heads of bodies, is
    still there in its order. -/
theorem comments_spare_code (folder : Folder) (calls : List Remark) {file : String} {f : PatchFile}
    (hfile : (after { folder := folder } calls).file? file = some f)
    (hspaced : f.tree.spaced = true) (hshared : f.SharesSlots) :
    (∀ d ∈ f.declarations, d.slot.hasDoc = true → f.tree.edits.pending? d.slot.key = none) ∧
    (∀ earlier c later, calls = earlier ++ c :: later → c.file = file →
      ((after { folder := folder } earlier).remark c).1 = .ok () → isBlankText c.text = false →
      ∃ d, resolve? f.declarations c.identifier = some d ∧
        f.tree.edits.pending? d.slot.key
          = some ⟨d.slot.start, d.slot.stop, f.language.renderDoc d.slot c.text⟩ ∧
        ∀ c' d', c'.file = file → resolve? f.declarations c'.identifier = some d' →
          d'.slot.key = d.slot.key →
          ((after { folder := folder } calls).remark c').1
            = .error (.alreadyDocumented file c'.identifier)) ∧
    (f.tree.code.ink f.blankLiterals).Sublist f.tree.render := by
  have hsound := (sound_fresh folder).after calls
  obtain ⟨hgenuine, hmodest⟩ := hsound.files hfile
  refine ⟨fun d hd => (hmodest hshared).pending?_eq_none hshared hd, ?_,
    (hmodest hshared).keeps_code hgenuine hspaced⟩
  rintro earlier c later rfl rfl hok htext
  have hearlier := (sound_fresh folder).after earlier
  obtain ⟨f₁, d, hfile₁, hresolve, hsettled⟩ :=
    settled_of_accepted hearlier.override_eq hok htext
  -- the slot is settled from here on, up to the end of the run
  obtain ⟨f₂, hfile₂, hsettled₂, hdeclarations, hlanguage⟩ :=
    settled_after (hearlier.remark c).override_eq hfile₁ hsettled later
  have hsame : some f = some f₂ := by
    rw [← hfile, ← hfile₂, after_append]
    rfl
  cases hsame
  refine ⟨d, by rw [hdeclarations]; exact hresolve, by rw [hlanguage]; exact hsettled₂.edit, ?_⟩
  intro c' d' hfile' hresolve' hkey
  rw [← hfile'] at hfile ⊢
  exact refused_of_settled hsound.override_eq hfile (hkey ▸ hsettled₂) hresolve'

/-- A comment on a function that begins with an empty literal, a second one, and one on a symbol that
    is not there. -/
theorem comments_spare_code_of_a_function :
    let disk : FileTree := [.file "a.py" (Text.encode "def f():\n    ''; return 1\n")]
    let calls : List Remark := [⟨disk, "a.py", "func:f", "Give one."⟩,
      ⟨disk, "a.py", "func:f", "Give more."⟩, ⟨disk, "a.py", "func:g", "Give none."⟩]
    ∃ f, (after { folder := {} } calls).file? "a.py" = some f ∧ f.tree.spaced = true ∧
      f.SharesSlots ∧ f.blankLiterals.length = 2 ∧
      (f.tree.code.ink f.blankLiterals).Sublist f.tree.render := by
  intro disk calls
  have hall : ((after { folder := {} } calls).file? "a.py").any (fun f =>
      f.tree.spaced && decide f.SharesSlots && f.blankLiterals.length == 2) = true := by
    decide +kernel
  obtain ⟨f, hfile, hf⟩ := (Option.any_eq_true _ _).mp hall
  simp only [Bool.and_eq_true, decide_eq_true_eq, beq_iff_eq] at hf
  obtain ⟨⟨hspaced, hshared⟩, hblank⟩ := hf
  exact ⟨f, hfile, hspaced, hshared, hblank, (comments_spare_code {} calls hfile hspaced hshared).2.2⟩

end Patch

end Docsmith
