import Docsmith.Proofs.Patch.Alike

namespace Docsmith

open Text

/-!
# Comments in any order

Comments on different slots do not see one another.  Whichever is made first, each of them meets the same
verdict, and the patch is rendered the same; only a log that both are in tells their order.  Clients that
keep to slots of their own may thus take turns as they like.

* `Patch.target?`, `Patch.Apart`: the slot that a comment is on, and comments on different ones.
* `Remark.verdict`, `Remark.heed`: what a comment comes to in its file.
* `Patch.remark_comm`: two comments in either order.
* `Patch.after_move`: a comment is moved to the front of others, and `Patch.after_interleaved`: two ways to
  take turns.
* `Patch.comments_commute`: all of this for reachable patches.
-/

namespace Remark

variable {c d : Remark} {f g : PatchFile} {override : Bool}

/-- What a comment meets in its file: the declaration whose slot it sets, or why it is refused. -/
def verdict (c : Remark) (override : Bool) (f : PatchFile) : Except Failure Declaration :=
  match resolve? f.declarations c.identifier with
  | none => .error (.symbolNotFound c.file c.identifier)
  | some d =>
    if f.documented d.slot && !override then .error (.alreadyDocumented c.file c.identifier) else .ok d

/-- The file after a comment. -/
def heed (c : Remark) (override : Bool) (f : PatchFile) : PatchFile :=
  match c.verdict override f with
  | .ok d => f.setDoc d.slot c.identifier c.text
  | .error _ => f

/-- A comment is accepted or refused by its verdict. -/
theorem comment_eq (c : Remark) (override : Bool) (f : PatchFile) :
    f.comment override c.file c.identifier c.text
      = (c.verdict override f).map fun d => f.setDoc d.slot c.identifier c.text := by
  unfold PatchFile.comment verdict
  cases resolve? f.declarations c.identifier with
  | none => rfl
  | some a => cases hrefuse : f.documented a.slot && !override <;> simp [Except.map, hrefuse]

/-- The declaration of a verdict is what the identifier means. -/
theorem resolve?_of_verdict {a : Declaration} (h : c.verdict override f = .ok a) :
    resolve? f.declarations c.identifier = some a := by
  unfold verdict at h
  split at h
  · cases h
  · rename_i a' hresolve
    split at h
    · cases h
    · cases h
      exact hresolve

/-- The verdict depends on the texts and not on their order. -/
theorem verdict_congr (h : f.Alike g) : c.verdict override f = c.verdict override g := by
  have hdocumented (slot : DocSlot) : f.documented slot = g.documented slot := by
    rw [PatchFile.documented, h.texts, PatchFile.documented]
  unfold verdict
  rw [h.declarations]
  cases resolve? g.declarations c.identifier with
  | none => rfl
  | some a => simp [hdocumented]

/-- A comment keeps files alike. -/
theorem heed_congr (h : f.Alike g) : (c.heed override f).Alike (c.heed override g) := by
  unfold heed
  rw [verdict_congr h]
  split
  · exact h.setDoc _ _ _
  · exact h

/-- A text for another slot does not change the verdict. -/
theorem verdict_setDoc {slot : DocSlot} {identifier text : String}
    (h : ∀ a, resolve? f.declarations c.identifier = some a → slot.key ≠ a.slot.key) :
    c.verdict override (f.setDoc slot identifier text) = c.verdict override f := by
  have hsame : (f.setDoc slot identifier text).declarations = f.declarations := rfl
  unfold verdict
  rw [hsame]
  split
  · rfl
  · rename_i a hresolve
    have hdocumented : (f.setDoc slot identifier text).documented a.slot = f.documented a.slot := by
      simp [PatchFile.documented, h a hresolve]
    rw [hdocumented]

/-- Two comments on one file mean slots under different keys, or one of them none. -/
def ApartIn (f : PatchFile) (c d : Remark) : Prop :=
  ∀ a b, resolve? f.declarations c.identifier = some a → resolve? f.declarations d.identifier = some b →
    a.slot.key ≠ b.slot.key

theorem ApartIn.symm (h : ApartIn f c d) : ApartIn f d c :=
  fun b a hb ha hkey => h a b ha hb hkey.symm

/-- A comment on another slot does not change the verdict. -/
theorem verdict_heed (h : ApartIn f c d) :
    d.verdict override (c.heed override f) = d.verdict override f := by
  unfold heed
  split
  · rename_i a hverdict
    exact verdict_setDoc fun b hb => h a b (resolve?_of_verdict hverdict) hb
  · rfl

/-- **Two comments on different slots of a file** come to the same in either order. -/
theorem heed_heed (h : ApartIn f c d) :
    (d.heed override (c.heed override f)).Alike (c.heed override (d.heed override f)) := by
  -- each verdict is the same with or without the other call, so four cases are left: refused or told
  rw [heed, verdict_heed h, heed.eq_def c override (d.heed override f), verdict_heed h.symm]
  cases hc : c.verdict override f with
  | error e =>
    have hsame : c.heed override f = f := by simp only [heed, hc]
    rw [hsame]
    exact PatchFile.Alike.refl _
  | ok a =>
    have hset : c.heed override f = f.setDoc a.slot c.identifier c.text := by simp only [heed, hc]
    rw [hset]
    cases hd : d.verdict override f with
    | error e =>
      have hsame : d.heed override f = f := by simp only [heed, hd]
      rw [hsame]
      exact PatchFile.Alike.refl _
    | ok b =>
      have hset' : d.heed override f = f.setDoc b.slot d.identifier d.text := by simp only [heed, hd]
      rw [hset']
      -- both are told, and their slots differ because the two calls are apart
      exact PatchFile.alike_setDoc_setDoc f
        (h a b (resolve?_of_verdict hc) (resolve?_of_verdict hd)) _ _ _ _

/-- A comment changes nothing of what a file declares. -/
@[simp] theorem declarations_heed : (c.heed override f).declarations = f.declarations := by
  unfold heed
  split <;> rfl

end Remark

namespace Patch

variable {p q : Patch} {c d : Remark} {file : String}

/-! ### One comment -/

/-- A comment on a file that opens meets its verdict there. -/
theorem remark_of_open {f : PatchFile} (h : p.openFile c.disk c.file = .ok f) :
    p.remark c = ((c.verdict p.override f).map fun _ => (),
      { p with files := putFile c.file (c.heed p.override f) p.files }) := by
  simp only [remark, comment, h, Remark.comment_eq, Remark.heed]
  cases c.verdict p.override f <;> rfl

/-- A comment on a file that does not open is refused for that, and changes nothing. -/
theorem remark_of_shut {e : Failure} (h : p.openFile c.disk c.file = .error e) :
    p.remark c = (.error e, p) := by
  simp [remark, comment, h]

/-- A file of the patch after a comment. -/
theorem file?_remark (p : Patch) (c : Remark) (file : String) :
    (p.remark c).2.file? file
      = if c.file = file then (p.openFile c.disk c.file).toOption.map (c.heed p.override)
        else p.file? file := by
  cases hopen : p.openFile c.disk c.file with
  | ok f =>
    rw [remark_of_open hopen, file?_putFile]
    rfl
  | error e =>
    rw [remark_of_shut hopen]
    split
    · rename_i hfile
      subst hfile
      -- a file that does not open is not in the patch
      unfold openFile at hopen
      split at hopen
      · cases hopen
      · assumption
    · rfl

/-- A file that is opened after a comment, on the disk that the comment saw. -/
theorem openFile_remark (p : Patch) {disk : FileTree} (hdisk : c.disk = disk) (file : String) :
    (p.remark c).2.openFile disk file
      = if c.file = file then (p.openFile disk file).map (c.heed p.override)
        else p.openFile disk file := by
  subst hdisk
  rw [openFile, file?_remark, load_remark]
  by_cases hfile : c.file = file
  · subst hfile
    rw [if_pos rfl, if_pos rfl]
    -- a file that could not be opened stays closed: no call can have put it there
    cases hopen : p.openFile c.disk c.file with
    | ok f => rfl
    | error e =>
      unfold openFile at hopen
      split at hopen
      · cases hopen
      · exact hopen
  · rw [if_neg hfile, if_neg hfile]
    rfl

/-- What becomes of a comment: its file does not open, or the verdict. -/
theorem remark_fst (p : Patch) (c : Remark) :
    (p.remark c).1
      = (p.openFile c.disk c.file).bind fun f => (c.verdict p.override f).map fun _ => () := by
  cases hopen : p.openFile c.disk c.file with
  | ok f => rw [remark_of_open hopen]; rfl
  | error e => rw [remark_of_shut hopen]; rfl

/-- Patches that are alike open files that are alike, or fail alike. -/
theorem Alike.openFile (h : p.Alike q) (disk : FileTree) (file : String) :
    (∃ f g, p.openFile disk file = .ok f ∧ q.openFile disk file = .ok g ∧ f.Alike g) ∨
      ∃ e, p.openFile disk file = .error e ∧ q.openFile disk file = .error e := by
  have hload : p.load disk file = q.load disk file := by
    unfold load
    rw [h.folder, h.languages]
  have hrel := h.files file
  unfold Patch.openFile
  rw [hload]
  generalize p.file? file = f?, q.file? file = g? at hrel ⊢
  cases hrel with
  | some hfg => exact .inl ⟨_, _, rfl, rfl, hfg⟩
  | none =>
    cases q.load disk file with
    | ok f => exact .inl ⟨f, f, rfl, rfl, PatchFile.Alike.refl f⟩
    | error e => exact .inr ⟨e, rfl, rfl⟩

/-- A comment keeps patches alike. -/
theorem Alike.remark (h : p.Alike q) (c : Remark) : (p.remark c).2.Alike (q.remark c).2 := by
  rcases h.openFile c.disk c.file with ⟨f, g, hf, hg, hfg⟩ | ⟨e, hp, hq⟩
  · have hheed : (c.heed p.override f).Alike (c.heed q.override g) :=
      h.override ▸ Remark.heed_congr hfg
    rw [remark_of_open hf, remark_of_open hg]
    exact h.putFile hheed
  · rw [remark_of_shut hp, remark_of_shut hq]
    exact h

/-- So do many. -/
theorem Alike.after (h : p.Alike q) (cs : List Remark) : (p.after cs).Alike (q.after cs) := by
  induction cs generalizing p q with
  | nil => exact h
  | cons c rest ih => exact ih (h.remark c)

/-! ### Two comments -/

/-- The slot that a comment is on, by its file and its key. -/
def target? (p : Patch) (c : Remark) : Option (String × String) :=
  match p.openFile c.disk c.file with
  | .ok f => (resolve? f.declarations c.identifier).map fun d => (c.file, d.slot.key)
  | .error _ => none

/-- Two comments are on different slots, or one of them is on none. -/
def Apart (p : Patch) (c d : Remark) : Prop := p.target? c = none ∨ p.target? c ≠ p.target? d

instance (p : Patch) (c d : Remark) : Decidable (p.Apart c d) :=
  inferInstanceAs (Decidable (_ ∨ _))

theorem Apart.symm (h : p.Apart c d) : p.Apart d c := by
  unfold Apart at *
  cases hd : p.target? d with
  | none => exact .inl rfl
  | some y =>
    rw [hd] at h
    rcases h with h | h
    · exact .inr (by rw [h]; exact Option.some_ne_none y)
    · exact .inr h.symm

/-- Comments that are apart mean different slots of the file that they are both on. -/
theorem Apart.apartIn {f : PatchFile} (h : p.Apart c d) (hc : p.openFile c.disk c.file = .ok f)
    (hd : p.openFile d.disk d.file = .ok f) (hfile : c.file = d.file) : Remark.ApartIn f c d := by
  intro a b ha hb hkey
  have htarget : p.target? c = some (c.file, a.slot.key) := by simp [target?, hc, ha]
  have htarget' : p.target? d = some (d.file, b.slot.key) := by simp [target?, hd, hb]
  rcases h with h | h
  · rw [htarget] at h
    cases h
  · rw [htarget, htarget', hfile, hkey] at h
    exact h rfl

/-- Comments do not change what the others are on. -/
theorem target?_remark (p : Patch) (hdisk : c.disk = d.disk) :
    (p.remark c).2.target? d = p.target? d := by
  unfold target?
  rw [openFile_remark p hdisk]
  by_cases hfile : c.file = d.file
  · rw [if_pos hfile]
    cases p.openFile d.disk d.file with
    | ok f => simp [Except.map]
    | error e => rfl
  · rw [if_neg hfile]

/-- A comment on another slot does not change the verdict. -/
theorem remark_fst_remark (hdisk : c.disk = d.disk) (h : p.Apart c d) :
    ((p.remark c).2.remark d).1 = (p.remark d).1 := by
  rw [remark_fst, remark_fst, override_remark, openFile_remark p hdisk]
  by_cases hfile : c.file = d.file
  · rw [if_pos hfile]
    cases hopen : p.openFile d.disk d.file with
    | error e => rfl
    | ok f =>
      have happart := h.apartIn (by rw [hdisk, hfile, hopen]) hopen hfile
      exact congrArg (Except.map fun _ => ()) (Remark.verdict_heed happart)
  · rw [if_neg hfile]

/-- A comment changes nothing of the settings of a patch. -/
theorem settings_remark (p : Patch) (c : Remark) : (p.remark c).2.folder = p.folder ∧
    (p.remark c).2.languages = p.languages ∧ (p.remark c).2.override = p.override := by
  obtain ⟨files, hfiles⟩ := remark_files p c
  rw [hfiles]
  exact ⟨rfl, rfl, rfl⟩

/-- **Two comments on different slots** lead to patches that are alike, in either order. -/
theorem remark_comm (hdisk : c.disk = d.disk) (h : p.Apart c d) :
    ((p.remark c).2.remark d).2.Alike ((p.remark d).2.remark c).2 := by
  obtain ⟨hfolder, hlanguages, hoverride⟩ := settings_remark p c
  obtain ⟨hfolder', hlanguages', hoverride'⟩ := settings_remark p d
  obtain ⟨hfolder₁, hlanguages₁, hoverride₁⟩ := settings_remark (p.remark c).2 d
  obtain ⟨hfolder₂, hlanguages₂, hoverride₂⟩ := settings_remark (p.remark d).2 c
  refine ⟨by rw [hfolder₁, hfolder₂, hfolder, hfolder'],
    by rw [hlanguages₁, hlanguages₂, hlanguages, hlanguages'],
    by rw [hoverride₁, hoverride₂, hoverride, hoverride'], fun file => ?_⟩
  rw [file?_remark, file?_remark, file?_remark, file?_remark, openFile_remark p hdisk,
    openFile_remark p hdisk.symm, hoverride, hoverride']
  have hrefl (f? : Option PatchFile) : Option.Rel PatchFile.Alike f? f? := by
    cases f? with
    | none => exact .none
    | some f => exact .some (PatchFile.Alike.refl f)
  by_cases hc : c.file = file
  · by_cases hd : d.file = file
    · -- both are in this file
      have hfile : c.file = d.file := hc.trans hd.symm
      rw [if_pos hd, if_pos hfile, if_pos hc, if_pos hfile.symm, hdisk, hfile]
      cases hopen : p.openFile d.disk d.file with
      | error e => exact .none
      | ok f =>
        have happart := h.apartIn (by rw [hdisk, hfile, hopen]) hopen hfile
        exact .some (Remark.heed_heed happart)
    · have hfile : ¬d.file = c.file := fun heq => hd (heq.trans hc)
      rw [if_neg hd, if_pos hc, if_pos hc, if_neg hfile]
      exact hrefl _
  · rw [if_neg hc, if_neg hc]
    by_cases hd : d.file = file
    · have hfile : ¬c.file = d.file := fun heq => hc (heq.trans hd)
      rw [if_pos hd, if_pos hd, if_neg hfile]
      exact hrefl _
    · rw [if_neg hd, if_neg hd]
      exact hrefl _

/-! ### Logs -/

/-- A comment is accepted or not. -/
theorem accepted_cases (p : Patch) (c : Remark) :
    (p.remark c).1 = .ok () ∧ p.accepted [c] = [c] ∨ p.accepted [c] = [] := by
  cases h : (p.remark c).1 with
  | ok => exact .inl ⟨rfl, accepted_of_ok h []⟩
  | error e => exact .inr (accepted_of_error h [])

/-- The verdict on a comment tells whether it is accepted. -/
theorem accepted_congr (h : (p.remark c).1 = (q.remark c).1) : p.accepted [c] = q.accepted [c] := by
  simp only [accepted, h]

/-- The files of some names with a log, and their logs. -/
def told (p : Patch) (names : List String) : List (String × List String) :=
  (names.map fun file => (file, p.log file)).filter fun x => !x.2.isEmpty

/-- What a patch tells is the log of each of its files, where there is one. -/
theorem identifiers_eq (hp : (p.files.map Prod.fst).Nodup) : p.identifiers = p.told p.fileNames := by
  have hlogs : (p.fileNames.map fun file => (file, p.log file))
      = p.sorted.map fun x => (x.1, x.2.identifiers) := by
    rw [fileNames, List.map_map]
    refine List.map_congr_left fun x hx => ?_
    have hfile : p.file? x.1 = some x.2 := (file?_eq_some hp).mpr (p.sorted_perm.mem_iff.mp hx)
    simp [log, hfile]
  rw [told, hlogs]
  rfl

/-- Patches with the same logs under some names tell the same of them. -/
theorem told_congr {names : List String} (h : ∀ file ∈ names, p.log file = q.log file) :
    p.told names = q.told names := by
  unfold told
  rw [List.map_congr_left fun file hfile => by rw [h file hfile]]

theorem told_split {l r : List String} (hsome : p.log file ≠ []) :
    p.told (l ++ file :: r) = p.told l ++ (file, p.log file) :: p.told r := by
  unfold told
  rw [List.map_append, List.map_cons, List.filter_append, List.filter_cons_of_pos (by simpa)]

/-- Two patches of the same files whose logs differ in one file only tell the same, up to this file. -/
theorem identifiers_of_log (hp : (p.files.map Prod.fst).Nodup) (hq : (q.files.map Prod.fst).Nodup)
    (hnames : p.fileNames = q.fileNames) (hlog : ∀ other, other ≠ file → p.log other = q.log other)
    (hsome : p.log file ≠ []) (hsome' : q.log file ≠ []) :
    ∃ before after, p.identifiers = before ++ (file, p.log file) :: after ∧
      q.identifiers = before ++ (file, q.log file) :: after := by
  -- the file has identifiers, so it is among the names that are written out
  have hmem : file ∈ p.fileNames := by
    have htold : (file, p.log file) ∈ p.identifiers := (mem_identifiers hp).mpr ⟨hsome, rfl⟩
    rw [identifiers_eq hp] at htold
    obtain ⟨name, hname, heq⟩ := List.mem_map.mp (List.mem_filter.mp htold).1
    cases heq
    exact hname
  have hnodup : p.fileNames.Nodup := (p.sorted_perm.map Prod.fst).nodup_iff.mpr hp
  obtain ⟨l, r, hsplit⟩ := List.append_of_mem hmem
  rw [hsplit] at hnodup
  obtain ⟨-, hcons, hapart⟩ := List.nodup_append.mp hnodup
  -- before and behind it only other files stand, and about those the two logs agree
  have hl : p.told l = q.told l := told_congr fun other hother =>
    hlog other fun heq => hapart other hother file List.mem_cons_self heq
  have hr : p.told r = q.told r := told_congr fun other hother =>
    hlog other fun heq => (List.nodup_cons.mp hcons).1 (heq ▸ hother)
  refine ⟨p.told l, p.told r, ?_, ?_⟩
  · rw [identifiers_eq hp, hsplit, told_split hsome]
  · rw [identifiers_eq hq, ← hnames, hsplit, told_split hsome', hl, hr]

/-- Two comments on different slots are logged in the order in which they are made. -/
theorem log_remark_remark (hdisk : c.disk = d.disk) (h : p.Apart c d) (file : String) :
    ((p.remark c).2.remark d).2.log file = p.log file
      ++ (identifiersIn file (p.accepted [c]) ++ identifiersIn file (p.accepted [d])) := by
  rw [log_remark, log_remark, accepted_congr (remark_fst_remark hdisk h), List.append_assoc]

/-- **What is told of two comments on different slots** differs at most by the order of their
    identifiers, which are in the log of one file. -/
theorem identifiers_comm (hp : p.Tidy) (hlanguages : p.languages.Reads) (hdisk : c.disk = d.disk)
    (h : p.Apart c d) :
    let cd := ((p.remark c).2.remark d).2
    let dc := ((p.remark d).2.remark c).2
    cd.identifiers = dc.identifiers ∨ c.file = d.file ∧ ∃ before log after,
      cd.identifiers = before ++ (c.file, log ++ [c.identifier, d.identifier]) :: after ∧
      dc.identifiers = before ++ (c.file, log ++ [d.identifier, c.identifier]) :: after := by
  intro cd dc
  have hcd : cd.Tidy := (hp.remark hlanguages c).remark (by rwa [languages_remark]) d
  have hdc : dc.Tidy := (hp.remark hlanguages d).remark (by rwa [languages_remark]) c
  have hnames : cd.fileNames = dc.fileNames := (remark_comm hdisk h).fileNames_eq hcd hdc
  have hlog (file : String) : cd.log file = p.log file
      ++ (identifiersIn file (p.accepted [c]) ++ identifiersIn file (p.accepted [d])) :=
    log_remark_remark hdisk h file
  have hlog' (file : String) : dc.log file = p.log file
      ++ (identifiersIn file (p.accepted [d]) ++ identifiersIn file (p.accepted [c])) :=
    log_remark_remark hdisk.symm h.symm file
  -- without two identifiers in one log there is no order to tell
  have hsame (hno : ∀ file, identifiersIn file (p.accepted [c]) = [] ∨
      identifiersIn file (p.accepted [d]) = []) : cd.identifiers = dc.identifiers := by
    rw [identifiers_eq hcd.names, identifiers_eq hdc.names, hnames]
    refine told_congr fun file _ => ?_
    rw [hlog, hlog']
    rcases hno file with hnone | hnone
    · rw [hnone, List.nil_append, List.append_nil]
    · rw [hnone, List.nil_append, List.append_nil]
  have hother (c : Remark) (file : String) (hfile : c.file ≠ file) : identifiersIn file [c] = [] := by
    simp [identifiersIn, hfile]
  rcases p.accepted_cases c with ⟨-, hc⟩ | hc
  · rcases p.accepted_cases d with ⟨-, hd⟩ | hd
    · rw [hc, hd] at hlog hlog' hsame
      by_cases hfile : c.file = d.file
      · have hboth : cd.log c.file = p.log c.file ++ [c.identifier, d.identifier] := by
          simp [hlog, identifiersIn, hfile]
        have hboth' : dc.log c.file = p.log c.file ++ [d.identifier, c.identifier] := by
          simp [hlog', identifiersIn, hfile]
        have hdiffer : ∀ other, other ≠ c.file → cd.log other = dc.log other := by
          intro other hne
          rw [hlog, hlog', hother c other hne.symm, hother d other (hfile ▸ hne.symm)]
        obtain ⟨before, after, htold, htold'⟩ := identifiers_of_log hcd.names hdc.names hnames hdiffer
          (by simp [hboth]) (by simp [hboth'])
        exact .inr ⟨hfile, before, p.log c.file, after, hboth ▸ htold, hboth' ▸ htold'⟩
      · refine .inl (hsame fun file => ?_)
        by_cases hc' : c.file = file
        · exact .inr (hother d file fun heq => hfile (hc'.trans heq.symm))
        · exact .inl (hother c file hc')
    · exact .inl (hsame fun file => .inr (by rw [hd]; rfl))
  · exact .inl (hsame fun file => .inl (by rw [hc]; rfl))

/-! ### Taking turns -/

/-- A comment may be moved to the front of others on different slots. -/
theorem after_move {before : List Remark} (hdisk : ∀ x ∈ before, x.disk = c.disk)
    (h : ∀ x ∈ before, p.Apart x c) (rest : List Remark) :
    (p.after (before ++ c :: rest)).Alike (p.after (c :: (before ++ rest))) := by
  induction before generalizing p with
  | nil => exact Alike.refl _
  | cons x before ih =>
    have hx : x.disk = c.disk := hdisk x List.mem_cons_self
    have hlater : ((p.remark x).2.after (before ++ c :: rest)).Alike
        ((p.remark x).2.after (c :: (before ++ rest))) := by
      refine ih (fun y hy => hdisk y (List.mem_cons_of_mem _ hy)) fun y hy => ?_
      have hy' : x.disk = y.disk := hx.trans (hdisk y (List.mem_cons_of_mem _ hy)).symm
      unfold Apart
      rw [target?_remark p hy', target?_remark p hx]
      exact h y (List.mem_cons_of_mem _ hy)
    exact hlater.trans ((remark_comm hx (h x List.mem_cons_self)).after (before ++ rest))

/-- Two orders of the comments of some clients: each client makes the same, in the same order. -/
def SameTurns {ι : Type} [DecidableEq ι] (w w' : List (ι × Remark)) : Prop :=
  ∀ i, w.filter (·.1 = i) = w'.filter (·.1 = i)

section SameTurns

variable {ι : Type} [DecidableEq ι] {i : ι} {w w' : List (ι × Remark)} {x : ι × Remark}

theorem SameTurns.mem (h : SameTurns w w') (hx : x ∈ w') : x ∈ w := by
  have hmem : x ∈ w'.filter (·.1 = x.1) := List.mem_filter.mpr ⟨hx, by simp⟩
  rw [← h x.1] at hmem
  exact (List.mem_filter.mp hmem).1

/-- What comes first in one order has only comments of other clients before it in the other one. -/
theorem SameTurns.cons (h : SameTurns ((i, c) :: w) w') : ∃ before rest,
    w' = before ++ (i, c) :: rest ∧ (∀ x ∈ before, x.1 ≠ i) ∧ SameTurns w (before ++ rest) := by
  have hfirst : w'.filter (·.1 = i) = (i, c) :: w.filter (·.1 = i) := by
    rw [← h i, List.filter_cons_of_pos (by simp)]
  obtain ⟨before, rest, rfl, hbefore, -, hrest⟩ := List.filter_eq_cons_iff.mp hfirst
  have hother : ∀ x ∈ before, x.1 ≠ i := fun x hx => by simpa using hbefore x hx
  refine ⟨before, rest, rfl, hother, fun j => ?_⟩
  by_cases hij : i = j
  · subst hij
    have hnone : before.filter (·.1 = i) = [] :=
      List.filter_eq_nil_iff.mpr fun x hx => by simpa using hother x hx
    rw [List.filter_append, hnone, List.nil_append, hrest]
  · simpa [List.filter_cons, hij] using h j

/-- **Two ways to take turns** lead to patches that are alike, if no two clients share a slot. -/
theorem after_interleaved {disk : FileTree} (hdisk : ∀ x ∈ w, x.2.disk = disk)
    (hapart : ∀ x ∈ w, ∀ y ∈ w, x.1 ≠ y.1 → p.Apart x.2 y.2) (h : SameTurns w w') :
    (p.after (w.map Prod.snd)).Alike (p.after (w'.map Prod.snd)) := by
  induction w generalizing w' p with
  | nil =>
    have hnil : w' = [] := List.eq_nil_iff_forall_not_mem.mpr fun x hx => by cases h.mem hx
    rw [hnil]
    exact Alike.refl _
  | cons x w ih =>
    obtain ⟨i, c⟩ := x
    obtain ⟨before, rest, rfl, hbefore, hrest⟩ := h.cons
    have hc : c.disk = disk := hdisk (i, c) List.mem_cons_self
    have hmem : ∀ y ∈ before, y ∈ (i, c) :: w := fun y hy => h.mem (List.mem_append_left _ hy)
    -- the first comment may be made first in the other order, too
    have hfront : (p.after (before.map Prod.snd ++ c :: rest.map Prod.snd)).Alike
        (p.after (c :: (before.map Prod.snd ++ rest.map Prod.snd))) := by
      refine after_move (fun d hd => ?_) (fun d hd => ?_) _
      · obtain ⟨y, hy, rfl⟩ := List.mem_map.mp hd
        rw [hc]
        exact hdisk y (hmem y hy)
      · obtain ⟨y, hy, rfl⟩ := List.mem_map.mp hd
        exact hapart y (hmem y hy) (i, c) List.mem_cons_self (hbefore y hy)
    have hlater : ((p.remark c).2.after (w.map Prod.snd)).Alike
        ((p.remark c).2.after ((before ++ rest).map Prod.snd)) := by
      refine ih (fun y hy => hdisk y (List.mem_cons_of_mem _ hy)) (fun y hy z hz hne => ?_) hrest
      unfold Apart
      rw [target?_remark p (hc.trans (hdisk y (List.mem_cons_of_mem _ hy)).symm),
        target?_remark p (hc.trans (hdisk z (List.mem_cons_of_mem _ hz)).symm)]
      exact hapart y (List.mem_cons_of_mem _ hy) z (List.mem_cons_of_mem _ hz) hne
    rw [List.map_append] at hlater ⊢
    exact hlater.trans hfront.symm

end SameTurns

/-- Comments keep a patch tidy. -/
theorem Tidy.after (hp : p.Tidy) (hlanguages : p.languages.Reads) (cs : List Remark) :
    (p.after cs).Tidy := by
  induction cs generalizing p with
  | nil => exact hp
  | cons c rest ih => exact ih (hp.remark hlanguages c) (by rwa [languages_remark])

/-- **Comments on different slots commute.**  Two of them on one disk meet the same verdicts in either
    order and leave the same to be rendered, and what is told of them differs at most by the order of their
    identifiers in the log of one file.  So whichever way clients that share no slot take turns, the same
    is rendered. -/
theorem comments_commute (hp : p.Reachable) (hlanguages : p.languages.Reads) (disk : FileTree) :
    (∀ c d, c.disk = disk → d.disk = disk → p.Apart c d →
      let cd := (p.remark c).2.remark d
      let dc := (p.remark d).2.remark c
      dc.1 = (p.remark c).1 ∧ cd.1 = (p.remark d).1 ∧ cd.2.dryRun = dc.2.dryRun ∧
        (cd.2.identifiers = dc.2.identifiers ∨ c.file = d.file ∧ ∃ before log after,
          cd.2.identifiers = before ++ (c.file, log ++ [c.identifier, d.identifier]) :: after ∧
          dc.2.identifiers = before ++ (c.file, log ++ [d.identifier, c.identifier]) :: after)) ∧
    ∀ (ι : Type) [DecidableEq ι] (w w' : List (ι × Remark)), SameTurns w w' →
      (∀ x ∈ w, x.2.disk = disk) → (∀ x ∈ w, ∀ y ∈ w, x.1 ≠ y.1 → p.Apart x.2 y.2) →
      (p.after (w.map Prod.snd)).dryRun = (p.after (w'.map Prod.snd)).dryRun := by
  have htidy := hp.tidy hlanguages
  constructor
  -- two calls, each heard as it would be without the other
  · intro c d hc hd h cd dc
    have hdisk : c.disk = d.disk := hc.trans hd.symm
    have htidy' (c d : Remark) : ((p.remark c).2.remark d).2.Tidy :=
      htidy.after hlanguages [c, d]
    exact ⟨remark_fst_remark hdisk.symm h.symm, remark_fst_remark hdisk h,
      (remark_comm hdisk h).dryRun_eq (htidy' c d) (htidy' d c),
      identifiers_comm htidy hlanguages hdisk h⟩
  -- whole interleavings are brought to one another by such exchanges
  · intro ι _ w w' h hdisk hapart
    exact (after_interleaved hdisk hapart h).dryRun_eq (htidy.after hlanguages _)
      (htidy.after hlanguages _)

/-- Two functions of one file are documented in either order. -/
theorem comments_commute_in_a_file :
    let disk : FileTree := [.file "a.py" (Text.encode "def f():\n    pass\ndef g(): pass\n")]
    let c : Remark := ⟨disk, "a.py", "func:f", "Give one."⟩
    let d : Remark := ⟨disk, "a.py", "func:g", "Give more."⟩
    let p : Patch := { folder := {} }
    p.Reachable ∧ Languages.default.Reads ∧ p.Apart c d ∧ (p.remark c).1.toOption.isSome ∧
      ((p.remark c).2.remark d).2.dryRun = ((p.remark d).2.remark c).2.dryRun := by
  intro disk c d p
  have hp : p.Reachable := .fresh {} _ _
  have hapart : p.Apart c d := by decide +kernel
  exact ⟨hp, Languages.reads_default, hapart, by decide +kernel,
    ((comments_commute hp Languages.reads_default disk).1 c d rfl rfl hapart).2.2.1⟩

end Patch

end Docsmith
