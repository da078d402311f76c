import Docsmith.Proofs.Doc.Places
import Docsmith.Proofs.Patch.Order
import Docsmith.Proofs.Source.Kept

namespace Docsmith

open Text

/-!
# Edits at the slots of declarations

The edits that wait for a file are at the slots of what the file declares.  When these come one after
another no edit is dropped, and each text that was accepted can be read in the file afterwards, unless
another one was accepted for its slot.

* `PatchFile.DrawnFrom`: a file whose edits are at the slots of another one's declarations.
* `PatchFile.DrawnFrom.kept`, `PatchFile.DrawnFrom.infix_render`: all edits are made.
* `Patch.Ready`: a file is drawn from another one, or will be when it is opened.
* `Patch.pending?_after`: what waits for a slot stays until another text is accepted for it.
* `Patch.Ready.written`: a text that was accepted is written, or another one in its place.
-/

/-! ### Slots that come one after another -/

/-- Of declarations whose slots come one after another, the slot that begins earlier ends before the
    other begins. -/
theorem stop_le_of_start_lt {ds : List Declaration}
    (h : ds.Pairwise fun d e => d.slot.Before e.slot) {d e : Declaration} (hd : d ∈ ds) (he : e ∈ ds)
    (hlt : d.slot.start < e.slot.start) : d.slot.stop ≤ e.slot.start := by
  refine List.Pairwise.forall_of_forall_of_flip (R := fun d e : Declaration =>
    d.slot.start < e.slot.start → d.slot.stop ≤ e.slot.start) ?_ ?_ ?_ hd he hlt
  · exact fun d _ hself => absurd hself (Nat.lt_irrefl _)
  · exact h.imp fun hbefore _ => hbefore.stop_le
  · refine h.imp fun hbefore hgt => ?_
    have hstart := hbefore.start_lt
    omega

/-- Of declarations whose slots come one after another, no two have a slot that begins at one place. -/
theorem eq_of_start_eq {ds : List Declaration}
    (h : ds.Pairwise fun d e => d.slot.Before e.slot) {d e : Declaration} (hd : d ∈ ds) (he : e ∈ ds)
    (heq : d.slot.start = e.slot.start) : d = e := by
  refine List.Pairwise.forall_of_forall_of_flip (R := fun d e : Declaration =>
    d.slot.start = e.slot.start → d = e) ?_ ?_ ?_ hd he heq
  · exact fun d _ _ => rfl
  · exact h.imp fun hbefore hsame => absurd hsame (Nat.ne_of_lt hbefore.start_lt)
  · exact h.imp fun hbefore hsame => absurd hsame.symm (Nat.ne_of_lt hbefore.start_lt)

/-! ### Files -/

/-- The file has the language and the declarations of another one, and its edits are at the slots of
    these. -/
structure PatchFile.DrawnFrom (f f₀ : PatchFile) : Prop where
  language : f.language = f₀.language
  declarations : f.declarations = f₀.declarations
  keyed : f.tree.edits.Keyed
  edits : ∀ x ∈ f.tree.edits.entries, ∃ d ∈ f₀.declarations,
    x.2.start = d.slot.start ∧ x.2.stop = d.slot.stop

namespace PatchFile

variable {f f₀ : PatchFile}

/-- A file without edits is drawn from itself. -/
theorem drawnFrom_self (h : f.tree.edits.entries = []) : f.DrawnFrom f :=
  ⟨rfl, rfl, EditSet.keyed_of_nil h, fun x hx => by rw [h] at hx; cases hx⟩

/-- A comment edits a slot of a declaration. -/
theorem DrawnFrom.heed (h : f.DrawnFrom f₀) (c : Remark) (override : Bool) :
    (c.heed override f).DrawnFrom f₀ := by
  unfold Remark.heed
  split
  · rename_i d hverdict
    refine ⟨h.language, h.declarations, h.keyed.edit d.slot rfl, fun x hx => ?_⟩
    rcases mem_put (EditSet.put d.slot.key _) rfl (EditSet.put_cons d.slot.key _) hx with rfl | hx
    · refine ⟨d, ?_, rfl, rfl⟩
      rw [← h.declarations]
      exact Patch.resolve?_mem (Remark.resolve?_of_verdict hverdict)
    · exact h.edits x hx
  · exact h

/-- The edits of a file are in order and do not meet. -/
theorem DrawnFrom.pairwise (h : f.DrawnFrom f₀)
    (hapart : f₀.declarations.Pairwise fun d e => d.slot.Before e.slot) :
    f.tree.edits.ordered.Pairwise fun a b => a.stop ≤ b.start := by
  have hslot : ∀ a ∈ f.tree.edits.ordered, ∃ d ∈ f₀.declarations,
      a.start = d.slot.start ∧ a.stop = d.slot.stop := by
    intro a ha
    obtain ⟨x, hx, rfl⟩ := List.mem_map.mp ((List.mergeSort_perm _ _).mem_iff.mp ha)
    exact h.edits x hx
  refine List.Pairwise.imp_of_mem (fun {a b} ha hb ⟨hle, hne⟩ => ?_)
    ((EditSet.pairwise_start _).and (List.pairwise_map.mp h.keyed.nodup_start))
  obtain ⟨d, hd, hstart, hstop⟩ := hslot a ha
  obtain ⟨e, he, hstart', -⟩ := hslot b hb
  have hends := stop_le_of_start_lt hapart hd he (by omega)
  omega

/-- **No edit is dropped.** -/
theorem DrawnFrom.kept (h : f.DrawnFrom f₀)
    (hapart : f₀.declarations.Pairwise fun d e => d.slot.Before e.slot) :
    keptFrom 0 f.tree.edits.ordered = f.tree.edits.ordered := by
  refine keptFrom_eq_self (h.pairwise hapart) fun e he => ?_
  obtain ⟨x, hx, rfl⟩ := List.mem_map.mp ((List.mergeSort_perm _ _).mem_iff.mp he)
  obtain ⟨d, -, hstart, -⟩ := h.edits x hx
  omega

/-- **The text of an edit that waits** is in the file when its edits are made. -/
theorem DrawnFrom.infix_render (h : f.DrawnFrom f₀)
    (hapart : f₀.declarations.Pairwise fun d e => d.slot.Before e.slot) {key : String} {e : Edit}
    (hpending : f.tree.edits.pending? key = some e) : e.text <:+: f.tree.render := by
  refine Bytes.infix_applyEdits f.tree.code ?_
  rw [h.kept hapart]
  have hmem : (key, e) ∈ f.tree.edits.entries := (find?_eq_some_iff h.keyed.nodup).mp hpending
  exact (List.mergeSort_perm _ _).mem_iff.mpr (List.mem_map.mpr ⟨_, hmem, rfl⟩)

end PatchFile

namespace Patch

variable {p : Patch} {c : Remark} {calls rest : List Remark} {file key : String} {f f₀ : PatchFile}
  {e : Edit}

/-! ### Comments -/

/-- A file that is read is of the language of its name, declares what this language finds in its tree, and
    nothing is queued for it. -/
theorem declared_load (p : Patch) (disk : FileTree) (file : String) :
    Returns (p.load disk file) fun f => p.languages.forFile? file = some f.language ∧
      f.language.declarations f.tree = .ok f.declarations ∧
      f = { language := f.language, tree := f.tree, declarations := f.declarations } := by
  unfold load
  split
  · exact .error _ _
  · rename_i l hl
    refine (Returns.of_any (p.folder.read disk file)).bind fun code _ => ?_
    refine (Returns.of_any _).bind fun tree _ => ?_
    exact (Returns.self (l.declarations tree)).bind fun ds hds => .pure ⟨hl, hds, rfl⟩

/-- A file of the patch is drawn from another one, or it is when one of some comments opens it. -/
structure Ready (p : Patch) (file : String) (f₀ : PatchFile) (calls : List Remark) : Prop where
  opens : ∀ c ∈ calls, c.file = file → ∃ f, p.openFile c.disk file = .ok f ∧ f.DrawnFrom f₀
  drawn : ∀ f, p.file? file = some f → f.DrawnFrom f₀

/-- A new patch is ready for a file that all comments on it read the same way. -/
theorem ready_fresh (hnew : p.files = []) (hload : ∀ c ∈ calls, c.file = file → p.load c.disk file = .ok f₀)
    (hclean : f₀.tree.edits.entries = []) : p.Ready file f₀ calls where
  opens c hc hfile := by
    refine ⟨f₀, ?_, PatchFile.drawnFrom_self hclean⟩
    rw [openFile, file?, hnew]
    exact hload c hc hfile
  drawn f hf := by
    rw [file?, hnew] at hf
    cases hf

/-- A file that is in the patch is opened as it is. -/
theorem openFile_of_file? (h : p.file? file = some f) (disk : FileTree) :
    p.openFile disk file = .ok f := by
  simp [openFile, h]

theorem Ready.remark (h : p.Ready file f₀ (c :: rest)) : (p.remark c).2.Ready file f₀ rest := by
  by_cases hfile : c.file = file
  · obtain ⟨f, hopen, hdrawn⟩ := h.opens c List.mem_cons_self hfile
    have hafter : (p.remark c).2.file? file = some (c.heed p.override f) := by
      rw [file?_remark, if_pos hfile, hfile, hopen]
      rfl
    refine ⟨fun d _ _ => ⟨_, openFile_of_file? hafter d.disk, hdrawn.heed c p.override⟩,
      fun g hg => ?_⟩
    rw [hafter] at hg
    cases hg
    exact hdrawn.heed c p.override
  · have hsame : (p.remark c).2.file? file = p.file? file := by rw [file?_remark, if_neg hfile]
    refine ⟨fun d hd hd' => ?_, fun g hg => h.drawn g (hsame ▸ hg)⟩
    rw [openFile, hsame, load_remark]
    exact h.opens d (List.mem_cons_of_mem c hd) hd'

theorem Ready.after (h : p.Ready file f₀ (calls ++ rest)) : (p.after calls).Ready file f₀ rest := by
  induction calls generalizing p with
  | nil => exact h
  | cons c calls ih => exact ih h.remark

/-- After all the comments the file is drawn from the other one, if it is in the patch. -/
theorem Ready.done (h : p.Ready file f₀ calls) : (p.after calls).Ready file f₀ [] := by
  have hall : p.Ready file f₀ (calls ++ []) := by rwa [List.append_nil]
  exact hall.after

/-- A file stays in the patch. -/
theorem file?_after_isSome (h : (p.file? file).isSome = true) (calls : List Remark) :
    ((p.after calls).file? file).isSome = true := by
  induction calls generalizing p with
  | nil => exact h
  | cons c rest ih =>
    refine ih ?_
    rw [file?_remark]
    split
    · rename_i hfile
      obtain ⟨f, hf⟩ := Option.isSome_iff_exists.mp h
      rw [hfile, openFile_of_file? hf]
      rfl
    · exact h

/-- **What waits for a slot stays**, until another text is accepted for it. -/
theorem pending?_after (hfile : p.file? file = some f)
    (hpending : f.tree.edits.pending? key = some e) (calls : List Remark) :
    (∃ f', (p.after calls).file? file = some f' ∧ f'.tree.edits.pending? key = some e) ∨
      ∃ c ∈ p.accepted calls, c.file = file ∧ ∃ d, resolve? f.declarations c.identifier = some d ∧
        d.slot.key = key := by
  -- induction on the calls: after the first one the file is another, but its declarations are the same
  induction calls generalizing p f with
  | nil => exact .inl ⟨f, hfile, hpending⟩
  | cons c rest ih =>
    rw [accepted_cons]
    have hlater {f₁ : PatchFile} (hfile₁ : (p.remark c).2.file? file = some f₁)
        (hpending₁ : f₁.tree.edits.pending? key = some e) (hsame : f₁.declarations = f.declarations) :
        (∃ f', (p.after (c :: rest)).file? file = some f' ∧ f'.tree.edits.pending? key = some e) ∨
          ∃ d ∈ p.accepted [c] ++ (p.remark c).2.accepted rest, d.file = file ∧
            ∃ a, resolve? f.declarations d.identifier = some a ∧ a.slot.key = key := by
      refine (ih hfile₁ hpending₁).imp id fun ⟨d, hd, hrest⟩ => ?_
      rw [hsame] at hrest
      exact ⟨d, List.mem_append_right _ hd, hrest⟩
    by_cases hc : c.file = file
    · have hopen : p.openFile c.disk c.file = .ok f := by rw [hc, openFile_of_file? hfile]
      have hafter : (p.remark c).2.file? file = some (c.heed p.override f) := by
        rw [file?_remark, if_pos hc, hopen]
        rfl
      cases hverdict : c.verdict p.override f with
      | error refusal =>
        have hsame : c.heed p.override f = f := by simp only [Remark.heed, hverdict]
        exact hlater (hafter.trans (congrArg some hsame)) hpending rfl
      | ok d =>
        have hset : c.heed p.override f = f.setDoc d.slot c.identifier c.text := by
          simp only [Remark.heed, hverdict]
        -- a call on the same slot writes this very key, so it is the one the edit came from
        by_cases hkey : d.slot.key = key
        · have hok : (p.remark c).1 = .ok () := by rw [remark_of_open hopen, hverdict]; rfl
          refine .inr ⟨c, ?_, hc, d, Remark.resolve?_of_verdict hverdict, hkey⟩
          rw [accepted_of_ok hok]
          exact List.mem_append_left _ List.mem_cons_self
        · refine hlater (hafter.trans (congrArg some hset)) ?_ rfl
          rw [PatchFile.pending?_setDoc, if_neg hkey]
          exact hpending
    -- a call on another file says nothing about this one's edits
    · exact hlater (by rw [file?_remark, if_neg hc, hfile]) hpending rfl

/-- A comment that is accepted has an edit wait for the slot of its symbol. -/
theorem pending?_of_accepted (h : (p.remark c).1 = .ok ()) : ∃ f d,
    p.openFile c.disk c.file = .ok f ∧ resolve? f.declarations c.identifier = some d ∧
      (p.remark c).2.file? c.file = some (f.setDoc d.slot c.identifier c.text) := by
  rw [remark_fst] at h
  cases hopen : p.openFile c.disk c.file with
  | error e => rw [hopen] at h; cases h
  | ok f =>
    rw [hopen] at h
    cases hverdict : c.verdict p.override f with
    | error e =>
      have hrefused : (c.verdict p.override f).map (fun _ => ()) = .ok () := h
      rw [hverdict] at hrefused
      cases hrefused
    | ok d =>
      refine ⟨f, d, rfl, Remark.resolve?_of_verdict hverdict, ?_⟩
      rw [file?_remark, if_pos rfl, hopen]
      simp [Except.toOption, Remark.heed, hverdict]

/-- A file that a comment is on is in the patch afterwards, drawn from the one that it was ready for. -/
theorem Ready.file? (h : p.Ready file f₀ calls) (hfile : file ∈ calls.map (·.file)) :
    ∃ f, (p.after calls).file? file = some f ∧ f.DrawnFrom f₀ := by
  obtain ⟨c, hc, rfl⟩ := List.mem_map.mp hfile
  obtain ⟨earlier, later, rfl⟩ := List.append_of_mem hc
  have hthen : (p.after earlier).Ready c.file f₀ (c :: later) := h.after
  obtain ⟨f, hopen, -⟩ := hthen.opens c List.mem_cons_self rfl
  have hthere : (((p.after earlier).remark c).2.file? c.file).isSome = true := by
    rw [file?_remark, if_pos rfl, hopen]
    rfl
  have hafter : p.after (earlier ++ c :: later) = ((p.after earlier).remark c).2.after later :=
    after_append p earlier (c :: later)
  rw [hafter]
  obtain ⟨g, hg⟩ := Option.isSome_iff_exists.mp (file?_after_isSome hthere later)
  exact ⟨g, hg, hthen.remark.done.drawn g hg⟩

/-- The text of an accepted comment can be read in a file as it is written for its declaration, or a later
    comment on this declaration took its place.  The latter takes leave to override, or a blank text. -/
def Written (p : Patch) (f₀ : PatchFile) (c : Remark) (later : List Remark) (code : Bytes) : Prop :=
  ∃ d, resolve? f₀.declarations c.identifier = some d ∧
    (f₀.language.renderDoc d.slot c.text <:+: code ∨
      (p.override = true ∨ isBlankText c.text = true) ∧
        ∃ c' ∈ (p.remark c).2.accepted later, c'.file = c.file ∧
          resolve? f₀.declarations c'.identifier = some d)

/-- **A text that was accepted can be read in its file**, unless a later one took its place. -/
theorem Ready.written {later : List Remark} (h : p.Ready c.file f₀ (c :: later))
    (hapart : f₀.declarations.Pairwise fun d e => d.slot.Before e.slot)
    (haccepted : (p.remark c).1 = .ok ()) (hafter : (p.after (c :: later)).file? c.file = some f) :
    p.Written f₀ c later f.tree.render := by
  obtain ⟨g, d, hopen, hd, hset⟩ := pending?_of_accepted haccepted
  obtain ⟨g', hopen', hdrawn⟩ := h.opens c List.mem_cons_self rfl
  obtain rfl : g = g' := by rw [hopen] at hopen'; cases hopen'; rfl
  rw [hdrawn.declarations] at hd
  refine ⟨d, hd, ?_⟩
  -- an edit that waits for the slot until the end is made
  have hmade {f' : PatchFile} {key : String} {e : Edit}
      (hf' : (p.after (c :: later)).file? c.file = some f')
      (hpending : f'.tree.edits.pending? key = some e) : e.text <:+: f.tree.render := by
    obtain rfl : f' = f := by
      rw [hf'] at hafter
      exact Option.some.inj hafter
    exact (h.done.drawn f' hafter).infix_render hapart hpending
  have hset_pending : (g.setDoc d.slot c.identifier c.text).tree.edits.pending? d.slot.key
      = some ⟨d.slot.start, d.slot.stop, f₀.language.renderDoc d.slot c.text⟩ := by
    rw [PatchFile.pending?_setDoc, if_pos rfl, hdrawn.language]
  by_cases hleave : p.override = true ∨ isBlankText c.text = true
  · rcases pending?_after hset hset_pending later with
      ⟨f', hf', hpending⟩ | ⟨c', hc', hfile, d', hd', hkey⟩
    · exact .inl (hmade hf' hpending)
    · have hsame : (g.setDoc d.slot c.identifier c.text).declarations = f₀.declarations :=
        hdrawn.declarations
      rw [hsame] at hd'
      obtain rfl : d' = d := eq_of_start_eq hapart (resolve?_mem hd') (resolve?_mem hd)
        (DocSlot.key_inj.mp hkey)
      exact .inr ⟨hleave, c', hc', hfile, hd'⟩
  · -- without leave to override the slot stays settled
    rw [not_or, Bool.not_eq_true, Bool.not_eq_true] at hleave
    have hsettled : (g.setDoc d.slot c.identifier c.text).Settled d.slot.key _ :=
      PatchFile.settled_setDoc hleave.2
    have hoverride : (p.remark c).2.override = false := by rw [override_remark, hleave.1]
    obtain ⟨f', hf', hsettled', -⟩ := settled_after hoverride hset hsettled later
    left
    rw [← hdrawn.language]
    exact hmade hf' hsettled'.edit

end Patch

end Docsmith
