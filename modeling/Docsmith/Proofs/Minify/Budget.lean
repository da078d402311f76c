import Docsmith.Proofs.Language.Failures
import Docsmith.Proofs.Minify.Stages

namespace Docsmith

open Text

/-!
# What is counted is what is sent

A minifier counts the tokens of a preamble and some code; a service is sent a prompt that is put
together elsewhere.  Both are the same text, so that a context that is built keeps within the
budget, and its code is that of the first stage that does.

* `Language.firstFit`: the first stage of a source that fits, found step by step.
* `Language.verdict`: the stage after some number of steps, if it fits.
* `Language.firstFit_eq_iff`: the search ends with the first verdict that is not to go on.
* `Minifier.minify_settles`: minifying is this search.
* `Generator.stageContext`: the context of a symbol after some number of steps.
* `Generator.context_spec`: which of them is built when nothing was built before.
* `Generator.MayMinify`: the language of a symbol may be minified, so that there is something to try.
* `Generator.prompt_keeps_budget`: which of them is built in any case, and when there is none.
* `Generator.context_of_uncounted`, `Generator.unminified_prompt_exceeds`: a language that is not minified is sent
  whole, whatever the budget is.
-/

/-! ### The first stage that fits -/

namespace Language

variable {l : Language} {fits : Bytes → Except Failure Bool} {steps rest : List MinifyStep}
  {step : MinifyStep} {code out : Bytes} {f : Failure}

theorem shrinkAll_cons (h : l.shrink code step = .ok out) :
    l.shrinkAll (step :: rest) code = l.shrinkAll rest out := by
  rw [shrinkAll, List.foldlM_cons, h]
  rfl

theorem shrinkAll_cons_error (h : l.shrink code step = .error f) :
    l.shrinkAll (step :: rest) code = .error f := by
  rw [shrinkAll, List.foldlM_cons, h]
  rfl

/-- The first stage of a source that fits: the source itself, or else the first that fits of what
    the next step makes of it. -/
def firstFit (l : Language) (fits : Bytes → Except Failure Bool) (steps : List MinifyStep)
    (code : Bytes) : Except Failure (Option Bytes) :=
  match fits code with
  | .error f => .error f
  | .ok true => .ok (some code)
  | .ok false =>
    match steps with
    | [] => .ok none
    | step :: rest =>
      match l.shrink code step with
      | .error f => .error f
      | .ok out => l.firstFit fits rest out

theorem firstFit_of_error (h : fits code = .error f) : l.firstFit fits steps code = .error f := by
  unfold firstFit
  rw [h]

theorem firstFit_of_fits (h : fits code = .ok true) :
    l.firstFit fits steps code = .ok (some code) := by
  unfold firstFit
  rw [h]

/-- The stage after some number of steps if it fits, and none if it does not. -/
def verdict (l : Language) (fits : Bytes → Except Failure Bool) (steps : List MinifyStep)
    (code : Bytes) (i : Nat) : Except Failure (Option Bytes) :=
  match l.shrinkAll (steps.take i) code with
  | .error f => .error f
  | .ok out => (fits out).map fun fit => if fit then some out else none

/-- After no step the source itself is judged. -/
theorem verdict_zero (l : Language) (fits : Bytes → Except Failure Bool)
    (steps : List MinifyStep) (code : Bytes) :
    l.verdict fits steps code 0 = (fits code).map fun fit => if fit then some code else none := rfl

/-- What comes after the first step is judged like the output of that step. -/
theorem verdict_succ (h : l.shrink code step = .ok out) (i : Nat) :
    l.verdict fits (step :: rest) code (i + 1) = l.verdict fits rest out i := by
  unfold verdict
  rw [List.take_succ_cons, shrinkAll_cons h]

theorem verdict_succ_error (h : l.shrink code step = .error f) (i : Nat) :
    l.verdict fits (step :: rest) code (i + 1) = .error f := by
  unfold verdict
  rw [List.take_succ_cons, shrinkAll_cons_error h]

/-- There are three verdicts on an output. -/
theorem verdict_of_output {i : Nat} (h : l.shrinkAll (steps.take i) code = .ok out) :
    l.verdict fits steps code i = (fits out).map fun fit => if fit then some out else none := by
  unfold verdict
  rw [h]

theorem verdict_eq_some {i : Nat} : l.verdict fits steps code i = .ok (some out) ↔
    l.shrinkAll (steps.take i) code = .ok out ∧ fits out = .ok true := by
  -- a step that fails says nothing about the budget, so both sides refuse
  cases hout : l.shrinkAll (steps.take i) code with
  | error e => simp [verdict, hout]
  | ok o =>
    rw [verdict_of_output hout, Except.ok.injEq]
    constructor
    · intro h
      -- counting may fail as well, and then nothing is known of the output
      cases hfits : fits o with
      | error e => simp [hfits, Except.map] at h
      | ok fit =>
        cases fit with
        | false => simp [hfits, Except.map] at h
        | true =>
          have hsame : o = out := by simpa [hfits, Except.map] using h
          exact ⟨hsame, hsame ▸ hfits⟩
    · rintro ⟨rfl, hfits⟩
      simp [hfits, Except.map]

theorem verdict_eq_none {i : Nat} : l.verdict fits steps code i = .ok none ↔
    ∃ out, l.shrinkAll (steps.take i) code = .ok out ∧ fits out = .ok false := by
  cases hout : l.shrinkAll (steps.take i) code with
  | error e => simp [verdict, hout]
  | ok o =>
    rw [verdict_of_output hout]
    cases hfits : fits o with
    | error e => simp [Except.map, hfits]
    | ok fit => cases fit <;> simp [Except.map, hfits]

theorem verdict_eq_error {i : Nat} : l.verdict fits steps code i = .error f ↔
    l.shrinkAll (steps.take i) code = .error f ∨
      ∃ out, l.shrinkAll (steps.take i) code = .ok out ∧ fits out = .error f := by
  cases hout : l.shrinkAll (steps.take i) code with
  | error e => simp [verdict, hout]
  | ok o =>
    rw [verdict_of_output hout]
    cases hfits : fits o with
    | error e => simp [Except.map, hfits]
    | ok fit => cases fit <;> simp [Except.map, hfits]

/-- The search ends with some verdict, the first that is not to go on or that after all steps. -/
theorem firstFit_spec (l : Language) (fits : Bytes → Except Failure Bool)
    (steps : List MinifyStep) (code : Bytes) :
    ∃ i ≤ steps.length, (∀ j < i, l.verdict fits steps code j = .ok none) ∧
      l.verdict fits steps code i = l.firstFit fits steps code ∧
      (l.firstFit fits steps code = .ok none → i = steps.length) := by
  induction steps generalizing code with
  | nil =>
    refine ⟨0, Nat.le_refl _, fun j hj => absurd hj (Nat.not_lt_zero j), ?_, fun _ => rfl⟩
    rw [verdict_zero]
    unfold firstFit
    cases fits code with
    | error f => rfl
    | ok fit => cases fit <;> rfl
  | cons step rest ih =>
    have hzero := verdict_zero l fits (step :: rest) code
    -- the source itself may end the search
    have hends : ∀ x, l.firstFit fits (step :: rest) code = x → x ≠ .ok none →
        l.verdict fits (step :: rest) code 0 = x → ∃ i ≤ (step :: rest).length,
          (∀ j < i, l.verdict fits (step :: rest) code j = .ok none) ∧
          l.verdict fits (step :: rest) code i = l.firstFit fits (step :: rest) code ∧
          (l.firstFit fits (step :: rest) code = .ok none → i = (step :: rest).length) := by
      intro x hx hne hverdict
      refine ⟨0, Nat.zero_le _, ?_, hverdict.trans hx.symm, ?_⟩
      · exact fun j hj => absurd hj (Nat.not_lt_zero j)
      · exact fun hnone => absurd (hx.symm.trans hnone) hne
    cases hfits : fits code with
    | error f =>
      exact hends (.error f) (firstFit_of_error hfits) (by simp)
        (by simp [hzero, hfits, Except.map])
    | ok fit =>
      cases fit with
      | true =>
        exact hends (.ok (some code)) (firstFit_of_fits hfits) (by simp)
          (by simp [hzero, hfits, Except.map])
      | false =>
        have hgo : l.verdict fits (step :: rest) code 0 = .ok none := by
          simp [hzero, hfits, Except.map]
        cases hstep : l.shrink code step with
        | error f =>
          have hfirst : l.firstFit fits (step :: rest) code = .error f := by
            simp [firstFit, hfits, hstep]
          rw [hfirst]
          refine ⟨1, by simp, ?_, verdict_succ_error hstep 0, fun hnone => by cases hnone⟩
          intro j hj
          rw [show j = 0 by omega]
          exact hgo
        | ok out =>
          have hfirst : l.firstFit fits (step :: rest) code = l.firstFit fits rest out := by
            rw [firstFit, hfits]
            simp [hstep]
          -- the search goes on with the output, one step later
          obtain ⟨i, hi, hbefore, hverdict, hlast⟩ := ih out
          rw [hfirst]
          refine ⟨i + 1, by simpa using hi, ?_, (verdict_succ hstep i).trans hverdict, ?_⟩
          · intro j hj
            cases j with
            | zero => exact hgo
            | succ j => exact (verdict_succ hstep j).trans (hbefore j (by omega))
          · intro hnone
            simpa using hlast hnone

/-- **The search ends with the first verdict that is not to go on**, or with that after all
    steps. -/
theorem firstFit_eq_iff {x : Except Failure (Option Bytes)} :
    l.firstFit fits steps code = x ↔ ∃ i ≤ steps.length,
      (∀ j < i, l.verdict fits steps code j = .ok none) ∧ l.verdict fits steps code i = x ∧
      (x = .ok none → i = steps.length) := by
  obtain ⟨i, hi, hbefore, hverdict, hlast⟩ := firstFit_spec l fits steps code
  constructor
  · rintro rfl
    exact ⟨i, hi, hbefore, hverdict, hlast⟩
  · rintro ⟨i', hi', hbefore', hverdict', hlast'⟩
    -- of two such numbers of steps neither is below the other
    rcases Nat.lt_trichotomy i i' with hlt | rfl | hlt
    · have hnone := hverdict.symm.trans (hbefore' i hlt)
      have := hlast hnone
      omega
    · exact hverdict.symm.trans hverdict'
    · have hnone := hverdict'.symm.trans (hbefore i' hlt)
      have := hlast' hnone
      omega

end Language

/-! ### Minification -/

namespace Minifier

variable {m : Minifier} {code : Bytes} {preamble : String}

/-- The code fits behind a preamble. -/
def fits (m : Minifier) (preamble : String) (code : Bytes) : Except Failure Bool :=
  (m.count code preamble).map fun tokens : Nat => decide ((tokens : Int) ≤ m.maxTokens)

theorem fits_of_error {f : Failure} (h : m.count code preamble = .error f) :
    m.fits preamble code = .error f := by
  simp [fits, h, Except.map]

theorem fits_of_count {tokens : Nat} (h : m.count code preamble = .ok tokens) :
    m.fits preamble code = .ok (decide ((tokens : Int) ≤ m.maxTokens)) := by
  simp [fits, h, Except.map]

/-- What a result of minification says of the search for an output that fits. -/
def Settles (m : Minifier) (x : Except Failure MinifyResult) : Except Failure (Option Bytes) → Prop
  | .ok (some out) => ∃ r, x = .ok r ∧ r.code = out
  | .ok none => ∃ tokens r, x = .error (.tooLarge m.maxTokens tokens r)
  | .error f => x = .error f

/-- The output of the next step, when those of all steps before are known. -/
theorem stageAt_next {step : MinifyStep} {outputs : List Bytes}
    (hstep : m.steps[outputs.length]? = some step) :
    m.stageAt code outputs.length outputs
      = match m.language.shrink (outputs.getLast?.getD code) step with
        | .ok out => (.ok out, outputs ++ [out])
        | .error f => (.error f, outputs) := by
  show m.stageAt code (.ofNat outputs.length) outputs = _
  have hone : outputs.length + 1 - outputs.length = 1 := by omega
  simp only [stageAt, hone, extend, next_eq_shrink hstep]
  cases m.language.shrink (outputs.getLast?.getD code) step with
  | error f => rfl
  | ok out => simp

/-- Taking a source through the steps that are left is the search among them. -/
theorem tryFrom_settles (hforce : m.force = false) (rest : List MinifyStep)
    (tried : List Minification) (last : Minification) (outputs : List Bytes)
    (hrest : rest = m.steps.drop outputs.length) (hlength : tried.length = outputs.length)
    (hover : m.fits preamble (outputs.getLast?.getD code) = .ok false) :
    m.Settles (m.tryFrom code preamble rest tried last outputs).1
      (m.language.firstFit (m.fits preamble) rest (outputs.getLast?.getD code)) := by
  -- the invariant: the outputs so far are those of the steps that are no longer in `rest`, and the
  -- last of them is over the budget
  induction rest generalizing tried last outputs with
  | nil =>
    rw [Language.firstFit, hover]
    refine ⟨last.tokens, { chosen := last, steps := tried }, ?_⟩
    simp [tryFrom, exhausted, hforce]
  | cons step rest ih =>
    have hstep : m.steps[outputs.length]? = some step := by
      rw [← List.head?_drop, ← hrest]
      rfl
    have htail : rest = m.steps.drop (outputs.length + 1) := by
      rw [← List.tail_drop, ← hrest]
      rfl
    rw [Language.firstFit, hover]
    simp only [tryFrom, hlength, stageAt_next hstep]
    cases hshrink : m.language.shrink (outputs.getLast?.getD code) step with
    | error f => rfl
    | ok out =>
      have hlast : (outputs ++ [out]).getLast?.getD code = out := by simp
      dsimp only
      cases hcount : m.count out preamble with
      | error f =>
        rw [Language.firstFit_of_error (fits_of_error hcount)]
        rfl
      | ok tokens =>
        have hfits := fits_of_count hcount
        dsimp only
        by_cases hbudget : (tokens : Int) ≤ m.maxTokens
        · rw [decide_eq_true hbudget] at hfits
          rw [Language.firstFit_of_fits hfits, if_pos hbudget]
          exact ⟨_, rfl, rfl⟩
        · rw [decide_eq_false hbudget] at hfits
          rw [if_neg hbudget]
          -- the search goes on behind this output
          have hnext := ih (tried ++ [⟨code, out, tokens, some step⟩])
            ⟨code, out, tokens, some step⟩ (outputs ++ [out])
            (by simpa using htail) (by simp [hlength]) (by rw [hlast]; exact hfits)
          rw [hlast] at hnext
          exact hnext

/-- **Minifying a source is the search for its first stage that fits.** -/
theorem minify_settles (hforce : m.force = false) (hsteps : m.steps ≠ []) (hcode : code ≠ []) :
    m.Settles (m.minify [] code preamble).1
      (m.language.firstFit (m.fits preamble) m.steps code) := by
  rw [minify_fst]
  cases hcount : m.count code preamble with
  | error f =>
    -- the whole text was counted first, so a failure there is the verdict of the first attempt
    rw [Language.firstFit_of_error (fits_of_error hcount)]
    rfl
  | ok tokens =>
    have hfits := fits_of_count hcount
    simp only [Except.bind, List.isEmpty_eq_false_iff.mpr hcode,
      List.isEmpty_eq_false_iff.mpr hsteps, Bool.false_or, Bool.or_false, decide_eq_true_eq]
    -- within the budget nothing is minified; above it the steps are tried in order
    by_cases hbudget : (tokens : Int) ≤ m.maxTokens
    · rw [decide_eq_true hbudget] at hfits
      rw [Language.firstFit_of_fits hfits, if_pos hbudget]
      exact ⟨_, rfl, rfl⟩
    · rw [decide_eq_false hbudget] at hfits
      rw [if_neg hbudget]
      exact tryFrom_settles hforce m.steps [] _ [] rfl rfl hfits

end Minifier

/-! ### Contexts -/

/-- The failure says that no step brings a source within the budget. -/
def Failure.SaysTooLarge (f : Failure) : Prop :=
  ∃ maxTokens tokens result, f = .tooLarge maxTokens tokens result

/-- The steps of the language leave it to others to say that a source is too large. -/
def Language.NeverTooLarge (l : Language) : Prop :=
  ∀ code step, Fails (l.shrink code step) fun f => ¬ f.SaysTooLarge

namespace Language

theorem NeverTooLarge.shrinkAll {l : Language} (h : l.NeverTooLarge) (steps : List MinifyStep)
    (code : Bytes) : Fails (l.shrinkAll steps code) fun f => ¬ f.SaysTooLarge :=
  .foldlM steps h code

/-- What is wrong in a source is not its size. -/
theorem not_tooLarge_of_inSource {f : Failure} (h : f.InSource) : ¬ f.SaysTooLarge := by
  rintro ⟨n, tokens, r, rfl⟩
  exact h

/-- A language whose sources are read and stripped with failures in the source only. -/
theorem neverTooLarge_of_inSource {l : Language} (hparse : ∀ code, FailsInSource (l.parse code))
    (hstrip : ∀ t step, FailsInSource (l.strip t step)) : l.NeverTooLarge := by
  intro code step f hf
  have hshrink : FailsInSource (l.shrink code step) :=
    (hparse code).bind fun t => (hstrip t step).bind fun _ => .pure _
  exact not_tooLarge_of_inSource (hshrink f hf)

theorem go_neverTooLarge : Language.go.NeverTooLarge := by
  refine neverTooLarge_of_inSource ?_ ?_
  · rw [go_parse]
    exact Go.parseTree_fails
  · rw [go_strip]
    exact Go.strip_fails

theorem python_neverTooLarge : Language.python.NeverTooLarge := by
  refine neverTooLarge_of_inSource ?_ ?_
  · rw [python_parse]
    exact Python.parseTree_fails
  · rw [python_strip]
    exact Python.strip_fails

end Language

/-- The prompt of some code is the prompt without code, and then the code. -/
theorem Context.prompt_eq (input : Input) (instructions code : String) :
    Context.prompt ⟨input, instructions, code⟩
      = Context.prompt ⟨input, instructions, ""⟩ ++ code := by
  simp only [Context.prompt, String.append_assoc, String.empty_append]

namespace Generator

variable {g : Generator} {tokenizer : Tokenizer} {input : Input} {l : Language}

/-- The context of a symbol with its source after the first `i` steps. -/
def stageContext (g : Generator) (input : Input) (i : Nat) : Except Failure Context := do
  let l ← g.languages.get input.language
  let code ← l.shrinkAll (g.steps.take i) input.code
  contextOf input (l.instructions input.identifier input.display input.file) code

/-- There is a context after the first `i` steps, and its prompt is over the budget. -/
def Exceeds (g : Generator) (tokenizer : Tokenizer) (input : Input) (i : Nat) : Prop :=
  ∃ c, g.stageContext input i = .ok c ∧ g.maxTokens < tokenizer c.prompt

instance (g : Generator) (tokenizer : Tokenizer) (input : Input) (i : Nat) :
    Decidable (g.Exceeds tokenizer input i) :=
  match h : g.stageContext input i with
  | .ok c =>
    decidable_of_iff (g.maxTokens < tokenizer c.prompt) (by simp [Exceeds, h])
  | .error f => isFalse (by simp [Exceeds, h])

/-- What is remembered after the contexts of some symbols were built. -/
def cachesAfter (g : Generator) (inputs : List Input) : StageCaches :=
  inputs.foldl (fun caches i => (g.context caches i).caches) []

/-- Contexts that were built before do not show in a context. -/
theorem context_cachesAfter (hnamed : g.languages.Named) (earlier : List Input) (input : Input) :
    (g.context (g.cachesAfter earlier) input).result = (g.context [] input).result := by
  -- every context leaves the caches sound, and sound caches do not show
  have hsound : ∀ caches : StageCaches, caches.Sound g →
      (earlier.foldl (fun caches i => (g.context caches i).caches) caches).Sound g := by
    induction earlier with
    | nil => exact fun caches h => h
    | cons i rest ih => exact fun caches h => ih _ (context_of_sound hnamed h i).2
  exact (context_of_sound hnamed (hsound [] (StageCaches.sound_nil g)) input).1

/-- What is asked about a symbol in a language. -/
def instructionsFor (l : Language) (input : Input) : String :=
  l.instructions input.identifier input.display input.file

/-- The text before the code in a request about a symbol. -/
def preambleOf (l : Language) (input : Input) : String :=
  Context.prompt ⟨input, instructionsFor l input, ""⟩

/-- **The minifier counts the prompt that is sent.** -/
theorem fits_eq (g : Generator) (l : Language) (tokenizer : Tokenizer) (input : Input)
    (out : Bytes) :
    (g.minifier l tokenizer).fits (preambleOf l input) out
      = (contextOf input (instructionsFor l input) out).map fun c =>
        decide ((tokenizer c.prompt : Int) ≤ g.maxTokens) := by
  simp only [Minifier.fits, Minifier.count, contextOf, preambleOf]
  cases decode out with
  | error fault => rfl
  | ok text =>
    simp only [Except.map, minifier]
    rw [Context.prompt_eq input _ text]
    rfl

/-- The source of a symbol may be minified: its language, if it is known, lets it be. -/
def MayMinify (g : Generator) (input : Input) : Prop :=
  ∀ l, g.languages.get input.language = .ok l → l.minifierEnabled = true

/-- Then its requests are counted if there is a tokenizer. -/
theorem MayMinify.tokenizerFor_eq (h : g.MayMinify input)
    (hl : g.languages.get input.language = .ok l) : g.tokenizerFor l = g.tokenizer :=
  if_pos (h l hl)

/-- The context of a symbol is that of the code which minification gives. -/
theorem context_eq (hl : g.languages.get input.language = .ok l)
    (htokenizer : g.tokenizerFor l = some tokenizer) :
    (g.context [] input).result
      = ((g.minifier l tokenizer).minify [] input.code (preambleOf l input)).1.bind fun r =>
        contextOf input (instructionsFor l input) r.code := by
  unfold context
  rw [hl]
  dsimp only
  rw [htokenizer]
  dsimp only
  rw [show StageCaches.get [] l.name = [] from rfl,
    show Context.prompt ⟨input, l.instructions input.identifier input.display input.file, ""⟩
      = preambleOf l input from rfl]
  obtain ⟨minified, cache⟩ := (g.minifier l tokenizer).minify [] input.code (preambleOf l input)
  cases minified <;> rfl

theorem stageContext_eq (hl : g.languages.get input.language = .ok l) (i : Nat) :
    g.stageContext input i = (l.shrinkAll (g.steps.take i) input.code).bind
      (contextOf input (instructionsFor l input)) := by
  unfold stageContext
  rw [hl]
  rfl

/-- The verdict on the source of a symbol after some number of steps. -/
def verdictOn (g : Generator) (l : Language) (tokenizer : Tokenizer) (input : Input) (i : Nat) :
    Except Failure (Option Bytes) :=
  l.verdict ((g.minifier l tokenizer).fits (preambleOf l input)) g.steps input.code i

variable {i : Nat}

/-- The search goes on after a context that is over the budget. -/
theorem verdictOn_eq_none (hl : g.languages.get input.language = .ok l) :
    g.verdictOn l tokenizer input i = .ok none ↔ g.Exceeds tokenizer input i := by
  unfold verdictOn Exceeds
  rw [Language.verdict_eq_none, stageContext_eq hl]
  cases l.shrinkAll (g.steps.take i) input.code with
  | error f => simp [Except.bind]
  | ok out =>
    simp only [Except.ok.injEq, exists_eq_left', fits_eq, Except.bind]
    cases contextOf input (instructionsFor l input) out <;> simp [Except.map]

/-- The search ends with a context that keeps within the budget. -/
theorem verdictOn_eq_some (hl : g.languages.get input.language = .ok l) {c : Context} :
    (∃ out, g.verdictOn l tokenizer input i = .ok (some out) ∧
        contextOf input (instructionsFor l input) out = .ok c) ↔
      g.stageContext input i = .ok c ∧ tokenizer c.prompt ≤ g.maxTokens := by
  unfold verdictOn
  simp only [Language.verdict_eq_some]
  rw [stageContext_eq hl]
  cases l.shrinkAll (g.steps.take i) input.code with
  -- the prompt is built from the text that was minified, and both may fail
  | error f => simp [Except.bind]
  | ok out =>
    simp only [Except.ok.injEq, and_assoc, exists_eq_left', fits_eq, Except.bind]
    cases contextOf input (instructionsFor l input) out with
    | error f => simp [Except.map]
    | ok c' =>
      simp only [Except.map, Except.ok.injEq, decide_eq_true_eq]
      constructor
      · rintro ⟨hbudget, rfl⟩
        exact ⟨rfl, hbudget⟩
      · rintro ⟨rfl, hbudget⟩
        exact ⟨hbudget, rfl⟩

/-- The search fails where there is no context. -/
theorem verdictOn_eq_error (hl : g.languages.get input.language = .ok l) {f : Failure} :
    g.verdictOn l tokenizer input i = .error f ↔ g.stageContext input i = .error f := by
  unfold verdictOn
  rw [Language.verdict_eq_error, stageContext_eq hl]
  cases l.shrinkAll (g.steps.take i) input.code with
  | error f => simp [Except.bind]
  | ok out =>
    simp only [Except.ok.injEq, exists_eq_left', fits_eq, Except.bind, reduceCtorEq, false_or]
    cases contextOf input (instructionsFor l input) out <;> simp [Except.map]

/-- What is built says of the search for a stage that fits. -/
def Builds (l : Language) (input : Input) (x : Except Failure Context) :
    Except Failure (Option Bytes) → Prop
  | .ok (some out) => x = contextOf input (instructionsFor l input) out
  | .ok none => ∃ f : Failure, f.SaysTooLarge ∧ x = .error f
  | .error f => x = .error f

/-- Code that is no text is not too large. -/
theorem contextOf_error {instructions : String} {out : Bytes} {f : Failure}
    (h : contextOf input instructions out = .error f) : ¬ f.SaysTooLarge := by
  unfold contextOf at h
  split at h
  case h_1 => cases h
  case h_2 =>
    cases h
    rintro ⟨n, tokens, r, hf⟩
    cases hf

section Search

variable (hl : g.languages.get input.language = .ok l)
  (htokenizer : g.tokenizerFor l = some tokenizer)
  (hforce : g.forceMinify = false) (hsteps : g.steps ≠ []) (hcode : input.code ≠ [])

include hl htokenizer hforce hsteps hcode

/-- The context of a symbol is what the search for the first stage that fits comes to. -/
theorem context_builds : Builds l input (g.context [] input).result
    (l.firstFit ((g.minifier l tokenizer).fits (preambleOf l input)) g.steps input.code) := by
  -- the search that the minifier makes decides; only then is its output read as text
  have hsettles : (g.minifier l tokenizer).Settles
      ((g.minifier l tokenizer).minify [] input.code (preambleOf l input)).1
      (l.firstFit ((g.minifier l tokenizer).fits (preambleOf l input)) g.steps input.code) :=
    Minifier.minify_settles hforce hsteps hcode
  rw [context_eq hl htokenizer]
  generalize l.firstFit ((g.minifier l tokenizer).fits (preambleOf l input)) g.steps input.code = x
    at hsettles
  match x, hsettles with
  | .ok (some out), ⟨r, hr, hout⟩ =>
    rw [hr, ← hout]
    rfl
  | .ok none, ⟨tokens, r, hr⟩ =>
    rw [hr]
    exact ⟨_, ⟨_, _, _, rfl⟩, rfl⟩
  | .error f, hr =>
    have hfailed : ((g.minifier l tokenizer).minify [] input.code (preambleOf l input)).1
        = .error f := hr
    rw [hfailed]
    rfl

/-- A context is built in the code of the first stage whose prompt keeps within the budget. -/
theorem context_eq_ok {c : Context} : (g.context [] input).result = .ok c ↔
    ∃ i ≤ g.steps.length, g.stageContext input i = .ok c ∧ tokenizer c.prompt ≤ g.maxTokens ∧
      ∀ j < i, g.Exceeds tokenizer input j := by
  have hbuilds := context_builds hl htokenizer hforce hsteps hcode
  constructor
  · intro hc
    rw [hc] at hbuilds
    -- only a search that ends with an output builds a context
    generalize hx : l.firstFit ((g.minifier l tokenizer).fits (preambleOf l input)) g.steps
      input.code = x at hbuilds
    match x, hbuilds with
    | .ok (some out), hout =>
      obtain ⟨i, hi, hbefore, hverdict, -⟩ := Language.firstFit_eq_iff.mp hx
      obtain ⟨hstage, hbudget⟩ := (verdictOn_eq_some hl).mp ⟨out, hverdict, hout.symm⟩
      exact ⟨i, hi, hstage, hbudget, fun j hj => (verdictOn_eq_none hl).mp (hbefore j hj)⟩
    | .ok none, ⟨f, _, hf⟩ => cases hf
    | .error f, hf => cases hf
  · rintro ⟨i, hi, hstage, hbudget, hbefore⟩
    obtain ⟨out, hverdict, hout⟩ := (verdictOn_eq_some hl).mpr ⟨hstage, hbudget⟩
    have hx := Language.firstFit_eq_iff.mpr ⟨i, hi,
      fun j hj => (verdictOn_eq_none hl).mpr (hbefore j hj), hverdict, fun hnone => by cases hnone⟩
    rw [hx] at hbuilds
    exact Eq.trans hbuilds hout

/-- There is no context since the source is too large, just when every stage is over the budget, or
    a step itself says so before a stage keeps within it. -/
theorem context_tooLarge :
    (∃ f : Failure, f.SaysTooLarge ∧ (g.context [] input).result = .error f) ↔
    (∀ i ≤ g.steps.length, g.Exceeds tokenizer input i) ∨
      ∃ i ≤ g.steps.length, (∀ j < i, g.Exceeds tokenizer input j) ∧
        ∃ f : Failure, f.SaysTooLarge ∧ g.stageContext input i = .error f := by
  have hbuilds := context_builds hl htokenizer hforce hsteps hcode
  constructor
  · rintro ⟨f, hlarge, hf⟩
    rw [hf] at hbuilds
    -- the search has ended without an output, or with a failure that says so itself
    generalize hx : l.firstFit ((g.minifier l tokenizer).fits (preambleOf l input)) g.steps
      input.code = x at hbuilds
    obtain ⟨i, hi, hbefore, hverdict, hlast⟩ := Language.firstFit_eq_iff.mp hx
    match x, hbuilds with
    | .ok (some out), hout => exact absurd hlarge (contextOf_error hout.symm)
    | .ok none, _ =>
      refine .inl fun j hj => (verdictOn_eq_none hl).mp ?_
      rcases Nat.lt_or_eq_of_le hj with hlt | rfl
      · exact hbefore j (by have := hlast rfl; omega)
      · rw [← hlast rfl]
        exact hverdict
    | .error e, he =>
      cases he
      exact .inr ⟨i, hi, fun j hj => (verdictOn_eq_none hl).mp (hbefore j hj), f, hlarge,
        (verdictOn_eq_error hl).mp hverdict⟩
  · rintro (hall | ⟨i, hi, hbefore, f, hlarge, hf⟩)
    · have hx := Language.firstFit_eq_iff.mpr ⟨g.steps.length, Nat.le_refl _,
        fun j hj => (verdictOn_eq_none hl).mpr (hall j (Nat.le_of_lt hj)),
        (verdictOn_eq_none hl).mpr (hall _ (Nat.le_refl _)), fun _ => rfl⟩
      rw [hx] at hbuilds
      exact hbuilds
    · have hx := Language.firstFit_eq_iff.mpr ⟨i, hi,
        fun j hj => (verdictOn_eq_none hl).mpr (hbefore j hj), (verdictOn_eq_error hl).mpr hf,
        fun hnone => by cases hnone⟩
      rw [hx] at hbuilds
      exact ⟨f, hlarge, hbuilds⟩

end Search

/-! ### Who says that a source is too large -/

/-- Without a language there is no stage. -/
theorem stageContext_of_unknown {f : Failure} (h : g.languages.get input.language = .error f)
    (i : Nat) : g.stageContext input i = .error f := by
  unfold stageContext
  rw [h]
  rfl

theorem context_of_unknown {f : Failure} (h : g.languages.get input.language = .error f) :
    (g.context [] input).result = .error f := by
  unfold context
  rw [h]

/-- A language that is not known is not too large. -/
theorem get_error {f : Failure} (h : g.languages.get input.language = .error f) :
    ¬ f.SaysTooLarge := by
  unfold Languages.get at h
  split at h
  case h_1 => cases h
  case h_2 =>
    cases h
    rintro ⟨n, tokens, r, hf⟩
    cases hf

/-- Where no step says that a source is too large, no stage does. -/
theorem stageContext_error (hl : ∀ l, g.languages.get input.language = .ok l → l.NeverTooLarge)
    (i : Nat) : Fails (g.stageContext input i) fun f => ¬ f.SaysTooLarge := by
  cases hget : g.languages.get input.language with
  | error f =>
    rw [stageContext_of_unknown hget]
    exact .error (get_error hget)
  | ok l =>
    rw [stageContext_eq hget]
    refine Fails.bind ((hl l hget).shrinkAll _ _) fun out f hf => ?_
    exact contextOf_error hf

/-- What building a context without others before it comes to, whether the language is known or
    not. -/
theorem context_spec (htokenizer : g.tokenizer = some tokenizer) (hmay : g.MayMinify input)
    (hforce : g.forceMinify = false) (hsteps : g.steps ≠ []) (hcode : input.code ≠ []) :
    (∀ c, (g.context [] input).result = .ok c ↔
      ∃ i ≤ g.steps.length, g.stageContext input i = .ok c ∧ tokenizer c.prompt ≤ g.maxTokens ∧
        ∀ j < i, g.Exceeds tokenizer input j) ∧
    ((∃ f : Failure, f.SaysTooLarge ∧ (g.context [] input).result = .error f) ↔
      (∀ i ≤ g.steps.length, g.Exceeds tokenizer input i) ∨
        ∃ i ≤ g.steps.length, (∀ j < i, g.Exceeds tokenizer input j) ∧
          ∃ f : Failure, f.SaysTooLarge ∧ g.stageContext input i = .error f) := by
  -- an unknown language is refused before any counting, and that refusal is not about size
  cases hget : g.languages.get input.language with
  | ok l =>
    have hfor : g.tokenizerFor l = some tokenizer := (hmay.tokenizerFor_eq hget).trans htokenizer
    exact ⟨fun c => context_eq_ok hget hfor hforce hsteps hcode,
      context_tooLarge hget hfor hforce hsteps hcode⟩
  | error f =>
    have hstage := stageContext_of_unknown hget
    have hspare := get_error hget
    rw [context_of_unknown hget]
    constructor
    -- no context and no refusal about size is possible there, so both equivalences are empty
    · intro c
      simp [hstage]
    · constructor
      · rintro ⟨f', hlarge, hf⟩
        cases hf
        exact absurd hlarge hspare
      · rintro (hall | ⟨i, -, -, f', hlarge, hf⟩)
        · obtain ⟨c, hc, -⟩ := hall 0 (Nat.zero_le _)
          cases (hstage 0).symm.trans hc
        · cases (hstage i).symm.trans hf
          exact absurd hlarge hspare

/-- **What is not counted is sent as it is.**  Without a tokenizer, or in a language that does not
    let its sources be minified, the context of a symbol is that of its source. -/
theorem context_of_uncounted (hl : g.languages.get input.language = .ok l)
    (hfor : g.tokenizerFor l = none) (caches : StageCaches) :
    (g.context caches input).result = g.stageContext input 0 := by
  unfold context
  rw [hl, stageContext_eq hl, List.take_zero]
  dsimp only
  rw [hfor]
  rfl

/-- **What is counted is what is sent.**  Whatever was built before, let a symbol be one whose source
    may be minified.  A context is built just when some stage of the source keeps within the budget
    and there is one to every step before, and then it is that of the first such stage.  The source
    is found too large just when every stage is over the budget, unless a language's own step says
    so; those of the known languages never do, and both let their sources be minified. -/
theorem prompt_keeps_budget (languages : List Language) (g : Generator) (tokenizer : Tokenizer)
    (earlier : List Input) (input : Input) (hlanguages : g.languages = Languages.ofList languages)
    (htokenizer : g.tokenizer = some tokenizer) (hmay : g.MayMinify input)
    (hforce : g.forceMinify = false) (hsteps : g.steps ≠ []) (hcode : input.code ≠ []) :
    let built := (g.context (g.cachesAfter earlier) input).result
    let tooLarge := ∃ f : Failure, f.SaysTooLarge ∧ built = .error f
    (∀ c, built = .ok c ↔ ∃ i ≤ g.steps.length, g.stageContext input i = .ok c ∧
        tokenizer c.prompt ≤ g.maxTokens ∧ ∀ j < i, g.Exceeds tokenizer input j) ∧
      (tooLarge ↔ (∀ i ≤ g.steps.length, g.Exceeds tokenizer input i) ∨
        ∃ i ≤ g.steps.length, (∀ j < i, g.Exceeds tokenizer input j) ∧
          ∃ f : Failure, f.SaysTooLarge ∧ g.stageContext input i = .error f) ∧
      ((∀ l ∈ languages, l.NeverTooLarge) →
        (tooLarge ↔ ∀ i ≤ g.steps.length, g.Exceeds tokenizer input i)) ∧
      ∀ l ∈ [Language.go, Language.python], l.NeverTooLarge ∧ l.minifierEnabled = true := by
  intro built tooLarge
  have hnamed : g.languages.Named := hlanguages ▸ Languages.named_ofList languages
  have hbuilt : built = (g.context [] input).result := context_cachesAfter hnamed earlier input
  obtain ⟨hok, hlarge⟩ := context_spec htokenizer hmay hforce hsteps hcode
  rw [← hbuilt] at hok hlarge
  refine ⟨hok, hlarge, fun hspare => ?_, ?_⟩
  · -- no stage can say that the source is too large but by its tokens
    refine hlarge.trans (or_iff_left ?_)
    rintro ⟨i, -, -, f, hsays, hf⟩
    refine stageContext_error (fun l hget => hspare l ?_) i f hf hsays
    rw [hlanguages] at hget
    exact Languages.mem_of_get_ofList hget
  · rw [List.forall_mem_cons, List.forall_mem_singleton]
    exact ⟨⟨Language.go_neverTooLarge, rfl⟩, Language.python_neverTooLarge, rfl⟩

/-- A function whose body puts the prompt over the budget: the context is that of the source without
    the body, also when it was built before. -/
theorem prompt_keeps_budget_of_a_function :
    let input : Input := ⟨encode "package a\n\nfunc f() { g() }\n", "go", "func:f", "a.go", ""⟩
    let g : Generator := { tokenizer := some String.utf8ByteSize, maxTokens := 640 }
    g.MayMinify input ∧ g.Exceeds String.utf8ByteSize input 0 ∧
      ∃ c, (g.context (g.cachesAfter [input]) input).result = .ok c ∧
        c.code = "package a\n\nfunc f()\n" ∧ c.prompt.utf8ByteSize ≤ g.maxTokens := by
  intro input g
  have hmay : g.MayMinify input := fun l hl => by
    cases hl
    rfl
  have hexceeds : g.Exceeds String.utf8ByteSize input 0 := by decide +kernel
  have hbare : (g.stageContext input 1).toOption.any (fun c => decide
      (c.code = "package a\n\nfunc f()\n" ∧ (c.prompt.utf8ByteSize : Int) ≤ g.maxTokens))
      = true := by
    decide +kernel
  obtain ⟨c, hstage, hfits⟩ := exists_of_any hbare
  obtain ⟨hcode, hbudget⟩ := of_decide_eq_true hfits
  refine ⟨hmay, hexceeds, c, ?_, hcode, hbudget⟩
  refine ((prompt_keeps_budget [.go, .python] g String.utf8ByteSize [input] input rfl rfl hmay rfl
    (by decide) (by decide)).1 c).mpr ⟨1, by decide, hstage, hbudget, ?_⟩
  intro j hj
  rw [show j = 0 by omega]
  exact hexceeds

/-- In a language that does not let its sources be minified a context is built although every stage
    of the source is over the budget; so it is in a known language without a tokenizer. -/
theorem unminified_prompt_exceeds :
    let input : Input := ⟨encode "package a\n\nfunc f() { g() }\n", "go", "func:f", "a.go", ""⟩
    let plain : Language := { Language.go with minifierEnabled := false }
    let g : Generator :=
      { languages := .ofList [plain], tokenizer := some String.utf8ByteSize, maxTokens := 1 }
    let uncounted : Generator := { maxTokens := 1 }
    (∀ i ≤ g.steps.length, g.Exceeds String.utf8ByteSize input i) ∧
      (∃ c, (g.context [] input).result = .ok c ∧ g.maxTokens < c.prompt.utf8ByteSize) ∧
      ∃ c, (uncounted.context [] input).result = .ok c ∧
        uncounted.maxTokens < c.prompt.utf8ByteSize := by
  intro input plain g uncounted
  have hplain : (g.context [] input).result = g.stageContext input 0 :=
    context_of_uncounted (l := plain) rfl rfl []
  have huncounted : (uncounted.context [] input).result = uncounted.stageContext input 0 :=
    context_of_uncounted (l := .go) rfl rfl []
  rw [hplain, huncounted]
  have hexceeds : uncounted.Exceeds String.utf8ByteSize input 0 := by decide +kernel
  have hstages : ∀ i ≤ g.steps.length, g.Exceeds String.utf8ByteSize input i := by decide +kernel
  exact ⟨hstages, hstages 0 (Nat.zero_le _), hexceeds⟩

end Generator

end Docsmith
