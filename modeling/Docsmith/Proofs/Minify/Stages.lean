import Docsmith.Proofs.Minify.Cache

namespace Docsmith

/-!
# Stages of a source

The steps of minification take a source through its stages, each step on the output of the one
before.  The stages belong to the source and the steps alone; a minifier may find them all at once,
bit by bit over several calls, or again and again, and it may fail on the way.

* `Language.shrink`, `Language.shrinkAll`: a source after one step, and after some steps.
* `Language.stages`: the outputs of the steps, up to the first step that fails.
* `Minifier.Known.isPrefix`: what a minifier knows of a source are the first of its stages.
* `Minifier.Call`, `Minifier.calls`: calls of a minifier, made one after another.
* `StageCache.Accurate`: every list of outputs that is remembered is known.
* `Minifier.cache_is_invisible`: a minifier that remembers answers like one that does not.
-/

/-! ### Stages -/

namespace Language

variable {l : Language} {steps : List MinifyStep} {step : MinifyStep} {code out : Bytes}

/-- A source after one step. -/
def shrink (l : Language) (code : Bytes) (step : MinifyStep) : Except Failure Bytes := do
  let tree ← l.parse code
  return (← l.strip tree step).render

/-- A source after some steps, each on the output of the one before. -/
def shrinkAll (l : Language) (steps : List MinifyStep) (code : Bytes) : Except Failure Bytes :=
  steps.foldlM l.shrink code

/-- The outputs of the steps on a source, up to the first step that fails. -/
def stages (l : Language) : List MinifyStep → Bytes → List Bytes
  | [], _ => []
  | step :: rest, code =>
    match l.shrink code step with
    | .ok out => out :: l.stages rest out
    | .error _ => []

theorem stages_cons (rest : List MinifyStep) (h : l.shrink code step = .ok out) :
    l.stages (step :: rest) code = out :: l.stages rest out := by
  simp only [stages, h]

/-- One more output behind the first stages is one more stage. -/
theorem isPrefix_snoc {outputs : List Bytes} (hknown : outputs <+: l.stages steps code)
    (hstep : steps[outputs.length]? = some step)
    (hout : l.shrink (outputs.getLast?.getD code) step = .ok out) :
    outputs ++ [out] <+: l.stages steps code := by
  induction outputs generalizing steps code with
  | nil =>
    cases steps with
    | nil => simp at hstep
    | cons first rest =>
      have hfirst : first = step := by simpa using hstep
      have hhead : l.shrink code first = .ok out := by simpa [hfirst] using hout
      rw [stages_cons rest hhead]
      exact ⟨l.stages rest out, rfl⟩
  | cons a outputs ih =>
    cases steps with
    | nil => simp at hstep
    | cons first rest =>
      cases hfirst : l.shrink code first with
      | error f =>
        simp only [stages, hfirst] at hknown
        exact absurd hknown (by simp)
      | ok b =>
        -- the first output is the first stage, and the others are stages of it
        rw [stages_cons rest hfirst] at hknown ⊢
        obtain ⟨hsame, htail⟩ := List.cons_prefix_cons.mp hknown
        subst hsame
        have hlast : l.shrink (outputs.getLast?.getD a) step = .ok out := by
          rw [List.getLast?_cons] at hout
          exact hout
        have hrest : outputs ++ [out] <+: l.stages rest a := ih htail (by simpa using hstep) hlast
        exact List.cons_prefix_cons.mpr ⟨rfl, hrest⟩

end Language

namespace Minifier

variable {m : Minifier} {code : Bytes} {outputs : List Bytes}

/-- The next output is that of the next step on the last output, as long as there is a step. -/
theorem next_eq_shrink {step : MinifyStep} (h : m.steps[outputs.length]? = some step) :
    m.next code outputs = m.language.shrink (outputs.getLast?.getD code) step := by
  unfold next
  rw [h]
  rfl

/-- There is a step to every output. -/
theorem step_of_next {out : Bytes} (h : m.next code outputs = .ok out) :
    ∃ step, m.steps[outputs.length]? = some step ∧
      m.language.shrink (outputs.getLast?.getD code) step = .ok out := by
  cases hstep : m.steps[outputs.length]? with
  | some step => exact ⟨step, rfl, (next_eq_shrink hstep).symm.trans h⟩
  | none =>
    -- without a step the source may be parsed, but nothing comes of it
    unfold next at h
    rw [hstep] at h
    cases hparse : m.language.parse (outputs.getLast?.getD code) with
    | error f => rw [hparse] at h; cases h
    | ok tree => rw [hparse] at h; cases h

/-- **What is known of a source are the first of its stages.** -/
theorem Known.isPrefix (h : m.Known code outputs) :
    outputs <+: m.language.stages m.steps code := by
  induction h with
  | nil => exact List.nil_prefix
  | snoc known next ih =>
    obtain ⟨step, hstep, hout⟩ := step_of_next next
    exact Language.isPrefix_snoc ih hstep hout

/-! ### Calls -/

/-- A call of a minifier: to bring a source within the budget, behind a preamble of its own or that
    of the minifier, or to give the output of the steps up to an index. -/
inductive Call where
  | minify (code : Bytes) (preamble : Option String)
  | stage (code : Bytes) (index : Nat)

/-- What a call comes to. -/
inductive Reply where
  | minified (result : Except Failure MinifyResult)
  | staged (output : Except Failure Bytes)

/-- Makes a call: the reply, and what is remembered after it. -/
def call (m : Minifier) (cache : StageCache) : Call → Reply × StageCache
  | .minify code preamble =>
    (.minified (m.minify cache code (preamble.getD m.preamble)).1,
      (m.minify cache code (preamble.getD m.preamble)).2)
  | .stage code index => (.staged (m.stage cache code index).1, (m.stage cache code index).2)

/-- Makes calls one after another: the reply to each, with what is remembered after it. -/
def calls (m : Minifier) : StageCache → List Call → List (Reply × StageCache)
  | _, [] => []
  | cache, c :: rest => m.call cache c :: m.calls (m.call cache c).2 rest

end Minifier

/-- Every list of outputs that is remembered is known. -/
def StageCache.Accurate (m : Minifier) (cache : StageCache) : Prop :=
  ∀ entry ∈ cache, m.Known entry.1 entry.2

namespace StageCache.Accurate

variable {m : Minifier} {cache : StageCache} {code : Bytes} {outputs : List Bytes}

/-- What is remembered of a source is known, since it is one of the lists. -/
theorem sound (h : cache.Accurate m) : cache.Sound m := by
  intro code
  unfold StageCache.get
  cases hfind : cache.find? (·.1 == code) with
  | none => exact .nil
  | some entry =>
    have hentry : entry.1 = code := by simpa using List.find?_some hfind
    have hknown := h entry (List.mem_of_find?_eq_some hfind)
    rw [hentry] at hknown
    exact hknown

/-- Remembering what is known keeps a cache accurate. -/
theorem remember (h : cache.Accurate m) (hknown : m.Known code outputs) :
    (m.remember cache code outputs).Accurate m := by
  unfold Minifier.remember
  split
  case isFalse => exact h
  case isTrue =>
    intro entry hentry
    rcases mem_put (StageCache.put code outputs) rfl (StageCache.put_cons code outputs) hentry with
      rfl | hold
    · exact hknown
    · exact h entry hold

end StageCache.Accurate

namespace Minifier

variable {m : Minifier} {cache : StageCache}

/-- The result of minification, without what is remembered after it. -/
theorem minify_fst (m : Minifier) (cache : StageCache) (code : Bytes) (preamble : String) :
    (m.minify cache code preamble).1 = (m.count code preamble).bind fun tokens =>
      let whole : Minification := { input := code, minified := code, tokens := tokens }
      if code.isEmpty || tokens ≤ m.maxTokens || m.steps.isEmpty then .ok { chosen := whole }
      else (m.tryFrom code preamble m.steps [] whole (cache.get code)).1 := by
  unfold minify
  cases m.count code preamble with
  | error f => rfl
  | ok tokens =>
    dsimp only [Except.bind]
    split <;> rfl

/-- What is remembered after a source was minified: what was before, or outputs that are known. -/
theorem minify_snd (h : cache.Sound m) (code : Bytes) (preamble : String) :
    (m.minify cache code preamble).2 = cache ∨ ∃ outputs, m.Known code outputs ∧
      (m.minify cache code preamble).2 = m.remember cache code outputs := by
  unfold minify
  cases m.count code preamble with
  | error f => exact .inl rfl
  | ok tokens =>
    dsimp only
    split
    case isTrue => exact .inl rfl
    case isFalse =>
      -- the search gives known outputs back also when it fails on the way
      obtain ⟨-, hknown⟩ := tryFrom_of_known preamble m.steps []
        { input := code, minified := code, tokens := tokens } (h code) (h code)
      exact .inr ⟨_, hknown, rfl⟩

/-- A call keeps a cache accurate, also one that fails. -/
theorem accurate_call (h : cache.Accurate m) (c : Call) : (m.call cache c).2.Accurate m := by
  cases c with
  | minify code preamble =>
    show (m.minify cache code (preamble.getD m.preamble)).2.Accurate m
    rcases minify_snd h.sound code (preamble.getD m.preamble) with hsame | ⟨outputs, hknown, hput⟩
    · rw [hsame]
      exact h
    · rw [hput]
      exact h.remember hknown
  | stage code index => exact h.remember (known_stageAt (h.sound code) index)

/-- Going on with the steps has nothing to do with whether outputs are remembered. -/
theorem extend_cached (m : Minifier) (b : Bool) (code : Bytes) (more : Nat)
    (outputs : List Bytes) :
    { m with cached := b }.extend code more outputs = m.extend code more outputs := by
  induction more generalizing outputs with
  | zero => rfl
  | succ more ih =>
    have hnext : { m with cached := b }.next code outputs = m.next code outputs := rfl
    simp only [extend, ih, hnext]

theorem stageAt_cached (m : Minifier) (b : Bool) (code : Bytes) (i : Nat) (outputs : List Bytes) :
    { m with cached := b }.stageAt code i outputs = m.stageAt code i outputs := by
  show { m with cached := b }.stageAt code (.ofNat i) outputs = m.stageAt code (.ofNat i) outputs
  simp only [stageAt, extend_cached]

/-- Neither has the search for an output that fits. -/
theorem tryFrom_cached (m : Minifier) (b : Bool) (code : Bytes) (preamble : String)
    (steps : List MinifyStep) (tried : List Minification) (last : Minification)
    (outputs : List Bytes) :
    { m with cached := b }.tryFrom code preamble steps tried last outputs
      = m.tryFrom code preamble steps tried last outputs := by
  induction steps generalizing tried last outputs with
  | nil => rfl
  | cons step rest ih =>
    have hcount : ∀ out, { m with cached := b }.count out preamble = m.count out preamble :=
      fun _ => rfl
    simp only [tryFrom, ih, stageAt_cached, hcount]

theorem minify_cached (m : Minifier) (b : Bool) (cache : StageCache) (code : Bytes)
    (preamble : String) :
    ({ m with cached := b }.minify cache code preamble).1 = (m.minify cache code preamble).1 := by
  have hcount : { m with cached := b }.count code preamble = m.count code preamble := rfl
  rw [minify_fst, minify_fst, hcount]
  simp only [tryFrom_cached]

/-- The reply to a call does not depend on what is remembered, and neither on whether anything is
    remembered. -/
theorem reply_eq (h : cache.Accurate { m with cached := true }) (c : Call) :
    ({ m with cached := true }.call cache c).1 = ({ m with cached := false }.call [] c).1 := by
  -- first the cache is emptied, and then it does not matter whether anything is remembered
  cases c with
  | minify code preamble =>
    apply congrArg Reply.minified
    calc ({ m with cached := true }.minify cache code (preamble.getD m.preamble)).1
        = ({ m with cached := true }.minify [] code (preamble.getD m.preamble)).1 :=
          (minify_of_sound h.sound (StageCache.sound_nil _) code (preamble.getD m.preamble)).1
      _ = (m.minify [] code (preamble.getD m.preamble)).1 := m.minify_cached true [] code _
      _ = ({ m with cached := false }.minify [] code (preamble.getD m.preamble)).1 :=
          (m.minify_cached false [] code _).symm
  | stage code index =>
    apply congrArg Reply.staged
    calc ({ m with cached := true }.stageAt code index (cache.get code)).1
        = ({ m with cached := true }.stageAt code index []).1 :=
          stageAt_of_known (h.sound code) index
      _ = (m.stageAt code index []).1 := congrArg Prod.fst (m.stageAt_cached true code index [])
      _ = ({ m with cached := false }.stageAt code index []).1 :=
          congrArg Prod.fst (m.stageAt_cached false code index []).symm

/-- A minifier that does not remember goes on without a cache. -/
theorem call_snd_of_not_cached (h : m.cached = false) (c : Call) : (m.call [] c).2 = [] := by
  have hforget : ∀ code outputs, m.remember [] code outputs = [] := by
    intro code outputs
    simp [remember, h]
  cases c with
  | minify code preamble =>
    show (m.minify [] code (preamble.getD m.preamble)).2 = []
    rcases minify_snd (StageCache.sound_nil m) code (preamble.getD m.preamble) with
      hsame | ⟨outputs, -, hput⟩
    · exact hsame
    · rw [hput, hforget]
  | stage code index => exact hforget code _

/-- Calls that are made from an accurate cache on get the replies of a minifier that does not
    remember, and each of them leaves an accurate cache. -/
theorem calls_of_accurate (h : cache.Accurate { m with cached := true }) (cs : List Call) :
    ({ m with cached := true }.calls cache cs).map Prod.fst
        = ({ m with cached := false }.calls [] cs).map Prod.fst ∧
      ∀ reply ∈ { m with cached := true }.calls cache cs,
        reply.2.Accurate { m with cached := true } := by
  -- the caches of the two differ from call to call: what carries the induction is that this one
  -- stays accurate, while the other stays empty
  induction cs generalizing cache with
  | nil => exact ⟨rfl, fun reply hreply => by cases hreply⟩
  | cons c rest ih =>
    have hcall := accurate_call h c
    obtain ⟨hreplies, hcaches⟩ := ih hcall
    constructor
    · show _ :: _ = _ :: _
      rw [hreplies, reply_eq h c, call_snd_of_not_cached rfl c]
    · intro reply hreply
      rcases List.mem_cons.mp hreply with rfl | hlater
      · exact hcall
      · exact hcaches reply hlater

/-- **The cache is invisible.**  Whatever the language, the tokenizer, the steps, the budget and the
    calls, and whichever of them fail: a minifier that remembers gives each call the reply of one
    that does not, and after each call every list of outputs that it remembers begins the stages of
    its source. -/
theorem cache_is_invisible (m : Minifier) (cs : List Call) :
    ({ m with cached := true }.calls [] cs).map Prod.fst
        = ({ m with cached := false }.calls [] cs).map Prod.fst ∧
      ∀ reply ∈ { m with cached := true }.calls [] cs, ∀ entry ∈ reply.2,
        entry.2 <+: m.language.stages m.steps entry.1 := by
  have hempty : StageCache.Accurate { m with cached := true } [] := fun entry hentry => by
    cases hentry
  obtain ⟨hreplies, hcaches⟩ := calls_of_accurate hempty cs
  refine ⟨hreplies, fun reply hreply entry hentry => ?_⟩
  exact (hcaches reply hreply entry hentry).isPrefix

end Minifier

end Docsmith
