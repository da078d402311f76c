import Docsmith.Generate.Generator
import Docsmith.Proofs.Keys

namespace Docsmith

/-!
# Minification does not depend on what is remembered

A minifier remembers the outputs of its steps by source.  What it remembers are outputs that it
would find again, so that the result for a source is the same whatever was minified before.

* `Minifier.Known`: some outputs are those of the first steps on a source.
* `Minifier.extend_of_known`: going on from known outputs is going on from the beginning.
* `StageCache.Sound`: everything that is remembered is known.
* `Minifier.minify_of_sound`: the result does not depend on a sound cache, which stays sound.
* `StageCaches.Sound`, `Generator.context_of_sound`: neither do the contexts of a generator.
-/

/-! ### Outputs of the first steps -/

namespace Minifier

variable {m : Minifier} {code : Bytes} {stages : List Bytes}

/-- These are the outputs of the first steps on a source. -/
inductive Known (m : Minifier) (code : Bytes) : List Bytes → Prop where
  | nil : Known m code []
  | snoc {stages : List Bytes} {out : Bytes} (known : Known m code stages)
      (next : m.next code stages = .ok out) : Known m code (stages ++ [out])

/-- Fewer outputs than are known are known, too. -/
theorem Known.take (h : m.Known code stages) (n : Nat) : m.Known code (stages.take n) := by
  induction h with
  | nil => simpa using Known.nil
  | @snoc stages out known next ih =>
    by_cases hn : n ≤ stages.length
    · rw [List.take_append_of_le_length hn]
      exact ih
    · rw [List.take_of_length_le (by simp; omega)]
      exact .snoc known next

/-- Going on from known outputs is going on from the beginning. -/
theorem extend_of_known (h : m.Known code stages) (more : Nat) :
    m.extend code (stages.length + more) [] = m.extend code more stages := by
  induction h generalizing more with
  | nil => rw [List.length_nil, Nat.zero_add]
  | @snoc stages out known next ih =>
    have hmore : (stages ++ [out]).length + more = stages.length + (more + 1) := by
      rw [List.length_append, List.length_singleton]
      omega
    rw [hmore, ih, extend, next]

/-- What is found is known. -/
theorem known_extend (h : m.Known code stages) (more : Nat) :
    m.Known code (m.extend code more stages).1 := by
  induction more generalizing stages with
  | zero => exact h
  | succ more ih =>
    unfold extend
    split
    case h_1 out hnext => exact ih (.snoc h hnext)
    case h_2 => exact h

/-- What is known after a step was asked for. -/
theorem stageAt_snd (i : Nat) :
    (m.stageAt code i stages).2 = (m.extend code (i + 1 - stages.length) stages).1 := by
  show (m.stageAt code (.ofNat i) stages).2 = _
  simp only [stageAt]
  cases m.extend code (i + 1 - stages.length) stages with
  | mk found failure =>
    cases failure with
    | some f => rfl
    | none => cases hout : found[i]? <;> simp [hout]

theorem known_stageAt (h : m.Known code stages) (i : Nat) :
    m.Known code (m.stageAt code i stages).2 := by
  rw [stageAt_snd]
  exact known_extend h _

/-- The output of a step does not depend on which outputs were known. -/
theorem stageAt_of_known (h : m.Known code stages) (i : Nat) :
    (m.stageAt code i stages).1 = (m.stageAt code i []).1 := by
  show (m.stageAt code (.ofNat i) stages).1 = (m.stageAt code (.ofNat i) []).1
  by_cases hlong : stages.length ≤ i + 1
  · -- the outputs that are missing are found in either case
    have hsame : m.extend code (i + 1 - stages.length) stages = m.extend code (i + 1 - 0) [] := by
      rw [← extend_of_known h, show stages.length + (i + 1 - stages.length) = i + 1 - 0 by omega]
    simp only [stageAt, hsame, List.length_nil]
  · -- the output is known, and is found again from the beginning
    have hknown : m.extend code (i + 1 - stages.length) stages = (stages, none) := by
      rw [show i + 1 - stages.length = 0 by omega]
      rfl
    have hfound : m.extend code (i + 1 - 0) [] = (stages.take (i + 1), none) := by
      have hlength : (stages.take (i + 1)).length + 0 = i + 1 - 0 := by
        rw [List.length_take]
        omega
      rw [← hlength, extend_of_known (h.take (i + 1))]
      rfl
    have hout : (stages.take (i + 1))[i]? = stages[i]? := by
      rw [List.getElem?_take_of_lt (Nat.lt_succ_self i)]
    simp only [stageAt, hknown, hfound, List.length_nil, hout]
    cases stages[i]? <;> rfl

/-! ### Minification -/

/-- Taking a source through the steps does not depend on which outputs were known. -/
theorem tryFrom_of_known (preamble : String) (steps : List MinifyStep) (tried : List Minification)
    (last : Minification) {stages stages' : List Bytes} (h : m.Known code stages)
    (h' : m.Known code stages') :
    (m.tryFrom code preamble steps tried last stages).1
        = (m.tryFrom code preamble steps tried last stages').1 ∧
      m.Known code (m.tryFrom code preamble steps tried last stages).2 := by
  -- induction on the steps still to try; what is cached of the stages before them is true in both runs
  induction steps generalizing tried last stages stages' with
  | nil => exact ⟨rfl, h⟩
  | cons step rest ih =>
    have hknown := known_stageAt h tried.length
    have hknown' := known_stageAt h' tried.length
    have hout : (m.stageAt code tried.length stages).1 = (m.stageAt code tried.length stages').1 :=
      (stageAt_of_known h _).trans (stageAt_of_known h' _).symm
    simp only [tryFrom]
    generalize m.stageAt code tried.length stages = first at hknown hout
    generalize m.stageAt code tried.length stages' = second at hknown' hout
    obtain ⟨out, found⟩ := first
    obtain ⟨out', found'⟩ := second
    -- both runs tried the same text, so they count, stop and fail alike
    cases hout
    cases out with
    | error f => exact ⟨rfl, hknown⟩
    | ok out =>
      dsimp only
      cases m.count out preamble with
      | error f => exact ⟨rfl, hknown⟩
      | ok tokens =>
        dsimp only
        split
        case isTrue => exact ⟨rfl, hknown⟩
        -- the text is still too large, and the next step starts from caches that know this stage too
        case isFalse => exact ih _ _ hknown hknown'

end Minifier

/-! ### Caches -/

namespace StageCache

/-- Everything that is remembered of a source is known. -/
def Sound (m : Minifier) (cache : StageCache) : Prop := ∀ code, m.Known code (cache.get code)

theorem sound_nil (m : Minifier) : Sound m [] := fun _ => .nil

theorem put_cons (code : Bytes) (stages : List Bytes) (k : Bytes) (old : List Bytes)
    (rest : StageCache) : put code stages ((k, old) :: rest)
      = if k = code then (k, stages) :: rest else (k, old) :: put code stages rest := by
  by_cases h : k = code <;> simp [put, h]

/-- What is remembered of a source after something was remembered of one. -/
theorem get_put (code : Bytes) (stages : List Bytes) (cache : StageCache) (other : Bytes) :
    (put code stages cache).get other = if code = other then stages else cache.get other := by
  unfold get
  rw [find?_put (put code stages) rfl (put_cons code stages)]
  split <;> rfl

theorem Sound.remember {m : Minifier} {cache : StageCache} (h : Sound m cache) {code : Bytes}
    {stages : List Bytes} (hknown : m.Known code stages) :
    Sound m (m.remember cache code stages) := by
  unfold Minifier.remember
  split
  case isFalse => exact h
  case isTrue =>
    intro other
    rw [get_put]
    split
    case isTrue heq => exact heq ▸ hknown
    case isFalse => exact h other

end StageCache

/-- **The result of minification does not depend on what is remembered**, and what is remembered
    stays sound. -/
theorem Minifier.minify_of_sound {m : Minifier} {cache cache' : StageCache}
    (h : cache.Sound m) (h' : cache'.Sound m) (code : Bytes) (preamble : String) :
    (m.minify cache code preamble).1 = (m.minify cache' code preamble).1 ∧
      (m.minify cache code preamble).2.Sound m := by
  unfold minify
  cases m.count code preamble with
  | error f => exact ⟨rfl, h⟩
  | ok tokens =>
    dsimp only
    split
    case isTrue => exact ⟨rfl, h⟩
    case isFalse =>
      obtain ⟨hresult, hknown⟩ := tryFrom_of_known preamble m.steps []
        { input := code, minified := code, tokens := tokens } (h code) (h' code)
      exact ⟨hresult, h.remember hknown⟩

/-! ### Contexts -/

namespace StageCaches

/-- What is remembered for each language is sound for its minifier. -/
def Sound (g : Generator) (caches : StageCaches) : Prop :=
  ∀ l tokenizer, g.languages.get l.name = .ok l → g.tokenizer = some tokenizer →
    (caches.get l.name).Sound (g.minifier l tokenizer)

theorem sound_nil (g : Generator) : Sound g [] := fun _ _ _ _ => StageCache.sound_nil _

theorem put_cons (name : String) (cache : StageCache) (k : String) (old : StageCache)
    (rest : StageCaches) : put name cache ((k, old) :: rest)
      = if k = name then (k, cache) :: rest else (k, old) :: put name cache rest := by
  by_cases h : k = name <;> simp [put, h]

theorem get_put (name : String) (cache : StageCache) (caches : StageCaches) (other : String) :
    (put name cache caches).get other = if name = other then cache else caches.get other := by
  unfold get
  rw [find?_put (put name cache) rfl (put_cons name cache)]
  split <;> rfl

theorem Sound.put {g : Generator} {caches : StageCaches} (h : Sound g caches) {l : Language}
    {tokenizer : Tokenizer} {cache : StageCache} (hl : g.languages.get l.name = .ok l)
    (ht : g.tokenizer = some tokenizer) (hcache : cache.Sound (g.minifier l tokenizer)) :
    Sound g (caches.put l.name cache) := by
  intro l' tokenizer' hl' ht'
  rw [get_put]
  split
  case isTrue hname =>
    -- a name has one language, and there is one tokenizer
    have hsame : l = l' := by
      rw [← hname, hl] at hl'
      exact Except.ok.inj hl'
    have htoken : tokenizer = tokenizer' := Option.some.inj (ht.symm.trans ht')
    rw [← hsame, ← htoken]
    exact hcache
  case isFalse => exact h l' tokenizer' hl' ht'

end StageCaches

/-- Requests are counted with the tokenizer there is. -/
theorem Generator.tokenizer_of_tokenizerFor {g : Generator} {l : Language} {tokenizer : Tokenizer}
    (h : g.tokenizerFor l = some tokenizer) : g.tokenizer = some tokenizer := by
  unfold tokenizerFor at h
  split at h
  case isTrue => exact h
  case isFalse => cases h

/-- **The context of a symbol does not depend on what is remembered**, and what is remembered stays
    sound. -/
theorem Generator.context_of_sound {g : Generator} (hnamed : g.languages.Named)
    {caches : StageCaches} (h : caches.Sound g) (input : Input) :
    (g.context caches input).result = (g.context [] input).result ∧
      (g.context caches input).caches.Sound g := by
  unfold context
  cases hl : g.languages.get input.language with
  | error f => exact ⟨rfl, h⟩
  | ok l =>
    -- the language was asked for by the name it registers, so its cache is filed under that name
    have hown : g.languages.get l.name = .ok l := by rw [hnamed _ _ hl, hl]
    dsimp only
    cases hfor : g.tokenizerFor l with
    | none => exact ⟨rfl, h⟩
    | some tokenizer =>
      have ht := tokenizer_of_tokenizerFor hfor
      dsimp only
      generalize Context.prompt
        ⟨input, l.instructions input.identifier input.display input.file, ""⟩ = preamble
      -- a cache that knows only true stages gives what the empty one gives
      obtain ⟨hresult, hsound⟩ := Minifier.minify_of_sound (h l tokenizer hown ht)
        (StageCache.sound_nil (g.minifier l tokenizer)) input.code preamble
      have hsound' := h.put hown ht hsound
      rw [show StageCaches.get [] l.name = [] from rfl]
      generalize (g.minifier l tokenizer).minify (caches.get l.name) input.code preamble = first
        at hresult hsound'
      generalize (g.minifier l tokenizer).minify [] input.code preamble = second at hresult
      obtain ⟨minified, cache⟩ := first
      obtain ⟨minified', cache'⟩ := second
      cases hresult
      cases minified with
      | error f => exact ⟨rfl, hsound'⟩
      | ok r => exact ⟨rfl, hsound'⟩

end Docsmith
