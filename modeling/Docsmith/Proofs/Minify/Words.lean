import Docsmith.Proofs.Go.Firm
import Docsmith.Proofs.Minify.Budget
import Docsmith.Proofs.Python.Tamed

namespace Docsmith

open SourceTree Text

/-!
# Minification adds no words

A step of minification adds no words to a source, whatever it takes and whatever it puts there instead.  So the
tokens that a minifier counts do not grow from step to step if it counts words, and no prompt stands before them.

* `Language.Lessens`: no step of a language adds tokens.
* `Minifier.Falls`: the tokens of what was tried do not grow.
* `Minifier.tryFrom_falls`, `Minifier.minify_falls`: so it is for what a minifier tries.
* `steps_add_no_words`: Go and Python.
-/

/-! ### Languages -/

namespace Language

variable {l : Language}

/-- No step of the language adds tokens to a source. -/
def Lessens (l : Language) (tokenizer : Tokenizer) : Prop :=
  ∀ code step, Returns (l.shrink code step) fun out => code.NoMoreTokens tokenizer out

/-- What each step does to the trees that are read, it does to sources. -/
theorem shrink_returns {G : SourceTree → Prop} {P : Bytes → Bytes → Prop} (hreads : Reads l.parse)
    (hparse : ∀ code, Returns (l.parse code) G)
    (hstrip : ∀ t, G t → ∀ step, Returns (l.strip t step) fun t' => P t.code t'.render) (code : Bytes)
    (step : MinifyStep) : Returns (l.shrink code step) (P code) := by
  refine (Returns.self (l.parse code)).bind fun t ht => ?_
  refine (hstrip t (hparse code t ht) step).bind fun t' ht' => .pure ?_
  rwa [(hreads code t ht).1] at ht'

end Language

theorem Go.strip_render {t : SourceTree} (h : Go.Orderly t) (step : MinifyStep) :
    Returns (Language.go.strip t step) fun t' => Go.Tamed t.code t'.render := by
  rw [Language.go_strip]
  intro t' ht'
  obtain ⟨htamed, horderly⟩ := Go.strip_tamed h step t' ht'
  rwa [render_of_clean horderly.clean]

theorem Python.strip_render {t : SourceTree} (h : Python.Orderly t) (step : MinifyStep) :
    Returns (Language.python.strip t step) fun t' => t.code.Tamed t'.render := by
  rw [Language.python_strip]
  intro t' ht'
  obtain ⟨htamed, horderly⟩ := Python.strip_tamed h step t' ht'
  rwa [render_of_clean horderly.clean]

/-- A source of Go is read as an orderly tree. -/
theorem Go.parse_orderly (code : Bytes) : Returns (Language.go.parse code) Go.Orderly := by
  rw [Language.go_parse]
  exact Go.parseTree_orderly code

/-- So is a source of Python. -/
theorem Python.parse_orderly (code : Bytes) : Returns (Language.python.parse code) Python.Orderly := by
  rw [Language.python_parse]
  exact Python.parseTree_orderly code

namespace Language

theorem go_lessens : go.Lessens Tokenizer.words := fun code step out hout =>
  (shrink_returns (P := Go.Tamed) go_keepsFresh.parse Go.parse_orderly (fun _ h step => Go.strip_render h step)
    code step out hout).text

theorem python_lessens : python.Lessens Tokenizer.words := fun code step out hout =>
  (shrink_returns (P := Bytes.Tamed) python_keepsFresh.parse Python.parse_orderly
    (fun _ h step => Python.strip_render h step) code step out hout).text

end Language

/-! ### Minifiers -/

namespace Minifier

variable {m : Minifier} {code out : Bytes} {whole n k : Nat} {tried : List Minification}

/-- From some number of tokens on, those of what was tried do not grow. -/
def Falls (whole : Nat) (tried : List Minification) : Prop :=
  (whole :: tried.map (·.tokens)).Pairwise (· ≥ ·)

/-- What was tried last has no more tokens than all before. -/
theorem Falls.snoc (h : Falls whole tried) (hn : ∀ i ∈ whole :: tried.map (·.tokens), n ≤ i) {x : Minification}
    (hx : x.tokens ≤ n) : Falls whole (tried ++ [x]) := by
  unfold Falls
  rw [List.map_append, ← List.cons_append, List.pairwise_append]
  refine ⟨h, List.pairwise_singleton _ _, fun i hi j hj => ?_⟩
  rw [List.mem_singleton.mp hj]
  exact Nat.le_trans hx (hn i hi)

/-- What was tried last has the fewest tokens. -/
theorem Falls.last_le {x : Minification} (h : Falls whole (tried ++ [x])) :
    ∀ i ∈ whole :: (tried ++ [x]).map (·.tokens), x.tokens ≤ i := by
  unfold Falls at h
  rw [List.map_append, ← List.cons_append] at h ⊢
  intro i hi
  rcases List.mem_append.mp hi with hi | hi
  · exact (List.pairwise_append.mp h).2.2 i hi x.tokens List.mem_cons_self
  · exact (List.mem_singleton.mp hi).ge

/-- Without a prompt the tokens of a source are those of its text. -/
theorem count_le (h : code.NoMoreTokens m.tokenizer out) (hcode : m.count code "" = .ok n)
    (hout : m.count out "" = .ok k) : k ≤ n := by
  unfold count at hcode hout
  cases htext : decode code with
  | error f =>
    rw [htext] at hcode
    cases hcode
  | ok s =>
    obtain ⟨s', htext', hle⟩ := h s htext
    rw [htext] at hcode
    rw [htext'] at hout
    cases hcode
    cases hout
    rwa [String.empty_append, String.empty_append]

/-- Tokens are counted unless the source is no text. -/
theorem count_not_tooLarge {f : Failure} {preamble : String} (h : m.count code preamble = .error f) :
    ¬ f.SaysTooLarge := by
  unfold count at h
  split at h
  · cases h
  · cases h
    rintro ⟨a, b, r, hr⟩
    cases hr

/-- A result is reported, as what was chosen or because nothing fits. -/
def Reports (x : Except Failure MinifyResult) (r : MinifyResult) : Prop :=
  x = .ok r ∨ ∃ maxTokens tokens, x = .error (.tooLarge maxTokens tokens r)

theorem Reports.eq_of_ok {r r' : MinifyResult} (h : Reports (.ok r') r) : r = r' := by
  rcases h with hok | ⟨a, b, herror⟩
  · cases hok
    rfl
  · cases herror

theorem Reports.eq_of_tooLarge {r r' : MinifyResult} {a : Int} {b : Nat} (h : Reports (.error (.tooLarge a b r')) r) :
    r = r' := by
  rcases h with hok | ⟨a, b, herror⟩
  · cases hok
  · cases herror
    rfl

/-- Other failures report no result. -/
theorem not_reports {f : Failure} {r : MinifyResult} (hf : ¬ f.SaysTooLarge) : ¬ Reports (.error f) r := by
  rintro (hok | ⟨a, b, herror⟩)
  · cases hok
  · cases herror
    exact hf ⟨a, b, r, rfl⟩

/-- When all steps are taken, what was tried is what is reported. -/
theorem steps_of_exhausted {last : Minification} {r : MinifyResult}
    (hr : Reports (m.exhausted tried last) r) : r.steps = tried := by
  unfold exhausted at hr
  dsimp only at hr
  split at hr
  · rw [hr.eq_of_ok]
  · rw [hr.eq_of_tooLarge]

/-- **The tokens do not grow while a source is taken through the steps**. -/
theorem tryFrom_falls (hlarge : m.language.NeverTooLarge) (hless : m.language.Lessens m.tokenizer)
    (rest : List MinifyStep) (last : Minification) (outputs : List Bytes)
    (hrest : rest = m.steps.drop outputs.length) (hlength : tried.length = outputs.length)
    (hcount : m.count (outputs.getLast?.getD code) "" = .ok n) (hfalls : Falls whole tried)
    (hn : ∀ i ∈ whole :: tried.map (·.tokens), n ≤ i) (r : MinifyResult)
    (hr : Reports (m.tryFrom code "" rest tried last outputs).1 r) : Falls whole r.steps := by
  -- the last of the outputs so far has `n` tokens, and all that was tried has no fewer
  induction rest generalizing tried last outputs n with
  | nil => rwa [steps_of_exhausted hr]
  | cons step rest ih =>
    have hstep : m.steps[outputs.length]? = some step := by
      rw [← List.head?_drop, ← hrest]
      rfl
    have htail : rest = m.steps.drop (outputs.length + 1) := by
      rw [← List.tail_drop, ← hrest]
      rfl
    simp only [tryFrom, hlength, stageAt_next hstep] at hr
    cases hshrink : m.language.shrink (outputs.getLast?.getD code) step with
    | error f =>
      rw [hshrink] at hr
      exact absurd hr (not_reports (hlarge _ step f hshrink))
    | ok out =>
      have hlast : (outputs ++ [out]).getLast?.getD code = out := by simp
      rw [hshrink] at hr
      dsimp only at hr
      cases hout : m.count out "" with
      | error f =>
        rw [hout] at hr
        exact absurd hr (not_reports (count_not_tooLarge hout))
      | ok tokens =>
        have hle : tokens ≤ n := count_le (hless _ step out hshrink) hcount hout
        have hnext := hfalls.snoc hn (x := ⟨code, out, tokens, some step⟩) hle
        rw [hout] at hr
        dsimp only at hr
        split at hr
        · rwa [hr.eq_of_ok]
        · exact ih _ (outputs ++ [out]) (by simpa using htail) (by simp [hlength]) (by rw [hlast]; exact hout) hnext
            hnext.last_le hr

/-- **The tokens of what a minifier tries do not grow**, from those of the source on. -/
theorem minify_falls {cache : StageCache} (hcache : cache.Sound m) (hlarge : m.language.NeverTooLarge)
    (hless : m.language.Lessens m.tokenizer) {r : MinifyResult} (hr : Reports (m.minify cache code "").1 r) :
    ∃ n, m.count code "" = .ok n ∧ Falls n r.steps := by
  rw [(minify_of_sound hcache (StageCache.sound_nil m) code "").1, minify_fst] at hr
  cases hcount : m.count code "" with
  | error f =>
    rw [hcount] at hr
    exact absurd hr (not_reports (count_not_tooLarge hcount))
  | ok n =>
    refine ⟨n, rfl, ?_⟩
    rw [hcount] at hr
    dsimp only [Except.bind] at hr
    have hfirst : Falls n [] := List.pairwise_singleton _ _
    split at hr
    · rwa [hr.eq_of_ok]
    · refine tryFrom_falls hlarge hless m.steps _ [] rfl rfl hcount hfirst (fun i hi => ?_) r hr
      rw [List.mem_singleton.mp hi]

end Minifier

/-- **Minification adds no words.**  Sources of Go and Python are read as orderly trees.  Whatever orderly tree a
    step succeeds on, there are no more words in its output than in the source of the tree, and for Go no more
    characters.  So the tokens of what a minifier tries do not grow, if it counts words and there is no prompt before
    them. -/
theorem steps_add_no_words :
    (∀ code, Returns (Language.go.parse code) Go.Orderly) ∧
      (∀ code, Returns (Language.python.parse code) Python.Orderly) ∧
      (∀ t, Go.Orderly t → ∀ step, Returns (Language.go.strip t step) fun t' =>
        t.code.Tamed t'.render ∧ t.code.NoMoreTokens Tokenizer.chars t'.render) ∧
      (∀ t, Python.Orderly t → ∀ step, Returns (Language.python.strip t step) fun t' => t.code.Tamed t'.render) ∧
      ∀ (m : Minifier) (cache : StageCache) (code : Bytes) (r : MinifyResult),
        m.language = Language.go ∨ m.language = Language.python → m.tokenizer = Tokenizer.words → cache.Sound m →
          Minifier.Reports (m.minify cache code "").1 r →
            ∃ n, m.count code "" = .ok n ∧ Minifier.Falls n r.steps := by
  refine ⟨Go.parse_orderly, Python.parse_orderly, fun t h step t' ht' => ?_, fun t h => Python.strip_render h, ?_⟩
  · have htamed := Go.strip_render h step t' ht'
    exact ⟨htamed.toTamed, htamed.chars⟩
  · intro m cache code r hlanguage htokenizer hcache hr
    -- only the counting by words is left: each language comes with its own two facts about it
    have hlanguage' : m.language.NeverTooLarge ∧ m.language.Lessens m.tokenizer := by
      rw [htokenizer]
      rcases hlanguage with hgo | hpython
      · rw [hgo]
        exact ⟨Language.go_neverTooLarge, Language.go_lessens⟩
      · rw [hpython]
        exact ⟨Language.python_neverTooLarge, Language.python_lessens⟩
    exact Minifier.minify_falls hcache hlanguage'.1 hlanguage'.2 hr

/-- A function of each language: a body goes, or three dots take its place.  The words of what is tried are counted
    after each of the usual steps. -/
theorem steps_add_no_words_of_a_function :
    let step : MinifyStep := { name := "exported-bodies", bodies := true, exported := true }
    let goCode := encode "package a\n\nfunc f() { g() }\n"
    let pythonCode := encode "def f():\n    return g()\n"
    let m : Minifier := { language := .python, tokenizer := Tokenizer.words, maxTokens := 0, force := true }
    (∃ t t', Language.go.parse goCode = .ok t ∧ Language.go.strip t step = .ok t' ∧
        t'.render = encode "package a\n\nfunc f()\n" ∧ t.code.Tamed t'.render) ∧
      (∃ t t', Language.python.parse pythonCode = .ok t ∧ Language.python.strip t step = .ok t' ∧
        t'.render = encode "def f():\n    ...\n" ∧ t.code.Tamed t'.render) ∧
      ∃ r n, (m.minify [] pythonCode "").1 = .ok r ∧ m.count pythonCode "" = .ok n ∧ Minifier.Falls n r.steps ∧
        r.steps.map (·.tokens) = [4, 4, 3, 3] := by
  intro step goCode pythonCode m
  obtain ⟨hgo, hpython, hgoStrip, hpythonStrip, hminify⟩ := steps_add_no_words
  have hgoAll : (Language.go.parse goCode).toOption.any (fun t => (Language.go.strip t step).toOption.any
      fun t' => t'.render == encode "package a\n\nfunc f()\n") = true := by decide +kernel
  have hpythonAll : (Language.python.parse pythonCode).toOption.any (fun t =>
      (Language.python.strip t step).toOption.any
        fun t' => t'.render == encode "def f():\n    ...\n") = true := by decide +kernel
  have hresult : (m.minify [] pythonCode "").1.toOption.any (fun r => r.steps.map (·.tokens) == [4, 4, 3, 3])
      = true := by decide +kernel
  obtain ⟨t, ht, hstripped⟩ := exists_of_any hgoAll
  obtain ⟨t', ht', hrender⟩ := exists_of_any hstripped
  obtain ⟨u, hu, hstripped'⟩ := exists_of_any hpythonAll
  obtain ⟨u', hu', hrender'⟩ := exists_of_any hstripped'
  obtain ⟨r, hr, htokens⟩ := exists_of_any hresult
  obtain ⟨n, hcount, hfalls⟩ := hminify m [] pythonCode r (.inr rfl) rfl (StageCache.sound_nil m) (.inl hr)
  rw [beq_iff_eq] at hrender hrender' htokens
  exact ⟨⟨t, t', ht, ht', hrender, (hgoStrip t (hgo goCode t ht) step t' ht').1⟩,
    ⟨u, u', hu, hu', hrender', hpythonStrip u (hpython pythonCode u hu) step u' hu'⟩,
    r, n, hr, hcount, hfalls, htokens⟩

end Docsmith
