import Docsmith.Proofs.Go.Shorter
import Docsmith.Proofs.Python.Bare

namespace Docsmith

open SourceTree Text

/-!
# Rounds of minification

The output of the usual steps can be read again, but the steps need not leave it as it is: what is
taken away may bring to light what a further round takes.

* `Language.outputs_stay`: a bare output stays as it is.
* `Language.go_shrinkAll_shorter`: a round on a Go source that takes something makes it shorter.
* `Language.bare_outputs_stay`: the usual steps can be taken again on a bare output of either
  language, and make a Go output shorter that is not bare.
* `Language.second_round_goes_on`: outputs that are not bare.
-/

namespace Language

/-- A source that each step leaves as it is stays so under all steps. -/
theorem shrinkAll_eq_self {l : Language} {code : Bytes}
    (h : ∀ step, l.shrink code step = .ok code) (steps : List MinifyStep) :
    l.shrinkAll steps code = .ok code :=
  foldlM_eq_self fun step _ => h step

/-- A step that leaves the tree of a source as it is leaves the source as it is. -/
theorem shrink_eq_self {l : Language} {t : SourceTree} {step : MinifyStep}
    (hfresh : Fresh l.parse t) (h : l.strip t step = .ok t) :
    l.shrink t.code step = .ok t.code := by
  unfold shrink
  rw [hfresh.parsed]
  show (l.strip t step >>= fun t => pure t.render) = .ok t.code
  rw [h]
  exact congrArg Except.ok (render_of_clean hfresh.clean)

/-- The output of the usual steps can be read, and all steps leave it as it is when they leave its
    tree as it is. -/
theorem outputs_stay {l : Language} (hl : l.KeepsFresh) {code out : Bytes}
    (h : l.shrinkAll MinifyStep.defaults code = .ok out) :
    ∃ t, l.parse out = .ok t ∧ Fresh l.parse t ∧
      ((∀ step, l.strip t step = .ok t) → ∀ steps, l.shrinkAll steps out = .ok out) := by
  obtain ⟨t, ht⟩ := shrinkAll_parses hl (by decide) code out h
  obtain ⟨hcode, -⟩ := hl.parse out t ht
  have hfresh : Fresh l.parse t := hl.parse.fresh out t ht
  refine ⟨t, ht, hfresh, fun hstays steps => ?_⟩
  rw [← hcode]
  exact shrinkAll_eq_self (fun step => shrink_eq_self hfresh (hstays step)) steps

/-- A step on a Go source makes it shorter, or else it has found nothing to take. -/
theorem go_shrink_shorter (code : Bytes) (step : MinifyStep) :
    Returns (go.shrink code step) fun out => out.length < code.length ∨
      out = code ∧ ∃ t, Go.parseTree code = .ok t ∧ Go.Spares t step := by
  unfold shrink
  rw [go_parse, go_strip]
  refine (Returns.self (Go.parseTree code)).bind fun t ht => ?_
  obtain ⟨hcode, -⟩ := Go.parseTree_reads code t ht
  have hfresh : Fresh Go.parseTree t := Go.parseTree_reads.fresh code t ht
  refine (Returns.self (Go.strip t step)).bind fun t' ht' => .pure ?_
  rw [render_of_clean (Go.strip_fresh hfresh step t' ht').clean]
  rcases Go.strip_shorter hfresh step t' ht' with hlt | ⟨rfl, hspares⟩
  · exact .inl (by rwa [← hcode])
  · exact .inr ⟨hcode, t', ht, hspares⟩

/-- **A round on a Go source makes it shorter**, or else no step has found anything to take. -/
theorem go_shrinkAll_shorter (steps : List MinifyStep) (code : Bytes) :
    Returns (go.shrinkAll steps code) fun out => out.length < code.length ∨
      out = code ∧ ∀ step ∈ steps, ∃ t, Go.parseTree code = .ok t ∧ Go.Spares t step := by
  -- induction on the steps: as soon as one of them shortens the text, the rest cannot lengthen it again
  induction steps generalizing code with
  | nil => exact .pure (.inr ⟨rfl, fun step hstep => by cases hstep⟩)
  | cons step rest ih =>
    unfold shrinkAll
    rw [List.foldlM_cons]
    refine (go_shrink_shorter code step).bind fun out₁ hfirst out hout => ?_
    rcases ih out₁ out hout with hlt | ⟨rfl, hrest⟩
    · rcases hfirst with hlt' | ⟨rfl, -⟩
      · exact .inl (by omega)
      · exact .inl hlt
    -- no step shortened anything, so each spared the tree it was given, which is the same throughout
    · rcases hfirst with hlt' | ⟨rfl, hspares⟩
      · exact .inl hlt'
      · refine .inr ⟨rfl, fun x hx => ?_⟩
        rcases List.mem_cons.mp hx with rfl | hx
        · exact hspares
        · exact hrest x hx

/-- **The usual steps change nothing more once their output is bare.**  Whatever Go or Python source
    they succeed on, their output can be read again; and if nothing is left in it that a step takes,
    all steps leave it as it is, byte for byte.  Else a further round that succeeds makes it
    shorter, if it is a Go source.  Of a Python source no more is said, for length does not tell
    there whether a round has found something to take: three dots may be longer than the body they
    stand for, and so may the statement that fills an emptied body. -/
theorem bare_outputs_stay (code out : Bytes) :
    (go.shrinkAll MinifyStep.defaults code = .ok out → ∃ t, go.parse out = .ok t ∧
      (Go.isBare t = true → ∀ steps, go.shrinkAll steps out = .ok out) ∧
      (Go.isBare t = false → ∀ out', go.shrinkAll MinifyStep.defaults out = .ok out' →
        out'.length < out.length)) ∧
    (python.shrinkAll MinifyStep.defaults code = .ok out → ∃ t, python.parse out = .ok t ∧
      (Python.isBare t = true → ∀ steps, python.shrinkAll steps out = .ok out)) := by
  constructor
  · intro h
    obtain ⟨t, ht, hfresh, hstays⟩ := outputs_stay go_keepsFresh h
    rw [go_parse] at ht hfresh
    rw [go_strip] at hstays
    refine ⟨t, by rwa [go_parse], fun hbare => ?_, fun hbare out' hout' => ?_⟩
    · exact hstays (Go.strip_of_bare (Go.bare_iff.mp hbare) hfresh)
    · rcases go_shrinkAll_shorter _ out out' hout' with hlt | ⟨rfl, hspares⟩
      · exact hlt
      · -- a round that finds nothing to take is one on a bare source
        have hall : ∀ step ∈ MinifyStep.defaults, Go.Spares t step := by
          intro step hstep
          obtain ⟨t', ht', hspare⟩ := hspares step hstep
          rw [ht] at ht'
          rwa [Except.ok.inj ht']
        rw [Go.bare_iff.mpr (Go.bare_of_spares hall)] at hbare
        cases hbare
  · intro h
    obtain ⟨t, ht, hfresh, hstays⟩ := outputs_stay python_keepsFresh h
    rw [python_parse] at hfresh
    rw [python_strip] at hstays
    refine ⟨t, ht, fun hbare => ?_⟩
    obtain ⟨ds, hds⟩ := Python.bare_of_isBare hbare
    exact hstays (Python.strip_of_bare hds hfresh)

/-- A function of each language with a comment and a body: the output of the usual steps is bare,
    and stays.  A Go output that is not bare becomes shorter. -/
theorem bare_outputs_stay_of_a_function :
    let go' := encode "package a\n\nfunc f()\n"
    let python' := encode "def f():\n    ...\n"
    let odd' := encode "package a\n\nfunc F() chanstruct{}\n"
    (go.shrinkAll MinifyStep.defaults (encode "package a\n\n// Does.\nfunc f() { g() }\n")
        = .ok go' ∧ go.shrinkAll MinifyStep.defaults go' = .ok go') ∧
      (python.shrinkAll MinifyStep.defaults (encode "def f():\n    # does\n    g()\n")
        = .ok python' ∧ python.shrinkAll MinifyStep.defaults python' = .ok python') ∧
      go.shrinkAll MinifyStep.defaults (encode "package a\n\nfunc F() chan/**/struct{} { g() }\n")
        = .ok odd' ∧
      ∃ out', go.shrinkAll MinifyStep.defaults odd' = .ok out' ∧ out'.length < odd'.length := by
  intro go' python' odd'
  have hgo : go.shrinkAll MinifyStep.defaults
      (encode "package a\n\n// Does.\nfunc f() { g() }\n") = .ok go' :=
    eq_ok_of_toOption (by decide +kernel)
  have hpython : python.shrinkAll MinifyStep.defaults (encode "def f():\n    # does\n    g()\n")
      = .ok python' := eq_ok_of_toOption (by decide +kernel)
  have hodd : go.shrinkAll MinifyStep.defaults
      (encode "package a\n\nfunc F() chan/**/struct{} { g() }\n") = .ok odd' :=
    eq_ok_of_toOption (by decide +kernel)
  have hround : go.shrinkAll MinifyStep.defaults odd'
      = .ok (encode "package a\n\nfunc F() chanstruct\n") :=
    eq_ok_of_toOption (by decide +kernel)
  obtain ⟨t, ht, hstays, -⟩ := (bare_outputs_stay _ go').1 hgo
  obtain ⟨t', ht', hstays'⟩ := (bare_outputs_stay _ python').2 hpython
  obtain ⟨t'', ht'', -, hshorter⟩ := (bare_outputs_stay _ odd').1 hodd
  have hbare : (go.parse go').toOption.any Go.isBare = true := by decide +kernel
  have hbare' : (python.parse python').toOption.any Python.isBare = true := by decide +kernel
  have hother : (go.parse odd').toOption.any (fun t => !Go.isBare t) = true := by decide +kernel
  rw [ht] at hbare
  rw [ht'] at hbare'
  rw [ht''] at hother
  refine ⟨⟨hgo, hstays hbare _⟩, ⟨hpython, hstays' hbare' _⟩, hodd, _, hround, ?_⟩
  exact hshorter (by simpa [Except.toOption] using hother) _ hround

/-- Two string literals at the head of a module: the usual steps take the first one, and then the
    second one is at the head.  A comment that alone parts two words of a result type: without it a
    type remains that looks like a name and a body. -/
theorem second_round_goes_on :
    (python.shrinkAll MinifyStep.defaults (encode "\"\"\"a\"\"\"\n\"\"\"b\"\"\"\n")
        = .ok (encode "\"\"\"b\"\"\"\n") ∧
      python.shrinkAll MinifyStep.defaults (encode "\"\"\"b\"\"\"\n") = .ok []) ∧
    (go.shrinkAll MinifyStep.defaults (encode "package a\n\nfunc F() chan/**/struct{} { g() }\n")
        = .ok (encode "package a\n\nfunc F() chanstruct{}\n") ∧
      go.shrinkAll MinifyStep.defaults (encode "package a\n\nfunc F() chanstruct{}\n")
        = .ok (encode "package a\n\nfunc F() chanstruct\n")) :=
  ⟨⟨eq_ok_of_toOption (by decide +kernel), eq_ok_of_toOption (by decide +kernel)⟩,
    eq_ok_of_toOption (by decide +kernel), eq_ok_of_toOption (by decide +kernel)⟩

end Language

end Docsmith
