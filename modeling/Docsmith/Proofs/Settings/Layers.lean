import Docsmith.Proofs.Returns
import Docsmith.Settings.Loading

namespace Docsmith

/-!
# Layers of settings compose setting by setting

The settings of a folder are those of its file with the variables of the environment over them.  Each
setting is decided on its own, but for the model, which follows from the provider when none is set:
from the provider of the file, as the variables are not known when the file is read.

* `Reading.Casts`, `Environment.Sets`, `Environment.Silent`: what a variable says about a setting.
* `Environment.layer_spec`: the layer of the environment says what the variables say.
* `Settings.get_ofLayer`, `Settings.model_of_none`: the settings that follow from a layer.
* `layers_compose`: the settings of a folder.
-/

/-- The value is this text. -/
def Json.isText (s : String) : Json → Bool
  | .text t => t == s
  | _ => false

theorem Json.eq_text {s : String} {j : Json} (h : j.isText s = true) : j = .text s := by
  cases j with
  | text t => rw [eq_of_beq h]
  | null | bool | num | list | object => cases h

theorem Setting.mem_all (k : Setting) : k ∈ Setting.all := by
  cases k <;> decide

/-! ### Variables -/

/-- A text stands for a value.  An empty one stands for none, except for a truth value. -/
inductive Reading.Casts : Reading → String → Json → Prop where
  | text {s : String} (hne : s ≠ "") : Casts .text s (.text s)
  | integer {s : String} {n : Int} (hne : s ≠ "") (hread : readInt? s = some n) :
      Casts .integer s (.num (.int n))
  | float {s : String} {x : Float} (hne : s ≠ "") (hread : readFloat? s = some x) :
      Casts .float s (.num (.float x))
  | truth {s : String} : Casts .truth s (.bool (trueWords.contains (Text.lowerText s)))

/-- A text is understood as the value that it stands for. -/
theorem Reading.Casts.value_eq {reading : Reading} {text : String} {j : Json}
    (h : reading.Casts text j) : reading.value text = .ok (some j) := by
  cases h with
  | text hne => simp [value, hne]
  | integer hne hread => simp [value, hne, hread]
  | float hne hread => simp [value, hne, hread]
  | truth => rfl

/-- What is understood is what the text stands for, unless it is empty. -/
theorem Reading.value_spec (reading : Reading) (text : String) :
    Returns (reading.value text) fun _ =>
      (text = "" ∧ reading ≠ .truth) ∨ ∃ j, reading.Casts text j := by
  intro said hsaid
  -- an empty text says nothing, except for a truth, which it settles as false
  by_cases hempty : text = ""
  · cases reading with
    | truth => exact .inr ⟨_, .truth⟩
    | text | integer | float => exact .inl ⟨hempty, by simp⟩
  · refine .inr ?_
    cases reading with
    | truth => exact ⟨_, .truth⟩
    | text => exact ⟨_, .text hempty⟩
    -- a number is only said when the text reads as one
    | integer =>
      cases hread : readInt? text with
      | none => simp [value, hempty, hread] at hsaid
      | some n => exact ⟨_, .integer hempty hread⟩
    | float =>
      cases hread : readFloat? text with
      | none => simp [value, hempty, hread] at hsaid
      | some x => exact ⟨_, .float hempty hread⟩

namespace Environment

variable {env : Environment} {k : Setting} {j : Json}

/-- The variable of a setting is there and stands for a value. -/
def Sets (env : Environment) (k : Setting) (j : Json) : Prop :=
  ∃ reading text, k.reading? = some reading ∧ env.get? k.variableName = some text ∧ reading.Casts text j

/-- The setting has no variable, or the variable is not there or empty.  One for a truth value that is
    there is never silent. -/
def Silent (env : Environment) (k : Setting) : Prop :=
  ∀ reading text, k.reading? = some reading → env.get? k.variableName = some text →
    text = "" ∧ reading ≠ .truth

theorem Sets.value_eq (h : env.Sets k j) : env.value k = .ok (some j) := by
  obtain ⟨reading, text, hreading, htext, hcast⟩ := h
  simp only [value, hreading, htext, hcast.value_eq]

theorem Silent.value_eq (h : env.Silent k) : env.value k = .ok none := by
  unfold value
  split
  · rename_i reading text hreading htext
    obtain ⟨rfl, htruth⟩ := h reading text hreading htext
    cases reading with
    | truth => exact absurd rfl htruth
    | text | integer | float => rfl
  · rfl

/-- A model that is set is not empty. -/
theorem Sets.truthy_model (h : env.Sets .model j) : j.truthy = true := by
  obtain ⟨reading, text, hreading, -, hcast⟩ := h
  cases hreading
  cases hcast with
  | text hne => simpa [Json.truthy] using hne

/-- Either the variable of a setting is silent or it stands for a value, unless it cannot be read. -/
theorem silent_or_sets (env : Environment) (k : Setting) :
    Returns (env.value k) fun _ => env.Silent k ∨ ∃ j, env.Sets k j := by
  intro said hsaid
  cases hreading : k.reading? with
  | none => exact .inl fun reading text h => by rw [hreading] at h; cases h
  | some reading =>
    cases htext : env.get? k.variableName with
    | none => exact .inl fun reading text _ h => by rw [htext] at h; cases h
    | some text =>
      simp only [value, hreading, htext] at hsaid
      rcases reading.value_spec text said hsaid with hempty | ⟨j, hcast⟩
      · refine .inl fun reading' text' hreading' htext' => ?_
        obtain rfl := Option.some.inj (hreading.symm.trans hreading')
        obtain rfl := Option.some.inj (htext.symm.trans htext')
        exact hempty
      · exact .inr ⟨j, reading, text, hreading, htext, hcast⟩

/-- The layer of the environment says about each setting what its variable says. -/
theorem layer_spec (env : Environment) : Returns env.layer fun l => ∀ k, env.value k = .ok (l k) := by
  unfold layer
  refine (Returns.self _).bind fun said hsaid => .pure fun k => ?_
  have hpair : ∀ k, Returns (do return (k, ← env.value k) : Except SettingsFault (Setting × Option Json))
      fun x => x.1 = k ∧ env.value x.1 = .ok x.2 :=
    fun k => (Returns.self (env.value k)).bind fun v hv => .pure ⟨rfl, hv⟩
  have hsays : ∀ x ∈ said, env.value x.1 = .ok x.2 :=
    Returns.mapM (fun k _ x hx => (hpair k x hx).2) said hsaid
  -- every setting is asked about, so there is a first answer about this one
  obtain ⟨x, hx, hkx⟩ := Returns.mapM_mem _ _ said hsaid k (Setting.mem_all k)
  have hk : x.1 = k := (hpair k x hkx).1
  cases hfind : said.find? (·.1 = k) with
  | none => exact absurd (List.find?_eq_none.mp hfind x hx) (by simp [hk])
  | some y =>
    have hyk : y.1 = k := by simpa using List.find?_some hfind
    have hy := hsays y (List.mem_of_find?_eq_some hfind)
    rwa [hyk] at hy

end Environment

/-! ### Settings of a layer -/

namespace Settings

variable {l upper lower : Layer} {k : Setting} {j : Json}

/-- Settings other than the model are what the layer says, and else the initial values. -/
theorem get_ofLayer (l : Layer) (hk : k ≠ .model) : (ofLayer l).get k = (l k).getD k.initial := by
  simp [ofLayer, completed, hk]

/-- The provider is told by the layer alone. -/
theorem isProvider_ofLayer (l : Layer) (p : Provider) :
    (ofLayer l).isProvider p = isProvider ⟨fun k => (l k).getD k.initial⟩ p := by
  unfold isProvider
  rw [get_ofLayer l (by decide)]

/-- A model that the layer sets is the model. -/
theorem model_of_truthy (hj : l .model = some j) (htruthy : j.truthy = true) :
    (ofLayer l).get .model = j := by
  simp [ofLayer, completed, hj, htruthy]

/-- Without a model in the layer it is the usual one of the provider. -/
theorem model_of_none (hnone : ∀ j, l .model = some j → j.truthy = false) :
    (ofLayer l).get .model = .text (ofLayer l).usualModel := by
  have hempty : ((l .model).getD Setting.model.initial).truthy = false := by
    cases hj : l .model with
    | none => rfl
    | some j => exact hnone j hj
  unfold usualModel
  rw [isProvider_ofLayer]
  simp [ofLayer, completed, hempty, usualModel]

/-- There is always a model. -/
theorem model_truthy (l : Layer) : ((ofLayer l).get .model).truthy = true := by
  by_cases hset : ∃ j, l .model = some j ∧ j.truthy = true
  · obtain ⟨j, hj, htruthy⟩ := hset
    rwa [model_of_truthy hj htruthy]
  · have hnone : ∀ j, l .model = some j → j.truthy = false := by
      intro j hj
      exact Bool.eq_false_iff.mpr fun htruthy => hset ⟨j, hj, htruthy⟩
    rw [model_of_none hnone]
    unfold usualModel
    split <;> decide

/-- The usual models of two settings are the same if both or none of them have the one provider. -/
theorem usualModel_eq_iff (s t : Settings) :
    s.usualModel = t.usualModel ↔ s.isProvider .anthropic = t.isProvider .anthropic := by
  unfold usualModel
  cases s.isProvider .anthropic <;> cases t.isProvider .anthropic <;> decide

end Settings

/-! ### Settings of a folder -/

/-- The settings of a folder are those of the layer of the environment over the settings of the file. -/
theorem loadSettings_spec {folder : Folder} {disk : FileTree} {env : Environment} {s : Settings}
    (h : (loadSettings folder disk env).result = .ok s) :
    ∃ fields, ∃ upper : Layer, readSettings folder disk = .ok fields ∧
      (∀ k, env.value k = .ok (upper k)) ∧
      s = .ofLayer (upper.onto (Settings.ofLayer (Layer.ofFields fields)).toLayer) := by
  unfold loadSettings at h
  cases hread : readSettings folder disk with
  | error fault => rw [hread] at h; cases h
  | ok fields =>
    rw [hread] at h
    dsimp only [Environment.settings] at h
    cases hlayer : env.layer with
    | error fault => rw [hlayer] at h; cases h
    | ok upper =>
      rw [hlayer] at h
      exact ⟨fields, upper, rfl, env.layer_spec upper hlayer, (Except.ok.inj h).symm⟩

/-- **Layers of settings compose setting by setting.**  Of the settings of a folder each one that a
    variable stands for has its value.  The others are what the file says, and else the initial ones; but
    for the model, where an empty one in the file is none.  If there is none at all, it is the usual model
    of the provider that the file leads to: this is the one of the provider of the settings if and only if
    the variables do not change between the one provider and the others. -/
theorem layers_compose {folder : Folder} {disk : FileTree} {env : Environment} {s : Settings}
    (h : (loadSettings folder disk env).result = .ok s) :
    ∃ fields, readSettings folder disk = .ok fields ∧
      let file := Layer.ofFields fields
      (∀ k, env.Silent k ∨ ∃ j, env.Sets k j) ∧
      (∀ k j, env.Sets k j → s.get k = j) ∧
      (∀ k, k ≠ .model → env.Silent k → s.get k = (file k).getD k.initial) ∧
      (env.Silent .model → ∀ j, file .model = some j → j.truthy = true → s.get .model = j) ∧
      (env.Silent .model → (∀ j, file .model = some j → j.truthy = false) →
        s.get .model = .text (Settings.ofLayer file).usualModel ∧
        (s.get .model = .text s.usualModel ↔
          (Settings.ofLayer file).isProvider .anthropic = s.isProvider .anthropic)) := by
  obtain ⟨fields, upper, hread, hupper, rfl⟩ := loadSettings_spec h
  refine ⟨fields, hread, ?_⟩
  intro file
  have hsets : ∀ k j, env.Sets k j → upper k = some j := fun k j hk =>
    Except.ok.inj ((hupper k).symm.trans hk.value_eq)
  have hsilent : ∀ k, env.Silent k → upper k = none := fun k hk =>
    Except.ok.inj ((hupper k).symm.trans hk.value_eq)
  -- a silent model is the one of the file, which is never empty
  have hmodel : env.Silent .model →
      (Settings.ofLayer (upper.onto (Settings.ofLayer file).toLayer)).get .model
        = (Settings.ofLayer file).get .model := fun hk =>
    Settings.model_of_truthy (by simp [Layer.onto, Settings.toLayer, hsilent _ hk])
      (Settings.model_truthy file)
  refine ⟨fun k => env.silent_or_sets k _ (hupper k), fun k j hk => ?_, fun k hne hk => ?_, ?_, ?_⟩
  · have hlayer : upper.onto (Settings.ofLayer file).toLayer k = some j := by
      simp [Layer.onto, hsets k j hk]
    by_cases hne : k = .model
    · subst hne
      exact Settings.model_of_truthy hlayer hk.truthy_model
    · rw [Settings.get_ofLayer _ hne, hlayer]
      rfl
  · rw [Settings.get_ofLayer _ hne]
    simp only [Layer.onto, Settings.toLayer, hsilent k hk, Option.none_or, Option.getD_some]
    exact Settings.get_ofLayer file hne
  · intro hk j hj htruthy
    rw [hmodel hk]
    exact Settings.model_of_truthy hj htruthy
  · intro hk hnone
    rw [hmodel hk, Settings.model_of_none hnone]
    refine ⟨rfl, ?_⟩
    rw [← Settings.usualModel_eq_iff]
    exact ⟨Json.text.inj, congrArg Json.text⟩

/-- The file sets a provider, a limit and a branch, and variables another limit and a truth value: an empty
    variable leaves the branch as it is but says that the other one is not true, and the model is the usual
    one of the provider of the file. -/
theorem layers_compose_in_a_folder :
    let disk : FileTree := [.file ".docpilot.yaml"
      (Text.encode "provider: anthropic\nlimit: 5\nbranch: docs\nmodel: ''\n")]
    let env : Environment :=
      [("DOCPILOT_LIMIT", " 7 "), ("DOCPILOT_BRANCH", ""), ("DOCPILOT_FORCE_MINIFY", "")]
    ∃ s, (loadSettings {} disk env).result = .ok s ∧ s.get .limit = .num (.int 7) ∧
      s.get .branch = .text "docs" ∧ s.get .forceMinify = .bool false ∧
      s.get .model = .text Provider.anthropic.defaultModel := by
  intro disk env
  have hload : (loadSettings {} disk env).result.toOption.any (fun _ => true) = true := by
    decide +kernel
  obtain ⟨s, hs, -⟩ := exists_of_any hload
  obtain ⟨fields, hread, -, hsets, hsilent, -, hmodel⟩ := layers_compose hs
  -- what the file says of the branch, the model and the provider
  have hfile : (readSettings {} disk).toOption.any (fun fields =>
      (Layer.ofFields fields .branch).any (·.isText "docs") &&
      (Layer.ofFields fields .model).any (·.isText "") &&
      (Settings.ofLayer (Layer.ofFields fields)).isProvider .anthropic) = true := by decide +kernel
  rw [hread] at hfile
  simp only [Except.toOption, Option.any_some, Bool.and_eq_true] at hfile
  obtain ⟨⟨hbranch, hnone⟩, hprovider⟩ := hfile
  obtain ⟨branch, hb, hdocs⟩ := (Option.any_eq_true _ _).mp hbranch
  obtain ⟨model, hm, hnone⟩ := (Option.any_eq_true _ _).mp hnone
  have hempty : env.get? (Setting.variableName .branch) = some "" := by decide +kernel
  have hquiet : env.get? (Setting.variableName .model) = none := by decide +kernel
  refine ⟨s, hs, ?_, ?_, ?_, ?_⟩
  · exact hsets .limit _ ⟨.integer, " 7 ", rfl, by decide +kernel, .integer (by decide) (by decide)⟩
  · rw [hsilent .branch (by decide) ?_, hb, Json.eq_text hdocs]
    · rfl
    · intro reading text hreading htext
      cases hreading
      exact ⟨Option.some.inj (htext.symm.trans hempty), by decide⟩
  · exact hsets .forceMinify _ ⟨.truth, "", rfl, by decide +kernel, .truth⟩
  · rw [(hmodel ?_ ?_).1, Settings.usualModel, if_pos hprovider]
    · intro reading text hreading htext
      rw [hquiet] at htext
      cases htext
    · intro j hj
      rw [← Option.some.inj (hm.symm.trans hj), Json.eq_text hnone]
      rfl

/-- With nothing but a variable for the provider there is no model in any layer, and the model is not the
    usual one of the provider of the settings. -/
theorem variable_leaves_the_usual_model :
    let env : Environment := [("DOCPILOT_PROVIDER", "anthropic")]
    ∃ s, (loadSettings {} [] env).result = .ok s ∧ readSettings {} [] = .ok [] ∧
      env.get? (Setting.variableName .model) = none ∧ s.get .provider = .text Provider.anthropic.name ∧
      s.get .model = .text Provider.openai.defaultModel ∧ s.get .model ≠ .text s.usualModel := by
  intro env
  have hload : (loadSettings {} [] env).result.toOption.any (fun s =>
      (s.get .provider).isText Provider.anthropic.name &&
      (s.get .model).isText Provider.openai.defaultModel &&
      s.usualModel == Provider.anthropic.defaultModel) = true := by decide +kernel
  obtain ⟨s, hs, htest⟩ := exists_of_any hload
  simp only [Bool.and_eq_true, beq_iff_eq] at htest
  obtain ⟨⟨hprovider, hmodel⟩, husual⟩ := htest
  refine ⟨s, hs, rfl, by decide +kernel, Json.eq_text hprovider, Json.eq_text hmodel, ?_⟩
  rw [Json.eq_text hmodel, husual]
  intro heq
  exact absurd (Json.text.inj heq) (by decide)

end Docsmith
