import Docsmith.Text.Blank

namespace Docsmith

/-!
# Tokens and models

A model reads a limited number of tokens.  How a text falls into tokens depends on the encoding of
the model; budgets are kept for any way to count them.

* `Tokenizer`: the number of tokens of a text.
* `contextWindow`: the tokens that a model reads.
* `tokenBudget`: those that are left for a prompt.
* `TokenizerCache`: encodings that were loaded before.
-/

/-- The number of tokens of a text. -/
abbrev Tokenizer := String → Nat

/-- One token for each word. -/
def Tokenizer.words : Tokenizer := fun s => (Text.words s).length

/-- One token for each character. -/
def Tokenizer.chars : Tokenizer := fun s => s.length

/-- The tokens kept free for an answer. -/
def reservedOutputTokens : Int := 512

/-- The budget of a minification that is told none. -/
def defaultMaxTokens : Int := 4096

/-- The tokens that models read. -/
def contextWindows : List (String × Int) :=
  [("gpt-3.5-turbo", 16385), ("gpt-4", 8192), ("gpt-4-32k", 32768), ("gpt-4-turbo", 128000),
   ("gpt-4o", 128000), ("gpt-4o-mini", 128000), ("claude-3-5-haiku-latest", 200000),
   ("claude-3-5-sonnet-latest", 200000)]

/-- The tokens that a model reads when nothing is known of it. -/
def defaultContextWindow : Int := 8192

/-- The tokens that a model reads: those of its own name, and else those of the longest name that it
    begins with. -/
def contextWindow (model : String) : Int :=
  match contextWindows.find? (·.1 == model) with
  | some (_, n) => n
  | none =>
    let longestFirst := contextWindows.mergeSort fun a b => b.1.length ≤ a.1.length
    match longestFirst.find? fun (name, _) => model.startsWith name with
    | some (_, n) => n
    | none => defaultContextWindow

/-- The tokens left for a prompt, never less than none. -/
def tokenBudget (model : String) (maxOutput : Int := reservedOutputTokens) : Int :=
  max (contextWindow model - maxOutput) 0

/-- The name of the encoding of a model; models that are not known share one. -/
def encodingName (model : String) : String :=
  if model == "gpt-4o" || model.startsWith "gpt-4o-" then "o200k_base" else "cl100k_base"

/-- The models whose encoding was loaded before. -/
structure TokenizerCache where
  loaded : List String := []

/-- The encoding of a model, whether it was loaded before, and the models loaded after. -/
def TokenizerCache.get (c : TokenizerCache) (model : String) : String × Bool × TokenizerCache :=
  if c.loaded.contains model then (encodingName model, true, c)
  else (encodingName model, false, { loaded := model :: c.loaded })

end Docsmith
