namespace Docsmith

/-!
# Commit messages

* `CommitMessage`: a headline, a description by lines and a footer.
* `CommitMessage.forSymbols`: the message about symbols that were documented.
* `CommitMessage.paragraphs`, `CommitMessage.text`: the message.
-/

/-- The headline of a commit that is given none. -/
def defaultHeadline : String := "docs: add missing documentation"

/-- The footer of a commit that is given none. -/
def defaultFooter : String := "This commit was created by docpilot."

/-- The parts of a commit message. -/
structure CommitMessage where
  headline : String := defaultHeadline
  description : List String := []
  footer : String := defaultFooter
deriving DecidableEq, Repr

namespace CommitMessage

/-- The lines about the symbols of some files. -/
def symbolLines (identifiers : List (String × List String)) : List String :=
  identifiers.flatMap fun (file, ids) => ids.map fun i => "  - " ++ file ++ "@" ++ i

/-- The message about symbols that were documented. -/
def forSymbols (identifiers : List (String × List String)) (footer : String := defaultFooter) :
    CommitMessage :=
  let lines := symbolLines identifiers
  { description := if lines.isEmpty then [] else "Updated docs:" :: lines, footer := footer }

/-- The paragraphs of a message; a description or footer without content is left out. -/
def paragraphs (m : CommitMessage) : List String :=
  [if m.headline.isEmpty then defaultHeadline else m.headline]
    ++ (if m.description.isEmpty then [] else ["\n".intercalate m.description])
    ++ (if m.footer.isEmpty then [] else [m.footer])

/-- The message as one text. -/
def text (m : CommitMessage) : String := "\n\n".intercalate m.paragraphs

end CommitMessage

end Docsmith
