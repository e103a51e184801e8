import DeclarationDocs.Text.WhiteSpace

/-!
# Prompts

A prompt is a list of sections, each followed by a blank line; the last blank line is dropped.
The prompt of a document is the template, a fixed request, and the source in a fenced block.
-/

namespace DeclarationDocs

/-- A part of a prompt. -/
inductive PromptPart where
  | text (header : Option String) (content : String)
  | code (language : String) (content : String)
deriving Repr

namespace PromptPart

/-- The lines that come before the content of a section. -/
def opening : PromptPart → List Char
  | text none _ => []
  | text (some h) _ => '#' :: ' ' :: h.toList ++ ['\n', '\n']
  | code language _ => '`' :: '`' :: '`' :: language.toList ++ ['\n']

/-- The content of a section. -/
def content : PromptPart → List Char
  | text _ c => c.toList
  | code _ c => c.toList

/-- The lines that come after the content of a section. -/
def closing : PromptPart → List Char
  | text _ _ => ['\n', '\n']
  | code _ _ => ['\n', '`', '`', '`', '\n', '\n']

/-- A section as text; its content loses the white space at its end. -/
def render (s : PromptPart) : List Char :=
  s.opening ++ Text.trimEndChars s.content ++ s.closing

end PromptPart

/-- The sections one after the other, without the white space at the end. -/
def renderPrompt (sections : List PromptPart) : String :=
  String.ofList (Text.trimEndChars (sections.flatMap PromptPart.render))

/-- The prompt that asks for the document of a declaration. -/
def documentPrompt (template source : String) : String :=
  renderPrompt
    [.text none template,
     .text (some "Source") "Document the following declaration.",
     .code "typescript" source]

end DeclarationDocs
