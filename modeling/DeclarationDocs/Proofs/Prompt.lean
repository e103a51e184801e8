import DeclarationDocs.Prompt
import DeclarationDocs.Proofs.Path.Segments

namespace DeclarationDocs

/-!
# What a prompt is made of

Trimming happens twice, once for each section and once for the prompt.  A prompt whose last section
is code ends in a fence, so the second time only the blank line behind the fence is lost, whatever
the sections hold.  So the template and the source can each be told from a prompt, up to the white
space at their ends.

* `Text.TrimmedTo s kept` — a text without the white space at its end;
* `Text.SameUpToEnd s t` — texts that differ in the white space at their ends only;
* `renderPrompt_concat_code` — the sections of a prompt that ends in code;
* `toList_documentPrompt` — the prompt of a document;
* `prompt_parts` — what it tells of its template and source.
-/

/-! ### White space at the end -/

namespace Text

variable {s t kept blank : List Char}

/-- What is kept of a text is all of it but the white space at its end. -/
structure TrimmedTo (s kept : List Char) : Prop where
  lost : ∃ blank, s = kept ++ blank ∧ ∀ c ∈ blank, isWhiteSpace c = true
  last : ∀ c, kept.getLast? = some c → isWhiteSpace c = false

/-- The texts are the same but for the white space at their ends. -/
def SameUpToEnd (s t : List Char) : Prop :=
  ∃ common a b, s = common ++ a ∧ t = common ++ b ∧
    (∀ c ∈ a, isWhiteSpace c = true) ∧ ∀ c ∈ b, isWhiteSpace c = true

/-- White space at the end is lost. -/
theorem trimEndChars_append (h : ∀ c ∈ blank, isWhiteSpace c = true) (s : List Char) :
    trimEndChars (s ++ blank) = trimEndChars s := by
  induction blank using List.reverseRecOn with
  | nil => rw [List.append_nil]
  | append_singleton blank c ih =>
    have hc : isWhiteSpace c = true := h c (by simp)
    rw [← List.append_assoc, trimEndChars, dropEndWhile_concat, if_pos hc]
    exact ih fun c hmem => h c (List.mem_append_left _ hmem)

/-- Nothing is lost where the last character is no white space. -/
theorem trimEndChars_of_last (h : ∀ c, s.getLast? = some c → isWhiteSpace c = false) :
    trimEndChars s = s := by
  rcases List.eq_nil_or_concat s with rfl | ⟨init, c, rfl⟩
  · rfl
  · rw [List.concat_eq_append] at h ⊢
    have hc : isWhiteSpace c = false := h c List.getLast?_concat
    rw [trimEndChars, dropEndWhile_concat, if_neg (by simp [hc])]

/-- The last character that is kept is no white space. -/
theorem not_isWhiteSpace_last {c : Char} (h : (trimEndChars s).getLast? = some c) :
    isWhiteSpace c = false := by
  induction s using List.reverseRecOn with
  | nil => exact absurd h (by simp [trimEndChars, dropEndWhile])
  | append_singleton init d ih =>
    rw [trimEndChars, dropEndWhile_concat] at h
    split at h
    · exact ih h
    · rename_i hd
      obtain rfl : d = c := by simpa using h
      simpa using hd

/-- **Trimming** a text leaves what is kept of it. -/
theorem trimmedTo_iff : TrimmedTo s kept ↔ trimEndChars s = kept := by
  constructor
  · rintro ⟨⟨blank, rfl, hblank⟩, hlast⟩
    rw [trimEndChars_append hblank, trimEndChars_of_last hlast]
  · rintro rfl
    exact ⟨exists_append_dropEndWhile isWhiteSpace s, fun c => not_isWhiteSpace_last⟩

/-- The same is kept of two texts just when they differ at their ends only. -/
theorem sameUpToEnd_iff : SameUpToEnd s t ↔ trimEndChars s = trimEndChars t := by
  constructor
  · rintro ⟨common, a, b, rfl, rfl, ha, hb⟩
    rw [trimEndChars_append ha, trimEndChars_append hb]
  · intro h
    obtain ⟨a, hs, ha⟩ := exists_append_dropEndWhile isWhiteSpace s
    obtain ⟨b, ht, hb⟩ := exists_append_dropEndWhile isWhiteSpace t
    exact ⟨trimEndChars s, a, b, hs, h ▸ ht, ha, hb⟩

end Text

open Text

/-! ### Sections -/

/-- **Sections.**  Behind a last section of code only the blank line is lost. -/
theorem renderPrompt_concat_code (parts : List PromptPart) (language content : String) :
    (renderPrompt (parts ++ [PromptPart.code language content])).toList ++ ['\n', '\n'] =
      (parts ++ [PromptPart.code language content]).flatMap PromptPart.render := by
  -- all but the blank line, which ends in the fence
  obtain ⟨init, hinit⟩ : ∃ init,
      (parts ++ [PromptPart.code language content]).flatMap PromptPart.render =
        init ++ ['`'] ++ ['\n', '\n'] := by
    refine ⟨parts.flatMap PromptPart.render ++
      ((PromptPart.code language content).opening ++ trimEndChars content.toList ++
        ['\n', '`', '`']), ?_⟩
    rw [List.flatMap_append, List.flatMap_singleton]
    simp [PromptPart.render, PromptPart.closing, PromptPart.content]
  have hlast : ∀ c, (init ++ ['`']).getLast? = some c → isWhiteSpace c = false := by
    intro c hc
    obtain rfl : '`' = c := by simpa using hc
    decide
  have hblank : ∀ c ∈ ['\n', '\n'], isWhiteSpace c = true :=
    List.forall_mem_cons.mpr ⟨rfl, List.forall_mem_singleton.mpr rfl⟩
  rw [renderPrompt, String.toList_ofList, hinit, trimEndChars_append hblank,
    trimEndChars_of_last hlast]

/-- What stands between the template and the source. -/
def requestLines : String :=
  "\n\n# Source\n\nDocument the following declaration.\n\n```typescript\n"

/-- **The prompt of a document**, with its parts. -/
theorem toList_documentPrompt (template source : String) :
    (documentPrompt template source).toList =
      trimEndChars template.toList ++ requestLines.toList ++ trimEndChars source.toList ++
        "\n```".toList := by
  have hrequest :
      (PromptPart.text (some "Source") "Document the following declaration.").render =
        "# Source\n\nDocument the following declaration.\n\n".toList := by decide
  -- the blank line that the prompt has lost is put behind both sides
  rw [← List.append_cancel_right_eq _ ['\n', '\n']]
  refine (renderPrompt_concat_code [.text none template, .text (some "Source") _] _ _).trans ?_
  rw [List.cons_append, List.flatMap_cons, List.cons_append, List.flatMap_cons, hrequest,
    List.nil_append, List.flatMap_singleton]
  simp [PromptPart.render, PromptPart.opening, PromptPart.content, PromptPart.closing, requestLines]

/-- **What a prompt tells.**  `documentPrompt template source` is the template and the source,
    each `TrimmedTo` the text without the white space at its end, with fixed lines between and
    behind them.  So of two sources for one template, or of two templates for one source, only
    those that are `SameUpToEnd` cannot be told apart.  `renderPrompt` puts down what each
    `PromptPart` renders to, in order, without the blank line at the end if code comes last; and
    each part is rendered with its content but for the white space at its end. -/
theorem prompt_parts :
    (∀ template source : String, ∃ t s, TrimmedTo template.toList t ∧ TrimmedTo source.toList s ∧
      (documentPrompt template source).toList =
        t ++ requestLines.toList ++ s ++ "\n```".toList) ∧
    (∀ template source source' : String,
      documentPrompt template source = documentPrompt template source' ↔
        SameUpToEnd source.toList source'.toList) ∧
    (∀ template template' source : String,
      documentPrompt template source = documentPrompt template' source ↔
        SameUpToEnd template.toList template'.toList) ∧
    (∀ (parts : List PromptPart) (language content : String),
      (renderPrompt (parts ++ [PromptPart.code language content])).toList ++ ['\n', '\n'] =
        (parts ++ [PromptPart.code language content]).flatMap PromptPart.render) ∧
    ∀ part : PromptPart, ∃ kept, TrimmedTo part.content kept ∧
      part.render = part.opening ++ kept ++ part.closing := by
  refine ⟨fun template source => ?_, fun template source source' => ?_,
    fun template template' source => ?_, renderPrompt_concat_code, fun part => ?_⟩
  · exact ⟨_, _, trimmedTo_iff.mpr rfl, trimmedTo_iff.mpr rfl, toList_documentPrompt _ _⟩
  · rw [sameUpToEnd_iff, ← String.toList_inj, toList_documentPrompt, toList_documentPrompt,
      List.append_cancel_right_eq, List.append_cancel_left_eq]
  · rw [sameUpToEnd_iff, ← String.toList_inj, toList_documentPrompt, toList_documentPrompt,
      List.append_cancel_right_eq, List.append_cancel_right_eq, List.append_cancel_right_eq]
  · exact ⟨_, trimmedTo_iff.mpr rfl, rfl⟩

end DeclarationDocs
