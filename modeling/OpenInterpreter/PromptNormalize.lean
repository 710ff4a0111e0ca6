import Mathlib.Data.List.InsertIdx
import OpenInterpreter.PromptItems

/-! Prompt normalization: `core/src/context_manager/normalize.rs` and `normalize_history` of
`core/src/context_manager/history.rs`, as a release build runs them. -/

namespace OpenInterpreter.PromptNormalize

open PromptItems List Function

variable {Metadata : Type} (newV5 : String → String)

def syntheticOutputId (idPrefix : String) (itemId : Option String) : Option String :=
  match itemId with
  | none => none
  | some sourceId =>
    if sourceId = "" then none
    else some (idPrefix ++ "_" ++ newV5 (idPrefix ++ ":" ++ sourceId))

def missingOutput (functionOutputIds toolSearchOutputIds customToolOutputIds : List String) :
    ResponseItem → Option ResponseItem
  | .functionCall id _ _ _ callId =>
    if callId ∈ functionOutputIds then none
    else
      some (.functionCallOutput (syntheticOutputId newV5 "fco" id) (some callId) none none
        (.fromText "aborted"))
  | .toolSearchCall id (some callId) _ _ =>
    if callId ∈ toolSearchOutputIds then none
    else
      some (.toolSearchOutput (syntheticOutputId newV5 "tso" id) (some callId) "completed"
        "client" [])
  | .customToolCall id callId _ _ =>
    if callId ∈ customToolOutputIds then none
    else
      some (.customToolCallOutput (syntheticOutputId newV5 "ctco" id) callId none
        (.fromText "aborted"))
  | .localShellCall id (some callId) _ =>
    if callId ∈ functionOutputIds then none
    else
      some (.functionCallOutput (syntheticOutputId newV5 "fco" id) (some callId) none none
        (.fromText "aborted"))
  | _ => none

variable (items : List (ResponseItemEnvelope Metadata))

def functionOutputIds : List String :=
  items.filterMap fun envelope =>
    match envelope.item with
    | .functionCallOutput _ (some callId) _ _ _ => some callId
    | _ => none

def toolSearchOutputIds : List String :=
  items.filterMap fun envelope =>
    match envelope.item with
    | .toolSearchOutput _ (some callId) _ _ _ => some callId
    | _ => none

def customToolOutputIds : List String :=
  items.filterMap fun envelope =>
    match envelope.item with
    | .customToolCallOutput _ callId _ _ => some callId
    | _ => none

def missingOutputsToInsert : List (Nat × ResponseItemEnvelope Metadata) :=
  items.zipIdx.filterMap fun entry =>
    (missingOutput newV5 (functionOutputIds items) (toolSearchOutputIds items)
      (customToolOutputIds items) entry.1.item).map fun output => (entry.2, ⟨output, none⟩)

def ensureCallOutputsPresent : List (ResponseItemEnvelope Metadata) :=
  (missingOutputsToInsert newV5 items).reverse.foldl
    (fun items missing => items.insertIdx (missing.1 + 1) missing.2) items

def functionCallIds : List String :=
  items.filterMap fun envelope =>
    match envelope.item with
    | .functionCall _ _ _ _ callId => some callId
    | .localShellCall _ (some callId) _ => some callId
    | _ => none

def toolSearchCallIds : List String :=
  items.filterMap fun envelope =>
    match envelope.item with
    | .toolSearchCall _ (some callId) _ _ => some callId
    | _ => none

def customToolCallIds : List String :=
  items.filterMap fun envelope =>
    match envelope.item with
    | .customToolCall _ callId _ _ => some callId
    | _ => none

def isOrphan (functionCallIds toolSearchCallIds customToolCallIds : List String) :
    ResponseItem → Bool
  | .functionCallOutput _ (some callId) _ _ _ => decide (callId ∉ functionCallIds)
  | .customToolCallOutput _ callId _ _ => decide (callId ∉ customToolCallIds)
  | .toolSearchOutput _ (some callId) _ execution _ =>
    decide (execution ≠ "server") && decide (callId ∉ toolSearchCallIds)
  | _ => false

def orphanPositions : List Nat :=
  items.zipIdx.filterMap fun entry =>
    if isOrphan (functionCallIds items) (toolSearchCallIds items) (customToolCallIds items)
        entry.1.item then some entry.2
    else none

/-- The `retain` of `remove_orphan_outputs`. -/
def retainOthers (position : Nat) (orphans : List Nat) :
    List (ResponseItemEnvelope Metadata) → List (ResponseItemEnvelope Metadata)
  | [] => []
  | envelope :: rest =>
    if orphans.head? = some position then retainOthers (position + 1) orphans.tail rest
    else envelope :: retainOthers (position + 1) orphans rest

def removeOrphanOutputs : List (ResponseItemEnvelope Metadata) :=
  retainOthers 0 (orphanPositions items) items

inductive InputModality where
  | text
  | image
  | audio
  deriving DecidableEq

structure UnsupportedMedia where
  text : String
  contentKind : String
  deriving DecidableEq

def UnsupportedMedia.image : UnsupportedMedia :=
  ⟨"image content omitted because you do not support image input", "images.unsupported"⟩

def UnsupportedMedia.audio : UnsupportedMedia :=
  ⟨"audio content omitted because you do not support audio input", "audio.unsupported"⟩

def annotatedContent (content : List ContentItem) (kinds : List String) :
    List (ContentItem × String) :=
  match content, kinds with
  | [], _ => []
  | item :: content, [] => (item, "unknown") :: annotatedContent content []
  | item :: content, kind :: kinds => (item, kind) :: annotatedContent content kinds

def setAnnotatedContent (metadata : Option MessageMetadata)
    (annotated : List (ContentItem × String)) : List ContentItem × Option MessageMetadata :=
  (annotated.map Prod.fst,
    some { metadata.getD {} with contentItemKinds := some (annotated.map Prod.snd) })

variable (unsupported : ContentItem → Bool)

def replaceMedia (media : UnsupportedMedia) (entry : ContentItem × String) : ContentItem × String :=
  if unsupported entry.1 then (.inputText media.text, media.contentKind) else entry

def stripMessage (media : UnsupportedMedia)
    (content : List ContentItem) (metadata : Option MessageMetadata) :
    List ContentItem × Option MessageMetadata :=
  setAnnotatedContent metadata
    ((annotatedContent content ((metadata.bind (·.contentItemKinds)).getD [])).map
      (replaceMedia unsupported media))

def replaceOutputMedia (unsupported : FunctionCallOutputContentItem → Bool)
    (media : UnsupportedMedia) (item : FunctionCallOutputContentItem) :
    FunctionCallOutputContentItem :=
  if unsupported item then .inputText media.text else item

def stripOutput (unsupported : FunctionCallOutputContentItem → Bool) (media : UnsupportedMedia)
    (output : FunctionCallOutputPayload) : FunctionCallOutputPayload :=
  match output.body with
  | .text _ => output
  | .contentItems items =>
    { output with
      body := .contentItems (items.map (replaceOutputMedia unsupported media)) }

def stripMedia (unsupportedContent : ContentItem → Bool)
    (unsupportedOutput : FunctionCallOutputContentItem → Bool) (media : UnsupportedMedia) :
    ResponseItem → ResponseItem
  | .message role content metadata =>
    .message role (stripMessage unsupportedContent media content metadata).1
      (stripMessage unsupportedContent media content metadata).2
  | .functionCallOutput id callId name namespaceName output =>
    .functionCallOutput id callId name namespaceName (stripOutput unsupportedOutput media output)
  | .customToolCallOutput id callId name output =>
    .customToolCallOutput id callId name (stripOutput unsupportedOutput media output)
  | item => item

def isImage : ContentItem → Bool
  | .inputImage _ => true
  | _ => false

def isAudio : ContentItem → Bool
  | .inputAudio _ => true
  | _ => false

def isOutputImage : FunctionCallOutputContentItem → Bool
  | .inputImage _ => true
  | _ => false

def isOutputAudio : FunctionCallOutputContentItem → Bool
  | .inputAudio _ => true
  | _ => false

def stripImages : ResponseItem → ResponseItem
  | .imageGenerationCall _ => .imageGenerationCall ""
  | item => stripMedia isImage isOutputImage .image item

def stripAudio (item : ResponseItem) : ResponseItem :=
  stripMedia isAudio isOutputAudio .audio item

variable (inputModalities : List InputModality)

def stripImagesWhenUnsupported (items : List (ResponseItemEnvelope Metadata)) :
    List (ResponseItemEnvelope Metadata) :=
  if .image ∈ inputModalities then items
  else items.map fun envelope => { envelope with item := stripImages envelope.item }

def stripAudioWhenUnsupported (items : List (ResponseItemEnvelope Metadata)) :
    List (ResponseItemEnvelope Metadata) :=
  if .audio ∈ inputModalities then items
  else items.map fun envelope => { envelope with item := stripAudio envelope.item }

def normalizeHistory (items : List (ResponseItemEnvelope Metadata)) :
    List (ResponseItemEnvelope Metadata) :=
  let items := ensureCallOutputsPresent newV5 items
  let items := removeOrphanOutputs items
  let items := stripImagesWhenUnsupported inputModalities items
  stripAudioWhenUnsupported inputModalities items

variable {α : Type}

theorem insertIdx_length (before after : List α) (item : α) :
    (before ++ after).insertIdx before.length item = before ++ item :: after := by
  induction before with
  | nil => rfl
  | cons head before ih => exact congrArg (head :: ·) ih

theorem foldl_insertIdx (missing : α → Option α) (before items : List α) :
    (((items.zipIdx before.length).filterMap fun entry =>
        (missing entry.1).map fun output => (entry.2, output)).reverse.foldl
      (fun items entry => items.insertIdx (entry.1 + 1) entry.2) (before ++ items)) =
      before ++ items.flatMap fun item => item :: (missing item).toList := by
  induction items generalizing before with
  | nil => simp
  | cons item items ih =>
    have later := ih (before ++ [item])
    rw [length_append, length_singleton, append_assoc, singleton_append]
      at later
    rw [zipIdx_cons, filterMap_cons, flatMap_cons]
    cases missing item with
    | none =>
      rw [Option.map_none]
      rw [later, append_assoc]
      rfl
    | some output =>
      rw [Option.map_some]
      rw [reverse_cons, foldl_append, later]
      have length : before.length + 1 = (before ++ [item]).length := by simp
      simp only [foldl_cons, length, insertIdx_length]
      simp

theorem retainOthers_filter (orphan : ResponseItemEnvelope Metadata → Bool) (position : Nat)
    (items : List (ResponseItemEnvelope Metadata)) :
    retainOthers position ((items.zipIdx position).filterMap fun entry =>
      if orphan entry.1 then some entry.2 else none) items =
      items.filter fun envelope => !orphan envelope := by
  induction items generalizing position with
  | nil => rfl
  | cons envelope items ih =>
    rw [zipIdx_cons, filterMap_cons, filter_cons]
    cases orphaned : orphan envelope with
    | true => simpa [retainOthers] using ih (position + 1)
    | false =>
      have beyond : ((items.zipIdx (position + 1)).filterMap fun entry =>
          if orphan entry.1 then some entry.2 else none).head? ≠ some position := by
        intro first
        have member := mem_of_head? first
        rw [mem_filterMap] at member
        obtain ⟨entry, listed, same⟩ := member
        have bound := le_snd_of_mem_zipIdx listed
        split at same
        · cases same
          omega
        · cases same
      simp only [Bool.false_eq_true, if_false, Bool.not_false, if_true]
      rw [retainOthers, if_neg beyond, ih]

def calls : List (CallKind × String) :=
  items.filterMap fun envelope => callOf envelope.item

def outputs : List (CallKind × String) :=
  items.filterMap fun envelope => outputOf envelope.item

theorem mem_filterMap_congr {β γ : Type} {left : α → Option β} {right : α → Option γ} {value : β}
    {other : γ} (same : ∀ item, left item = some value ↔ right item = some other) (items : List α) :
    value ∈ items.filterMap left ↔ other ∈ items.filterMap right := by
  simp [same]

section

variable (id : String)

theorem mem_outputIds :
    (id ∈ functionOutputIds items ↔ (.function, id) ∈ outputs items) ∧
      (id ∈ toolSearchOutputIds items ↔ (.toolSearch, id) ∈ outputs items) ∧
      (id ∈ customToolOutputIds items ↔ (.custom, id) ∈ outputs items) := by
  refine ⟨?_, ?_, ?_⟩
  all_goals
    apply mem_filterMap_congr
    intro envelope
    cases envelope.item <;> simp [outputOf]
    all_goals split <;> simp_all

theorem mem_callIds :
    (id ∈ functionCallIds items ↔ (.function, id) ∈ calls items) ∧
      (id ∈ toolSearchCallIds items ↔ (.toolSearch, id) ∈ calls items) ∧
      (id ∈ customToolCallIds items ↔ (.custom, id) ∈ calls items) := by
  refine ⟨?_, ?_, ?_⟩
  all_goals
    apply mem_filterMap_congr
    intro envelope
    cases envelope.item <;> simp [callOf]
    all_goals split <;> simp_all

end

def missingFor (envelope : ResponseItemEnvelope Metadata) : Option (ResponseItemEnvelope Metadata) :=
  (missingOutput newV5 (functionOutputIds items) (toolSearchOutputIds items)
    (customToolOutputIds items) envelope.item).map fun output => ⟨output, none⟩

def orphaned (envelope : ResponseItemEnvelope Metadata) : Bool :=
  (clientOutputOf envelope.item).any fun call => decide (call ∉ calls items)

variable {output : ResponseItemEnvelope Metadata}

section

variable (envelope : ResponseItemEnvelope Metadata)

theorem isOrphan_eq :
    isOrphan (functionCallIds items) (toolSearchCallIds items) (customToolCallIds items)
      envelope.item = orphaned items envelope := by
  unfold orphaned
  cases envelope.item with
  | functionCallOutput id callId name namespaceName output =>
    cases callId <;> simp [isOrphan, clientOutputOf, outputOf, mem_callIds]
  | customToolCallOutput id callId name output =>
    simp [isOrphan, clientOutputOf, outputOf, mem_callIds]
  | toolSearchOutput id callId status execution tools =>
    cases callId with
    | none => rfl
    | some callId =>
      by_cases server : execution = "server" <;>
        simp [isOrphan, clientOutputOf, server, mem_callIds]
  | _ => rfl

theorem missingFor_none :
    missingFor newV5 items envelope = none ↔
      ∀ call, callOf envelope.item = some call → call ∈ outputs items := by
  unfold missingFor
  cases envelope.item with
  | functionCall id name namespaceName arguments callId =>
    simp [missingOutput, callOf, mem_outputIds]
  | localShellCall id callId action =>
    cases callId <;> simp [missingOutput, callOf, mem_outputIds]
  | toolSearchCall id callId execution arguments =>
    cases callId <;> simp [missingOutput, callOf, mem_outputIds]
  | customToolCall id callId name input =>
    simp [missingOutput, callOf, mem_outputIds]
  | _ => simp [missingOutput, callOf]

theorem missingFor_some (missing : missingFor newV5 items envelope = some output) :
    ∃ call, callOf envelope.item = some call ∧ outputOf output.item = some call ∧
      clientOutputOf output.item = some call ∧ callOf output.item = none := by
  obtain ⟨item, inserted, rfl⟩ := Option.map_eq_some_iff.mp missing
  unfold missingOutput at inserted
  split at inserted
  all_goals try split at inserted
  all_goals cases inserted
  all_goals simp_all [callOf, outputOf, clientOutputOf]

end

variable {call : CallKind × String} {envelope : ResponseItemEnvelope Metadata}

theorem clientOutputOf_call {item : ResponseItem} (called : callOf item = some call) :
    clientOutputOf item = none := by
  cases item <;> first | rfl | simp [callOf] at called

theorem flatMap_filter_of_group (keep : α → Bool) (group : α → List α) (items : List α)
    (whole : ∀ item ∈ items, (group item).filter keep = if keep item then group item else []) :
    (items.flatMap fun item => (group item).filter keep) = (items.filter keep).flatMap group := by
  induction items with
  | nil => rfl
  | cons item items ih =>
    obtain ⟨first, rest⟩ := forall_mem_cons.mp whole
    rw [flatMap_cons, first, ih rest, filter_cons]
    split
    · rw [flatMap_cons]
    · rfl

theorem ensureCallOutputsPresent_eq :
    ensureCallOutputsPresent newV5 items =
      items.flatMap fun envelope => envelope :: (missingFor newV5 items envelope).toList := by
  have inserted := foldl_insertIdx (missingFor newV5 items) [] items
  rw [nil_append, nil_append] at inserted
  rw [← inserted, ensureCallOutputsPresent]
  congr 2
  apply filterMap_congr
  intro entry _
  simp only [missingFor, Option.map_map]
  rfl

theorem removeOrphanOutputs_eq :
    removeOrphanOutputs items = items.filter fun envelope => !orphaned items envelope := by
  rw [← retainOthers_filter (orphaned items) 0 items, removeOrphanOutputs, orphanPositions]
  simp [isOrphan_eq]

theorem calls_ensured :
    calls (ensureCallOutputsPresent newV5 items) = calls items := by
  have unheard : ∀ envelope, (missingFor newV5 items envelope).toList.filterMap
      (fun envelope => callOf envelope.item) = [] := by
    intro envelope
    cases missing : missingFor newV5 items envelope with
    | none => rfl
    | some output =>
      obtain ⟨_, _, _, _, silent⟩ := missingFor_some newV5 items envelope missing
      simp [silent]
  rw [ensureCallOutputsPresent_eq, calls, filterMap_flatMap, calls]
  simp only [filterMap_cons, unheard]
  rw [filterMap_eq_flatMap_toList]
  apply flatMap_congr
  intro envelope _
  cases callOf envelope.item <;> rfl

theorem paired_eq :
    removeOrphanOutputs (ensureCallOutputsPresent newV5 items) =
      (items.filter fun envelope => !orphaned items envelope).flatMap fun envelope =>
        envelope :: (missingFor newV5 items envelope).toList := by
  have same : ∀ envelope, orphaned (ensureCallOutputsPresent newV5 items) envelope =
      orphaned items envelope := by
    intro envelope
    rw [orphaned, calls_ensured, orphaned]
  rw [removeOrphanOutputs_eq]
  simp only [same]
  rw [ensureCallOutputsPresent_eq, filter_flatMap]
  apply flatMap_filter_of_group
  intro envelope listed
  cases missing : missingFor newV5 items envelope with
  | none => simp [filter_cons]
  | some output =>
    obtain ⟨call, called, _, answers, _⟩ := missingFor_some newV5 items envelope missing
    have kept : orphaned items output = false := by
      have known : call ∈ calls items := mem_filterMap.mpr ⟨envelope, listed, called⟩
      simp [orphaned, answers, known]
    have caller : orphaned items envelope = false := by
      rw [orphaned, clientOutputOf_call called]
      rfl
    simp [kept, caller]

def stripUnsupported (item : ResponseItem) : ResponseItem :=
  let item := if .image ∈ inputModalities then item else stripImages item
  if .audio ∈ inputModalities then item else stripAudio item

def stripEnvelope (envelope : ResponseItemEnvelope Metadata) : ResponseItemEnvelope Metadata :=
  { envelope with item := stripUnsupported inputModalities envelope.item }

variable (inputModalities : List InputModality)

theorem stripped_eq :
    stripAudioWhenUnsupported inputModalities
      (stripImagesWhenUnsupported inputModalities items) =
        items.map (stripEnvelope inputModalities) := by
  unfold stripAudioWhenUnsupported stripImagesWhenUnsupported stripEnvelope stripUnsupported
  by_cases image : InputModality.image ∈ inputModalities <;>
    by_cases audio : InputModality.audio ∈ inputModalities <;> simp [image, audio]

def paired : List (ResponseItemEnvelope Metadata) :=
  (items.filter fun envelope => !orphaned items envelope).flatMap fun envelope =>
    envelope :: (missingFor newV5 items envelope).toList

theorem normalizeHistory_eq :
    normalizeHistory newV5 inputModalities items =
      (paired newV5 items).map (stripEnvelope inputModalities) := by
  rw [normalizeHistory, stripped_eq, paired_eq]
  rfl

theorem mem_paired (envelope : ResponseItemEnvelope Metadata) :
    envelope ∈ paired newV5 items ↔ ∃ source ∈ items, orphaned items source = false ∧
      (envelope = source ∨ missingFor newV5 items source = some envelope) := by
  simp [paired, and_assoc]

variable {items}

theorem stripMedia_calls (unsupportedContent : ContentItem → Bool)
    (unsupportedOutput : FunctionCallOutputContentItem → Bool) (media : UnsupportedMedia)
    (item : ResponseItem) :
    callOf (stripMedia unsupportedContent unsupportedOutput media item) = callOf item ∧
      outputOf (stripMedia unsupportedContent unsupportedOutput media item) = outputOf item ∧
      clientOutputOf (stripMedia unsupportedContent unsupportedOutput media item) =
        clientOutputOf item := by
  cases item with
  | functionCallOutput id callId name namespaceName output =>
    cases callId <;> exact ⟨rfl, rfl, rfl⟩
  | _ => exact ⟨rfl, rfl, rfl⟩

variable (item : ResponseItem)

theorem stripImages_calls :
    callOf (stripImages item) = callOf item ∧ outputOf (stripImages item) = outputOf item ∧
      clientOutputOf (stripImages item) = clientOutputOf item := by
  unfold stripImages
  split
  · exact ⟨rfl, rfl, rfl⟩
  · exact stripMedia_calls ..

theorem strip_calls :
    callOf (stripUnsupported inputModalities item) = callOf item ∧
      outputOf (stripUnsupported inputModalities item) = outputOf item ∧
      clientOutputOf (stripUnsupported inputModalities item) = clientOutputOf item := by
  have images := stripImages_calls item
  have audio := stripMedia_calls isAudio isOutputAudio .audio
  unfold stripUnsupported stripAudio
  split <;> split <;> simp_all

theorem annotatedContent_unzip (annotated : List (ContentItem × String)) :
    annotatedContent (annotated.map Prod.fst) (annotated.map Prod.snd) = annotated := by
  induction annotated with
  | nil => rfl
  | cons entry annotated ih => exact congrArg (entry :: ·) ih

theorem annotatedContent_fst (content : List ContentItem) (kinds : List String) :
    (annotatedContent content kinds).map Prod.fst = content := by
  induction content generalizing kinds with
  | nil => rfl
  | cons item content ih => cases kinds <;> exact congrArg (item :: ·) (ih _)

/-- Stripping keeps the pieces of a message in number and order, and each piece that can be sent. -/
theorem stripMessage_content (media : UnsupportedMedia)
    (content : List ContentItem) (metadata : Option MessageMetadata) :
    (stripMessage unsupported media content metadata).1 =
      content.map fun item => if unsupported item then .inputText media.text else item := by
  conv_rhs => rw [← annotatedContent_fst content ((metadata.bind (·.contentItemKinds)).getD [])]
  rw [map_map]
  refine (map_map ..).trans (map_congr_left fun entry _ => ?_)
  simp only [comp_apply, replaceMedia]
  split <;> rfl

theorem stripMessage_set (media : UnsupportedMedia)
    (metadata : Option MessageMetadata) (annotated : List (ContentItem × String)) :
    stripMessage unsupported media (setAnnotatedContent metadata annotated).1
      (setAnnotatedContent metadata annotated).2 =
        setAnnotatedContent metadata (annotated.map (replaceMedia unsupported media)) := by
  simp [stripMessage, setAnnotatedContent, annotatedContent_unzip]

/-- Each of the two replacements leaves what it has made as it is, and the first also what the
second made of that. -/
def Steady {α : Type} (first second : α → α) : Prop :=
  ∀ value, first (first value) = first value ∧ second (second value) = second value ∧
    first (second (first value)) = second (first value)

theorem replaceMedia_again :
    Steady (replaceMedia isImage .image) (replaceMedia isAudio .audio) := by
  rintro ⟨content, kind⟩
  cases content <;> exact ⟨rfl, rfl, rfl⟩

theorem replaceOutputMedia_again :
    Steady (replaceOutputMedia isOutputImage .image) (replaceOutputMedia isOutputAudio .audio) := by
  intro item
  cases item <;> exact ⟨rfl, rfl, rfl⟩

theorem stripOutput_again :
    Steady (stripOutput isOutputImage .image) (stripOutput isOutputAudio .audio) := by
  rintro ⟨body, success⟩
  cases body with
  | text content => exact ⟨rfl, rfl, rfl⟩
  | contentItems items =>
    have again := replaceOutputMedia_again
    unfold Steady at again
    simp [stripOutput, again]

theorem stripMessage_again (content : List ContentItem) (metadata : Option MessageMetadata) :
    let images := stripMessage isImage .image content metadata
    let audio := stripMessage isAudio .audio content metadata
    let both := stripMessage isAudio .audio images.1 images.2
    stripMessage isImage .image images.1 images.2 = images ∧
      stripMessage isAudio .audio audio.1 audio.2 = audio ∧
      stripMessage isImage .image both.1 both.2 = both := by
  have again := replaceMedia_again
  unfold Steady at again
  intro images audio both
  have bothEq : both = setAnnotatedContent metadata (((annotatedContent content
      ((metadata.bind (·.contentItemKinds)).getD [])).map (replaceMedia isImage .image)).map
        (replaceMedia isAudio .audio)) := stripMessage_set ..
  refine ⟨?_, ?_, ?_⟩
  · rw [show images = setAnnotatedContent metadata _ from rfl, stripMessage_set]
    simp [again, comp_def]
  · rw [show audio = setAnnotatedContent metadata _ from rfl, stripMessage_set]
    simp [again, comp_def]
  · rw [bothEq, stripMessage_set]
    simp [again, comp_def]

theorem strip_again : Steady stripImages stripAudio := by
  intro item
  cases item with
  | message role content metadata =>
    have again := stripMessage_again content metadata
    simp only [stripImages, stripAudio, stripMedia]
    simp only [again]
    trivial
  | functionCallOutput _ _ _ _ output | customToolCallOutput _ _ _ output =>
    have again := stripOutput_again output
    simp [stripImages, stripAudio, stripMedia, again]
  | _ => exact ⟨rfl, rfl, rfl⟩

theorem strip_idempotent :
    stripUnsupported inputModalities (stripUnsupported inputModalities item) =
      stripUnsupported inputModalities item := by
  have own := strip_again item
  have images := strip_again (stripImages item)
  unfold stripUnsupported
  by_cases image : InputModality.image ∈ inputModalities <;>
    by_cases audio : InputModality.audio ∈ inputModalities <;> simp [image, audio, own, images]

theorem mem_paired_of_not_output (listed : envelope ∈ items)
    (other : clientOutputOf envelope.item = none) : envelope ∈ paired newV5 items := by
  apply (mem_paired newV5 items envelope).mpr
  refine ⟨envelope, listed, ?_, .inl rfl⟩
  rw [orphaned, other]
  rfl

theorem clientOutputOf_cases :
    clientOutputOf item = none ∨ clientOutputOf item = outputOf item := by
  cases item with
  | toolSearchOutput id callId status execution tools =>
    cases callId with
    | none => exact .inl rfl
    | some callId =>
      by_cases server : execution = "server"
      · exact .inl (if_pos server)
      · exact .inr (if_neg server)
  | _ => exact .inr rfl

theorem output_of_call (called : call ∈ calls (paired newV5 items)) :
    call ∈ outputs (paired newV5 items) := by
  obtain ⟨envelope, listed, calls⟩ := mem_filterMap.mp called
  obtain ⟨source, member, kept, same | missing⟩ := (mem_paired newV5 items envelope).mp listed
  · subst same
    cases found : missingFor newV5 items envelope with
    | none =>
      have answered := (missingFor_none newV5 items envelope).mp found call calls
      obtain ⟨output, there, answers⟩ := mem_filterMap.mp answered
      apply mem_filterMap.mpr
      refine ⟨output, ?_, answers⟩
      cases clientOutputOf_cases output.item with
      | inl server => exact mem_paired_of_not_output newV5 there server
      | inr client =>
        apply (mem_paired newV5 items output).mpr
        refine ⟨output, there, ?_, .inl rfl⟩
        have known : call ∈ PromptNormalize.calls items :=
          mem_filterMap.mpr ⟨envelope, member, calls⟩
        simp [orphaned, client, answers, known]
    | some output =>
      obtain ⟨_, called, answers, _⟩ := missingFor_some newV5 items envelope found
      cases calls.symm.trans called
      apply mem_filterMap.mpr
      exact ⟨output, (mem_paired newV5 items output).mpr ⟨envelope, member, kept, .inr found⟩,
        answers⟩
  · obtain ⟨_, _, _, _, silent⟩ := missingFor_some newV5 items source missing
    cases silent.symm.trans calls

theorem call_of_output (listed : envelope ∈ paired newV5 items)
    (answers : clientOutputOf envelope.item = some call) : call ∈ calls (paired newV5 items) := by
  have kept : ∀ caller ∈ items, callOf caller.item = some call →
      call ∈ calls (paired newV5 items) := by
    intro caller member called
    exact mem_filterMap.mpr
      ⟨caller, mem_paired_of_not_output newV5 member (clientOutputOf_call called), called⟩
  obtain ⟨source, member, notOrphan, same | missing⟩ := (mem_paired newV5 items envelope).mp listed
  · subst same
    have known : call ∈ calls items := by
      simpa [orphaned, answers] using notOrphan
    obtain ⟨caller, there, called⟩ := mem_filterMap.mp known
    exact kept caller there called
  · obtain ⟨_, called, _, client, _⟩ := missingFor_some newV5 items source missing
    cases answers.symm.trans client
    exact kept source member called

theorem strip_missing (missing : missingFor newV5 items envelope = some output) :
    stripEnvelope inputModalities output = output := by
  have plain : stripImages output.item = output.item ∧ stripAudio output.item = output.item := by
    obtain ⟨item, inserted, rfl⟩ := Option.map_eq_some_iff.mp missing
    unfold missingOutput at inserted
    split at inserted
    all_goals try split at inserted
    all_goals cases inserted
    all_goals exact ⟨rfl, rfl⟩
  unfold stripEnvelope stripUnsupported
  split <;> split <;> simp_all

theorem calls_strip (items : List (ResponseItemEnvelope Metadata)) :
    calls (items.map (stripEnvelope inputModalities)) = calls items := by
  simp [calls, comp_def, stripEnvelope, strip_calls]

theorem outputs_strip (items : List (ResponseItemEnvelope Metadata)) :
    outputs (items.map (stripEnvelope inputModalities)) = outputs items := by
  simp [outputs, comp_def, stripEnvelope, strip_calls]

theorem paired_self (answered : ∀ call ∈ calls items, call ∈ outputs items)
    (owned : ∀ envelope ∈ items, ∀ call, clientOutputOf envelope.item = some call →
      call ∈ calls items) : paired newV5 items = items := by
  have complete : ∀ envelope ∈ items, missingFor newV5 items envelope = none := by
    intro envelope listed
    apply (missingFor_none newV5 items envelope).mpr
    intro call called
    exact answered call (mem_filterMap.mpr ⟨envelope, listed, called⟩)
  have kept : (items.filter fun envelope => !orphaned items envelope) = items := by
    apply filter_eq_self.mpr
    intro envelope listed
    cases answers : clientOutputOf envelope.item with
    | none => simp [orphaned, answers]
    | some call => simp [orphaned, answers, owned envelope listed call answers]
  rw [paired, kept, flatMap_congr (g := fun envelope => [envelope])]
  · exact flatMap_singleton' items
  · intro envelope listed
    rw [complete envelope listed]
    rfl

/-- After normalization every call has an output of its kind and id and every client-side output
its call; the other items and the paired ones stand as before, and what is inserted stands behind
its call; and normalizing again changes nothing. -/
theorem normalized_history_paired (inputModalities : List InputModality)
    (items : List (ResponseItemEnvelope Metadata)) :
    (∀ call ∈ calls (normalizeHistory newV5 inputModalities items),
      call ∈ outputs (normalizeHistory newV5 inputModalities items)) ∧
    (∀ envelope ∈ normalizeHistory newV5 inputModalities items, ∀ call,
      clientOutputOf envelope.item = some call →
        call ∈ calls (normalizeHistory newV5 inputModalities items)) ∧
    normalizeHistory newV5 inputModalities items =
      ((items.filter fun envelope => !orphaned items envelope).flatMap fun envelope =>
        stripEnvelope inputModalities envelope :: (missingFor newV5 items envelope).toList) ∧
    (∀ envelope ∈ items, ∀ output, missingFor newV5 items envelope = some output →
      ∃ call, callOf envelope.item = some call ∧ call ∉ outputs items ∧
        outputOf output.item = some call) ∧
    normalizeHistory newV5 inputModalities (normalizeHistory newV5 inputModalities items) =
      normalizeHistory newV5 inputModalities items := by
  have answered : ∀ call ∈ calls (normalizeHistory newV5 inputModalities items),
      call ∈ outputs (normalizeHistory newV5 inputModalities items) := by
    intro call called
    rw [normalizeHistory_eq, calls_strip] at called
    rw [normalizeHistory_eq, outputs_strip]
    exact output_of_call newV5 called
  have owned : ∀ envelope ∈ normalizeHistory newV5 inputModalities items, ∀ call,
      clientOutputOf envelope.item = some call →
        call ∈ calls (normalizeHistory newV5 inputModalities items) := by
    intro envelope listed call answers
    rw [normalizeHistory_eq] at listed
    obtain ⟨source, member, rfl⟩ := mem_map.mp listed
    rw [normalizeHistory_eq, calls_strip]
    apply call_of_output newV5 member
    exact (strip_calls inputModalities source.item).2.2.symm.trans answers
  refine ⟨answered, owned, ?_, ?_, ?_⟩
  · rw [normalizeHistory_eq, paired, map_flatMap]
    apply flatMap_congr
    intro envelope _
    cases missing : missingFor newV5 items envelope with
    | none => rfl
    | some output => simp [strip_missing newV5 inputModalities missing]
  · intro envelope _ output missing
    obtain ⟨call, called, answers, _⟩ := missingFor_some newV5 items envelope missing
    refine ⟨call, called, ?_, answers⟩
    intro present
    have none := (missingFor_none newV5 items envelope).mpr (by
      intro other again
      cases called.symm.trans again
      exact present)
    cases missing.symm.trans none
  · rw [normalizeHistory_eq newV5 (normalizeHistory newV5 inputModalities items),
      paired_self newV5 answered owned]
    rw [normalizeHistory_eq, map_map]
    apply map_congr_left
    simp [stripEnvelope, strip_idempotent]

end OpenInterpreter.PromptNormalize
