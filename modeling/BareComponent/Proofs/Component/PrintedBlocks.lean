import BareComponent.Component.Blocks
import BareComponent.Proofs.Pattern.Ensures
import BareComponent.Proofs.Text.Occurrence

/-! # Printed blocks

A component is printed as its blocks in any order, with newlines around them. Taking a printed
component apart gives back what its blocks hold, without the white space around it. A template may
hold templates in turn, balanced or not, since it reaches to the last closing tag. Only a template
that holds nothing at all is not given back.
-/

namespace BareComponent

open Cursor Pattern Text

/-- The kinds of blocks. -/
inductive BlockKind where
  | template
  | script
  | setup
deriving DecidableEq, Repr

namespace BlockKind

def opening : BlockKind → List Char
  | template => "template>".toList
  | script => "script>".toList
  | setup => "script setup>".toList

def closing : BlockKind → List Char
  | template => "/template>".toList
  | script | setup => "/script>".toList

/-- The tags of a template, without their angle bracket. -/
def templateTags : List (List Char) := ["template".toList, "/template>".toList]

/-- What tags may not occur in a block, without their angle bracket. -/
def foreign : BlockKind → List (List Char)
  | template => ["script".toList]
  | script | setup => "script".toList :: "/script>".toList :: templateTags

private theorem apart {kind : BlockKind} (script : kind ≠ template) :
    ∀ tag ∈ templateTags, tag ∈ kind.foreign ∧ tag.head? ≠ kind.opening.head? ∧
      ¬ '<' :: tag <:+: '<' :: kind.closing := by
  cases kind with
  | template => exact absurd rfl script
  | script => decide +kernel
  | setup => decide +kernel

end BlockKind

/-- A block of a component and what it holds. -/
structure PrintedBlock where
  kind : BlockKind
  content : List Char
  valid : ∀ tag ∈ kind.foreign, ¬ '<' :: tag <:+: content

namespace PrintedBlock

def spelled (block : PrintedBlock) : List Char :=
  '<' :: block.kind.opening ++ (block.content ++ '<' :: block.kind.closing)

/-- Whether a component is printed as these blocks, with any number of newlines around them. -/
inductive Prints : List PrintedBlock → List Char → Prop
  | nil : Prints [] []
  | newline {blocks text} : Prints blocks text → Prints blocks ('\n' :: text)
  | block (block) {blocks text} : Prints blocks text →
    Prints (block :: blocks) (block.spelled ++ text)

def contentOf (kind : BlockKind) (blocks : List PrintedBlock) : Option (List Char) :=
  (blocks.find? (·.kind = kind)).map (·.content)

/-- The script block that is read where a block is printed. -/
def scriptBlock? (block : PrintedBlock) : Option ScriptBlock :=
  match block.kind with
  | .template => none
  | .script => some ⟨[], (encode block.content).trim⟩
  | .setup => some ⟨ofString " setup", (encode block.content).trim⟩

section Tags

variable {blocks : List PrintedBlock} {block : PrintedBlock} {text front tag : List Char}

private theorem infix_spelled_iff (block : PrintedBlock) (once : '<' ∉ tag) :
    '<' :: tag <:+: block.spelled ↔
      '<' :: tag <+: block.spelled ∨ '<' :: tag <:+: block.content ∨
        '<' :: tag <:+: '<' :: block.kind.closing := by
  have opening : '<' ∉ block.kind.opening := by cases block.kind <;> decide
  rw [spelled, List.cons_append, List.infix_cons_iff, cons_infix_append_iff opening,
    cons_infix_append_cons_iff once]

private theorem Prints.head (prints : Prints blocks text) :
    text = [] ∨ ∃ c rest, text = c :: rest ∧ c ∈ ['<', '\n'] := by
  cases prints with
  | nil => exact .inl rfl
  | newline => exact .inr ⟨_, _, rfl, by decide⟩
  | block => exact .inr ⟨_, _, rfl, by decide⟩

private theorem Prints.infix_append_iff (prints : Prints blocks text)
    (plain : ∀ c ∈ ['<', '\n'], c ∉ tag) : '<' :: tag <:+: front ++ text ↔
      '<' :: tag <:+: front ∨ '<' :: tag <:+: text := by
  rcases prints.head with rfl | ⟨c, rest, rfl, first⟩
  · simp
  · exact cons_infix_append_cons_iff (plain c first)

private theorem Prints.prefix_append_iff (prints : Prints blocks text)
    (plain : ∀ c ∈ ['<', '\n'], c ∉ tag) (nonempty : front ≠ []) :
    '<' :: tag <+: front ++ text ↔ '<' :: tag <+: front := by
  obtain ⟨d, front, rfl⟩ := List.exists_cons_of_ne_nil nonempty
  rcases prints.head with rfl | ⟨c, rest, rfl, first⟩
  · rw [List.append_nil]
  · rw [List.cons_append, List.cons_prefix_cons, List.cons_prefix_cons,
      prefix_append_cons_iff (plain c first)]

private theorem head?_eq_of_begins (nonempty : tag ≠ [])
    (begins : '<' :: tag <+: block.spelled) : tag.head? = block.kind.opening.head? := by
  have opening : block.kind.opening ≠ [] := by cases block.kind <;> decide
  rw [spelled, List.cons_append, List.cons_prefix_cons] at begins
  obtain ⟨rest, same⟩ := begins.2
  rw [← List.head?_append_of_ne_nil tag nonempty, same, List.head?_append_of_ne_nil _ opening]

private theorem Prints.not_infix (prints : Prints blocks text)
    (scripts : ∀ block ∈ blocks, block.kind ≠ .template) :
    ∀ tag ∈ BlockKind.templateTags, ¬ '<' :: tag <:+: text := by
  intro tag member
  obtain ⟨nonempty, noLess, noLine⟩ := (forall_mem_of_all (by decide) :
    ∀ tag ∈ BlockKind.templateTags, tag ≠ [] ∧ '<' ∉ tag ∧ '\n' ∉ tag) tag member
  have plain : ∀ c ∈ ['<', '\n'], c ∉ tag := by simp [noLess, noLine]
  induction prints with
  | nil => simp
  | newline _ ih =>
    rw [List.infix_cons_iff, List.cons_prefix_cons, not_or]
    exact ⟨fun begins => absurd begins.1 (by decide), ih scripts⟩
  | block block prints ih =>
    obtain ⟨script, others⟩ := List.forall_mem_cons.mp scripts
    obtain ⟨foreign, opening, closing⟩ := BlockKind.apart script tag member
    rw [prints.infix_append_iff plain, infix_spelled_iff block noLess]
    rintro ((begins | inside | closes) | later)
    · exact opening (head?_eq_of_begins nonempty begins)
    · exact block.valid tag foreign inside
    · exact closing closes
    · exact ih others later

private theorem not_infix_template (template : block.kind = .template) :
    ¬ '<' :: "script".toList <:+: block.spelled := by
  have closing : ¬ '<' :: "script".toList <:+: '<' :: BlockKind.template.closing := by
    decide +kernel
  have foreign : "script".toList ∈ block.kind.foreign := by rw [template]; decide
  rw [infix_spelled_iff block (by decide), template]
  rintro (begins | inside | closes)
  · have same := head?_eq_of_begins (by decide) begins
    rw [template] at same
    exact absurd same (by decide)
  · exact block.valid _ foreign inside
  · exact closing closes

end Tags

section Scripts

variable {blocks : List PrintedBlock} {text before after : List Char}

private theorem greater_iff {c : Char} : CharacterClass.noneOf ">" c.toNat = true ↔ c ≠ '>' := by
  have member : CharacterClass.oneOf ">" c.toNat = true ↔ c ∈ ['>'] :=
    CharacterClass.oneOf_encode (forall_mem_of_all (by decide)) c
  rw [CharacterClass.noneOf, Bool.not_eq_true', ← Bool.not_eq_true, member, List.mem_singleton]

private def scriptOpening : List Char := "<script".toList

private def scriptClosing : List Char := "</script>".toList

private def scriptTag (attributes content : List Char) : List Char :=
  scriptOpening ++ attributes ++ '>' :: (content ++ scriptClosing)

private theorem scriptTag_append (attributes content rest : List Char) :
    scriptTag attributes content ++ rest =
      scriptOpening ++ (attributes ++ '>' :: (content ++ (scriptClosing ++ rest))) := by
  simp only [scriptTag, List.append_assoc, List.cons_append]

private def scriptSpans (before attributes content : List Char) : Span × Span :=
  (⟨(encode (before ++ scriptOpening)).length,
    (encode (before ++ scriptOpening ++ attributes)).length⟩,
   ⟨(encode (before ++ scriptOpening ++ attributes ++ ['>'])).length,
    (encode (before ++ scriptOpening ++ attributes ++ ['>'] ++ content)).length⟩)

section Parts

variable {value : Unit} {cursor : Cursor}

private theorem mem_scriptOpening :
    (value, cursor) ∈ Pattern.literal "<script" (between before after) ↔
    ∃ rest, after = scriptOpening ++ rest ∧ cursor = between (before ++ scriptOpening) rest := by
  have spelled : ofString "<script" = encode scriptOpening := rfl
  rw [spelled, mem_literal]

private theorem mem_scriptClosing :
    (value, cursor) ∈ Pattern.literal "</script>" (between before after) ↔
    ∃ rest, after = scriptClosing ++ rest ∧ cursor = between (before ++ scriptClosing) rest := by
  have spelled : ofString "</script>" = encode scriptClosing := rfl
  rw [spelled, mem_literal]

private theorem mem_upToClosing :
    (value, cursor) ∈ Pattern.upTo "</script>" (between before after) ↔
    ∃ passed rest, after = passed ++ rest ∧
      (encode after).indexOf? (ofString "</script>") = some (encode passed).length ∧
        cursor = between (before ++ passed) rest := by
  have spelled : ofString "</script>" = Byte.less :: ofString "/script>" := rfl
  rw [spelled, mem_upTo (by decide)]

end Parts

private theorem exists_of_mem_scriptBlock {value : Span × Span} {cursor : Cursor}
    (member : (value, cursor) ∈ ScriptBlock.pattern (between before after)) :
    ∃ attributes content rest, after = scriptTag attributes content ++ rest ∧ '>' ∉ attributes ∧
      (encode (content ++ (scriptClosing ++ rest))).indexOf? (ofString "</script>") =
        some (encode content).length ∧
      value = scriptSpans before attributes content ∧
      cursor = between (before ++ scriptTag attributes content) rest := by
  obtain ⟨_, _, opens, member⟩ := mem_bind.mp member
  obtain ⟨_, rfl, rfl⟩ := mem_scriptOpening.mp opens
  obtain ⟨_, _, attributed, member⟩ := mem_bind.mp member
  obtain ⟨here, rfl⟩ := mem_spanned.mp attributed
  obtain ⟨attributes, _, rfl, inside, -, rfl⟩ := mem_run.mp here
  obtain ⟨_, _, greater, member⟩ := mem_bind.mp member
  obtain ⟨_, rfl, rfl⟩ := exists_of_mem_literal (c := '>') rfl greater
  obtain ⟨_, _, contained, member⟩ := mem_bind.mp member
  obtain ⟨there, rfl⟩ := mem_spanned.mp contained
  obtain ⟨content, _, rfl, first, rfl⟩ := mem_upToClosing.mp there
  obtain ⟨_, _, closes, member⟩ := mem_bind.mp member
  obtain ⟨rest, rfl, rfl⟩ := mem_scriptClosing.mp closes
  obtain ⟨rfl, rfl⟩ := mem_pure.mp member
  refine ⟨attributes, content, rest, ?_, ?_, first, ?_, ?_⟩
  · rw [scriptTag_append]
  · exact fun greater => greater_iff.mp (inside _ greater) rfl
  · simp only [position_between, scriptSpans]
  · simp only [scriptTag, List.append_assoc, List.cons_append, List.nil_append]

private theorem matchAt?_scriptBlock {attributes content : List Char} (before rest : List Char)
    (free : '>' ∉ attributes) (absent : ¬ '<' :: "/script>".toList <:+: content) :
    matchAt? ScriptBlock.pattern (between before (scriptTag attributes content ++ rest)) =
      some ⟨⟨(encode before).length, (encode (before ++ scriptTag attributes content)).length⟩,
        scriptSpans before attributes content⟩ := by
  have first : (encode (content ++ (scriptClosing ++ rest))).indexOf? (ofString "</script>") =
      some (encode content).length := by
    rw [encode_append, encode_append]
    exact indexOf?_eq_length (b := Byte.less) (by decide)
      (fun inside => absent (encode_infix_iff.mp inside)) (encode rest)
  refine matchAt?_of_unique (by simp [scriptTag]) ?_ fun value cursor member => ?_
  · rw [scriptTag_append]
    refine mem_bind.mpr ⟨(), _, mem_scriptOpening.mpr ⟨_, rfl, rfl⟩, ?_⟩
    refine mem_bind.mpr ⟨_, _, mem_spanned.mpr ⟨mem_run.mpr ⟨attributes, _, rfl, fun c inside => ?_,
      head?_outside (by decide) _, rfl⟩, rfl⟩, ?_⟩
    · exact greater_iff.mpr fun greater => free (greater ▸ inside)
    refine mem_bind.mpr ⟨(), _, literal_mem _ ['>'] _, ?_⟩
    refine mem_bind.mpr ⟨_, _, mem_spanned.mpr ⟨mem_upToClosing.mpr
      ⟨content, _, rfl, first, rfl⟩, rfl⟩, ?_⟩
    refine mem_bind.mpr ⟨(), _, mem_scriptClosing.mpr ⟨rest, rfl, rfl⟩, ?_⟩
    refine mem_pure.mpr ⟨?_, ?_⟩
    · simp only [position_between, scriptSpans]
    · simp only [scriptTag, List.append_assoc, List.cons_append, List.nil_append]
  · obtain ⟨others, another, behind, split, closed, found, rfl, rfl⟩ :=
      exists_of_mem_scriptBlock member
    rw [scriptTag_append, scriptTag_append, List.append_cancel_left_eq] at split
    obtain ⟨rfl, -, contents⟩ := append_cons_inj_of_front (fun c => c ≠ '>') split (by simp)
      (by simp) (fun c inside same => free (same ▸ inside))
      (fun c inside same => closed (same ▸ inside))
    rw [← contents, first] at found
    obtain rfl := append_inj_of_length contents (Option.some.inj found)
    rw [List.append_cancel_left_eq, List.append_cancel_left_eq] at contents
    exact ⟨rfl, by rw [contents]⟩

private def readIn (source : List Char) (found : Match (Span × Span)) : ScriptBlock :=
  ⟨(encode source).slice found.value.1, ((encode source).slice found.value.2).trim⟩

private theorem readIn_scriptSpans (before attributes content rest : List Char) (span : Span) :
    readIn (before ++ (scriptTag attributes content ++ rest))
      ⟨span, scriptSpans before attributes content⟩ =
        ⟨encode attributes, (encode content).trim⟩ := by
  have slice (front piece behind : List Char) :
      (encode (front ++ piece ++ behind)).slice
        ⟨(encode front).length, (encode (front ++ piece)).length⟩ = encode piece := by
    rw [encode_append _ behind, encode_append front piece]
    exact slice_append _ rfl List.length_append.symm
  have attributed : before ++ (scriptTag attributes content ++ rest) =
      before ++ scriptOpening ++ attributes ++ '>' :: (content ++ (scriptClosing ++ rest)) := by
    rw [scriptTag_append, List.append_assoc, List.append_assoc]
  have contained : before ++ (scriptTag attributes content ++ rest) =
      before ++ scriptOpening ++ attributes ++ ['>'] ++ content ++ (scriptClosing ++ rest) := by
    rw [attributed]
    simp only [List.append_assoc, List.cons_append, List.nil_append]
  refine ScriptBlock.mk.injEq .. ▸ ⟨?_, ?_⟩
  · rw [attributed]
    exact slice (before ++ scriptOpening) attributes _
  · rw [contained]
    exact congrArg trim (slice (before ++ scriptOpening ++ attributes ++ ['>']) content _)

private theorem matchAt?_eq_none_of_not_begins
    (absent : ¬ '<' :: "script".toList <+: after) :
    matchAt? ScriptBlock.pattern (between before after) = none := by
  refine matchAt?_eq_none fun value cursor member => ?_
  obtain ⟨attributes, content, rest, rfl, -⟩ := exists_of_mem_scriptBlock member
  rw [scriptTag_append] at absent
  exact absent (List.prefix_append scriptOpening _)

private theorem spelled_eq_scriptTag {block : PrintedBlock} :
    (block.kind = .script → block.spelled = scriptTag [] block.content) ∧
      (block.kind = .setup → block.spelled = scriptTag " setup".toList block.content) := by
  obtain ⟨kind, content, valid⟩ := block
  constructor <;> rintro rfl <;> rfl

private theorem Prints.map_searchBehind (prints : Prints blocks text) (before : List Char) :
    (searchBehind ScriptBlock.pattern before text).map (readIn (before ++ text)) =
      blocks.filterMap scriptBlock? := by
  have shows : ∀ c ∈ ['<', '\n'], c ∉ "script".toList := forall_mem_of_all (by decide)
  induction prints generalizing before with
  | nil => rfl
  | @newline blocks text prints ih =>
    have absent : ¬ '<' :: "script".toList <+: '\n' :: text := by
      rw [List.cons_prefix_cons]
      exact fun begins => absurd begins.1 (by decide)
    rw [searchBehind_of_none (matchAt?_eq_none_of_not_begins absent), List.append_cons]
    exact ih (before ++ ['\n'])
  | @block block blocks text prints ih =>
    have read {attributes : List Char}
        (spelled : block.spelled = scriptTag attributes block.content)
        (free : '>' ∉ attributes) (absent : ¬ '<' :: "/script>".toList <:+: block.content) :
        (searchBehind ScriptBlock.pattern before (block.spelled ++ text)).map
            (readIn (before ++ (block.spelled ++ text))) =
          ⟨encode attributes, (encode block.content).trim⟩ :: blocks.filterMap scriptBlock? := by
      rw [spelled, searchBehind_of_some (matchAt?_scriptBlock before text free absent)
        (by simp [scriptTag]), List.map_cons, readIn_scriptSpans, ← List.append_assoc, ih]
    cases kind : block.kind with
    | template =>
      have nothing : block.scriptBlock? = none := by rw [scriptBlock?, kind]
      rw [List.filterMap_cons_none nothing, searchBehind_of_fails, ← List.append_assoc, ih]
      rintro front behind split nonempty value cursor member
      obtain ⟨attributes, content, rest, shape, -⟩ := exists_of_mem_scriptBlock member
      have begins : '<' :: "script".toList <+: behind ++ text := by
        rw [shape, scriptTag_append]
        exact List.prefix_append scriptOpening _
      rw [prints.prefix_append_iff shows nonempty] at begins
      refine not_infix_template kind (begins.isInfix.trans ?_)
      exact split ▸ (List.suffix_append front behind).isInfix
    | script =>
      have here : block.scriptBlock? = some ⟨[], (encode block.content).trim⟩ := by
        rw [scriptBlock?, kind]
      rw [List.filterMap_cons_some here]
      refine read (spelled_eq_scriptTag.1 kind) (by decide) (block.valid _ ?_)
      rw [kind]
      decide
    | setup =>
      have here : block.scriptBlock? = some ⟨ofString " setup", (encode block.content).trim⟩ := by
        rw [scriptBlock?, kind]
      rw [List.filterMap_cons_some here]
      refine read (spelled_eq_scriptTag.2 kind) (by decide) (block.valid _ ?_)
      rw [kind]
      decide

private theorem Prints.all_eq (prints : Prints blocks text) :
    ScriptBlock.all (encode text) = blocks.filterMap scriptBlock? :=
  prints.map_searchBehind []

end Scripts

section Template

variable {blocks earlier later : List PrintedBlock} {block : PrintedBlock} {text : List Char}

private theorem Prints.exists_append (prints : Prints (earlier ++ block :: later) text) :
    ∃ front behind, text = front ++ (block.spelled ++ behind) ∧ Prints earlier front ∧
      Prints later behind := by
  generalize whole : earlier ++ block :: later = blocks at prints
  induction prints generalizing earlier with
  | nil => simp at whole
  | newline _ ih =>
    obtain ⟨front, behind, rfl, inFront, behindPrints⟩ := ih whole
    exact ⟨'\n' :: front, behind, rfl, .newline inFront, behindPrints⟩
  | @block first blocks text prints ih =>
    cases earlier with
    | nil =>
      obtain ⟨rfl, rfl⟩ := List.cons.inj whole
      exact ⟨[], text, rfl, .nil, prints⟩
    | cons other earlier =>
      obtain ⟨rfl, rest⟩ := List.cons.inj whole
      obtain ⟨front, behind, rfl, inFront, behindPrints⟩ := ih rest
      exact ⟨other.spelled ++ front, behind, by rw [List.append_assoc], .block other inFront,
        behindPrints⟩

private theorem Prints.template?_eq_none (prints : Prints blocks text)
    (scripts : ∀ block ∈ blocks, block.kind ≠ .template) :
    Blocks.template? (encode text) = none := by
  have nothing : (encode text).indexOf? (ofString "<template") = none := by
    have absent := prints.not_infix scripts "template".toList (by decide)
    rw [indexOf?_eq_none_iff]
    exact fun inside => absent (encode_infix_iff.mp inside)
  simp only [Blocks.template?, nothing, Option.bind_eq_bind, Option.bind_none]

private theorem template?_around {front content behind : List Char}
    (absent : ¬ '<' :: "template".toList <:+: front)
    (later : ¬ '<' :: "/template>".toList <:+: behind) :
    Blocks.template? (encode front ++ (ofString "<template>" ++ (encode content ++
      (ofString "</template>" ++ encode behind)))) =
        if content = [] then none else some (encode content).trim := by
  let source : Text := encode front ++ (ofString "<template>" ++ (encode content ++
    (ofString "</template>" ++ encode behind)))
  let inside : Text := encode content ++ (ofString "</template>" ++ encode behind)
  have opening : source = encode front ++ (Byte.less :: ofString "template" ++
      Byte.greater :: inside) := rfl
  have starts : source.indexOf? (ofString "<template") = some (encode front).length := by
    rw [opening]
    exact indexOf?_eq_length (by decide) (fun occurs => absent (encode_infix_iff.mp occurs)) _
  have tag : Text.indexOf? (source.drop (encode front).length) (ofString ">") = some 9 := by
    rw [opening, List.drop_left]
    exact indexOf?_append_cons (by decide) inside
  have closing : source = encode front ++ ofString "<template>" ++ encode content ++
      (Byte.less :: ofString "/template>" ++ encode behind) := by
    simp only [List.append_assoc]
    rfl
  have stops : source.lastIndexOf? (ofString "</template>") =
      some (encode front ++ ofString "<template>" ++ encode content).length := by
    rw [closing]
    exact lastIndexOf?_eq_length (by decide) _ fun occurs => later (encode_infix_iff.mp occurs)
  have contentStart : (encode front).length + 9 + 1 =
      (encode front ++ ofString "<template>").length := by
    rw [List.length_append]
    rfl
  change Blocks.template? source = _
  simp only [Blocks.template?, starts, tag, stops, Option.bind_eq_bind, Option.bind_some,
    contentStart]
  rcases eq_or_ne content [] with rfl | nonempty
  · simp
  · have forward := List.length_pos_iff.mpr (mt eq_nil_of_encode nonempty)
    have width : (encode front ++ ofString "<template>" ++ encode content).length =
        (encode front ++ ofString "<template>").length + (encode content).length :=
      List.length_append
    rw [if_neg nonempty, if_pos (by omega), closing]
    exact congrArg (fun text => some (trim text)) (slice_append _ rfl width.symm)

end Template

/-- The template that is read back: one that holds nothing at all is not there. -/
def readTemplate? (content : List Char) : Option Text :=
  if content = [] then none else some (encode content).trim

section Blocks

variable {blocks : List PrintedBlock} {text : List Char}

private theorem Prints.template?_eq (prints : Prints blocks text)
    (distinct : (blocks.map (·.kind)).Nodup) :
    Blocks.template? (encode text) = (contentOf .template blocks).bind readTemplate? := by
  by_cases scripts : ∀ block ∈ blocks, block.kind ≠ .template
  · have nothing : blocks.find? (·.kind = .template) = none := by simpa using scripts
    rw [prints.template?_eq_none scripts, contentOf, nothing]
    rfl
  · simp only [ne_eq, not_forall, not_not] at scripts
    obtain ⟨block, member, template⟩ := scripts
    obtain ⟨earlier, later, rfl⟩ := List.append_of_mem member
    rw [List.map_append, List.map_cons, List.nodup_append, List.nodup_cons, template] at distinct
    obtain ⟨-, ⟨laterDistinct, -⟩, earlier_distinct⟩ := distinct
    have earlierScripts : ∀ other ∈ earlier, other.kind ≠ .template := fun other inside =>
      earlier_distinct _ (List.mem_map_of_mem inside) _ List.mem_cons_self
    have laterScripts : ∀ other ∈ later, other.kind ≠ .template := fun other inside same =>
      laterDistinct (same ▸ List.mem_map_of_mem inside)
    have first : (earlier ++ block :: later).find? (·.kind = .template) = some block := by
      rw [List.find?_append, List.find?_eq_none.mpr (by simpa using earlierScripts),
        List.find?_cons_of_pos (by simpa using template), Option.none_or]
    obtain ⟨front, behind, rfl, inFront, behindPrints⟩ := prints.exists_append
    have shape : encode (front ++ (block.spelled ++ behind)) = encode front ++
        (ofString "<template>" ++ (encode block.content ++
          (ofString "</template>" ++ encode behind))) := by
      rw [spelled, template]
      simp only [encode_append, List.append_assoc]
      rfl
    rw [shape, template?_around (inFront.not_infix earlierScripts _ (by decide))
      (behindPrints.not_infix laterScripts _ (by decide)), contentOf, first]
    rfl

private theorem find?_filterMap_scriptBlock? (blocks : List PrintedBlock) :
    ((blocks.filterMap scriptBlock?).find? (!·.isSetup)).map (·.content) =
        (contentOf .script blocks).map (fun content => (encode content).trim) ∧
      ((blocks.filterMap scriptBlock?).find? (·.isSetup)).map (·.content) =
        (contentOf .setup blocks).map (fun content => (encode content).trim) := by
  have plain (content : Text) : ScriptBlock.isSetup ⟨[], content⟩ = false := rfl
  have marked (content : Text) : ScriptBlock.isSetup ⟨ofString " setup", content⟩ = true := rfl
  simp only [contentOf]
  induction blocks with
  | nil => exact ⟨rfl, rfl⟩
  | cons block blocks ih =>
    cases kind : block.kind with
    | template =>
      have nothing : block.scriptBlock? = none := by rw [scriptBlock?, kind]
      simpa [List.filterMap_cons_none nothing, kind] using ih
    | script =>
      have here : block.scriptBlock? = some ⟨[], (encode block.content).trim⟩ := by
        rw [scriptBlock?, kind]
      simpa [List.filterMap_cons_some here, kind, plain] using ih.2
    | setup =>
      have here : block.scriptBlock? = some ⟨ofString " setup", (encode block.content).trim⟩ := by
        rw [scriptBlock?, kind]
      simpa [List.filterMap_cons_some here, kind, marked] using ih.1

private theorem findSome?_filterMap_scriptBlock? (blocks : List PrintedBlock) :
    (blocks.filterMap scriptBlock?).findSome? (·.language?) = none := by
  refine List.findSome?_eq_none_iff.mpr fun script member => ?_
  obtain ⟨block, -, here⟩ := List.mem_filterMap.mp member
  rw [scriptBlock?] at here
  split at here
  · contradiction
  all_goals
    obtain rfl := Option.some.inj here
    rfl

/-- Taking a printed component apart gives back what its blocks hold, without the white space around
it. A template that holds nothing at all is taken for no template. -/
theorem ofSource_printed (prints : Prints blocks text) (distinct : (blocks.map (·.kind)).Nodup) :
    Blocks.ofSource (encode text) =
      { template := (contentOf .template blocks).bind readTemplate?
        script := (contentOf .script blocks).map fun content => (encode content).trim
        setup := (contentOf .setup blocks).map fun content => (encode content).trim
        language := none } := by
  have scripts := find?_filterMap_scriptBlock? blocks
  rw [Blocks.ofSource, prints.all_eq, prints.template?_eq distinct, scripts.1, scripts.2,
    findSome?_filterMap_scriptBlock?]

/-- A template with more opening than closing tags between the scripts. -/
theorem ofSource_printed_unbalanced :
    Blocks.ofSource (ofString ("<script setup>\nf()\n</script>\n" ++
      "<template> <template #a><template> </template>\n\n<script> g() </script>")) =
      ⟨some (ofString "<template #a><template>"), some (ofString "g()"), some (ofString "f()"),
        none⟩ := by
  let setup : PrintedBlock := ⟨.setup, "\nf()\n".toList, by decide +kernel⟩
  let template : PrintedBlock := ⟨.template, " <template #a><template> ".toList, by decide +kernel⟩
  let script : PrintedBlock := ⟨.script, " g() ".toList, by decide +kernel⟩
  let text : List Char := setup.spelled ++ ('\n' :: (template.spelled ++
    ('\n' :: '\n' :: (script.spelled ++ []))))
  have prints : Prints [setup, template, script] text :=
    .block _ (.newline (.block _ (.newline (.newline (.block _ .nil)))))
  have printed : ofString ("<script setup>\nf()\n</script>\n" ++
      "<template> <template #a><template> </template>\n\n<script> g() </script>") =
      encode text := by decide +kernel
  rw [printed, ofSource_printed prints (by decide)]
  decide +kernel

/-- A template that is printed without content is not read back. -/
theorem empty_template_not_read : ∃ block : PrintedBlock, block.kind = .template ∧
    Prints [block] "<template></template>".toList ∧
    (Blocks.ofSource (ofString "<template></template>")).template ≠
      some (encode block.content).trim := by
  refine ⟨⟨.template, [], by decide +kernel⟩, rfl, .block _ .nil, ?_⟩
  decide +kernel

end Blocks

end PrintedBlock

end BareComponent
