import BareComponent.Proofs.Component.Ending
import BareComponent.Proofs.Pattern.Parts
import BareComponent.Proofs.Pattern.Preferred

/-! # The language of a component

A script block declares a language by a `lang` attribute with a value in quotes. The scripts of a
component count as one: their language is that of the first script block that declares any, be it
one of the two that the component is made of or not. A component compiles if that language is
JavaScript, so a block in another language is compiled behind one that declares JavaScript.
-/

namespace BareComponent

open Cursor Pattern Text

def attributeQuotes : List Char := ['\x27', '\x22']

/-- A `lang` attribute as a tag spells it. It may begin inside a longer word. -/
@[ext]
structure LanguageAttribute where
  /-- The white space in front of the equals sign. -/
  gap : List Char
  /-- The white space behind the equals sign. -/
  space : List Char
  opening : Char
  value : List Char
  closing : Char
  gapBlank : Blank gap
  spaceBlank : Blank space
  openingQuote : opening ∈ attributeQuotes
  closingQuote : closing ∈ attributeQuotes
  someValue : value ≠ []
  unquoted : ∀ c ∈ value, c ∉ attributeQuotes

namespace LanguageAttribute

def opens (lang : LanguageAttribute) : List Char :=
  "lang".toList ++ lang.gap ++ '=' :: (lang.space ++ [lang.opening])

def spelled (lang : LanguageAttribute) : List Char :=
  lang.opens ++ lang.value ++ [lang.closing]

/-- Where the value stands in an attribute behind some characters. -/
def valueSpan (lang : LanguageAttribute) (before : List Char) : Span :=
  ⟨(encode (before ++ lang.opens)).length,
    (encode (before ++ lang.opens ++ lang.value)).length⟩

/-- Whether an attribute is the first of its kind to begin in some characters. -/
def IsFirst (lang : LanguageAttribute) (characters : List Char) : Prop :=
  ∃ front behind, characters = front ++ lang.spelled ++ behind ∧
    ∀ first second, front = first ++ second → second ≠ [] → ∀ other : LanguageAttribute,
      ¬other.spelled <+: second ++ lang.spelled ++ behind

private theorem quote_iff {c : Char} :
    CharacterClass.oneOf "'\"" c.toNat = true ↔ c ∈ attributeQuotes :=
  CharacterClass.oneOf_encode (forall_mem_of_all (by decide)) c

private theorem unquoted_iff {c : Char} :
    CharacterClass.noneOf "'\"" c.toNat = true ↔ c ∉ attributeQuotes := by
  rw [CharacterClass.noneOf, Bool.not_eq_true', ← quote_iff, Bool.not_eq_true]

private theorem spelled_ne_nil (lang : LanguageAttribute) : lang.spelled ≠ [] := by
  simp [spelled]

private theorem spelled_append (lang : LanguageAttribute) (rest : List Char) :
    lang.spelled ++ rest = "lang".toList ++ (lang.gap ++ '=' ::
      (lang.space ++ lang.opening :: (lang.value ++ lang.closing :: rest))) := by
  simp [spelled, opens]

private theorem unique {first second : LanguageAttribute} {rest behind : List Char}
    (same : first.spelled ++ rest = second.spelled ++ behind) : first = second ∧ rest = behind := by
  let isBlank (c : Char) : Bool := CharacterClass.blank c.toNat
  have quoteDark : ∀ c ∈ attributeQuotes, isBlank c = false := forall_mem_of_all (by decide)
  rw [spelled_append, spelled_append, List.append_cancel_left_eq] at same
  obtain ⟨gaps, same⟩ := append_inj_of_run isBlank same first.gapBlank
    second.gapBlank (head?_outside (by decide) _) (head?_outside (by decide) _)
  obtain ⟨spaces, same⟩ := append_inj_of_run isBlank
    (List.cons.inj same).2 first.spaceBlank
    second.spaceBlank (head?_outside (quoteDark _ first.openingQuote) _)
    (head?_outside (quoteDark _ second.openingQuote) _)
  obtain ⟨openings, same⟩ := List.cons.inj same
  have values := append_cons_inj_of_front (fun c => c ∉ attributeQuotes) same
    (fun outside => outside first.closingQuote) (fun outside => outside second.closingQuote)
    first.unquoted second.unquoted
  obtain ⟨values, closings, rests⟩ := values
  exact ⟨LanguageAttribute.ext gaps spaces openings values closings, rests⟩

private theorem exists_of_mem {before after : List Char} {value : Span} {cursor : Cursor}
    (member : (value, cursor) ∈ ScriptBlock.languageAttribute (between before after)) :
    ∃ (lang : LanguageAttribute) (rest : List Char), after = lang.spelled ++ rest ∧
      value = lang.valueSpan before ∧ cursor = between (before ++ lang.spelled) rest := by
  obtain ⟨_, _, word, member⟩ := mem_bind.mp member
  obtain ⟨_, rfl, rfl⟩ := mem_literal.mp (word : _ ∈ Pattern.literal (encode "lang".toList) _)
  obtain ⟨_, _, gaps, member⟩ := mem_bind.mp member
  obtain ⟨gap, _, rfl, gapBlank, -, rfl⟩ := mem_run.mp gaps
  obtain ⟨_, _, equals, member⟩ := mem_bind.mp member
  obtain ⟨_, rfl, rfl⟩ := exists_of_mem_literal (c := '=') rfl equals
  obtain ⟨_, _, spaces, member⟩ := mem_bind.mp member
  obtain ⟨space, _, rfl, spaceBlank, -, rfl⟩ := mem_run.mp spaces
  obtain ⟨_, _, openingRead, member⟩ := mem_bind.mp member
  obtain ⟨opening, _, rfl, openingQuote, rfl⟩ := mem_character.mp openingRead
  obtain ⟨_, _, values, member⟩ := mem_bind.mp member
  obtain ⟨here, rfl⟩ := mem_spanned.mp values
  obtain ⟨content, _, rfl, someValue, inside, -, rfl⟩ := mem_run1.mp here
  obtain ⟨_, _, closingRead, member⟩ := mem_bind.mp member
  obtain ⟨closing, rest, rfl, closingQuote, rfl⟩ := mem_character.mp closingRead
  obtain ⟨rfl, rfl⟩ := mem_pure.mp member
  have unquoted : ∀ c ∈ content, c ∉ attributeQuotes := fun c here =>
    unquoted_iff.mp (inside c here)
  refine ⟨⟨gap, space, opening, content, closing, gapBlank, spaceBlank,
    quote_iff.mp openingQuote, quote_iff.mp closingQuote, someValue, unquoted⟩, rest, ?_, ?_, ?_⟩
  · rw [spelled_append]
  · rw [position_between, position_between]
    simp [valueSpan, opens]
  · simp [spelled, opens]

private theorem mem (lang : LanguageAttribute) (before rest : List Char) :
    (lang.valueSpan before, between (before ++ lang.spelled) rest) ∈
      ScriptBlock.languageAttribute (between before (lang.spelled ++ rest)) := by
  have quoteDark : ∀ c ∈ attributeQuotes, CharacterClass.blank c.toNat = false :=
    forall_mem_of_all (by decide)
  have closingQuoted : CharacterClass.noneOf "'\"" lang.closing.toNat = false := by
    rw [← Bool.not_eq_true, unquoted_iff]
    exact not_not.mpr lang.closingQuote
  rw [spelled_append]
  refine mem_bind.mpr ⟨(), _, literal_mem before "lang".toList _, ?_⟩
  refine mem_bind.mpr ⟨(), _, mem_run.mpr ⟨lang.gap, _, rfl, lang.gapBlank, ?_, rfl⟩, ?_⟩
  · exact head?_outside (by decide) _
  refine mem_bind.mpr ⟨(), _, literal_mem _ ['='] _, ?_⟩
  refine mem_bind.mpr ⟨(), _, mem_run.mpr ⟨lang.space, _, rfl, lang.spaceBlank, ?_, rfl⟩, ?_⟩
  · exact head?_outside (quoteDark _ lang.openingQuote) _
  refine mem_bind.mpr ⟨(), _, mem_character.mpr ⟨lang.opening, _, rfl,
    quote_iff.mpr lang.openingQuote, rfl⟩, ?_⟩
  refine mem_bind.mpr ⟨_, _, mem_spanned.mpr ⟨mem_run1.mpr ⟨lang.value, _, rfl, lang.someValue,
    fun c inside => unquoted_iff.mpr (lang.unquoted c inside), ?_, rfl⟩, rfl⟩, ?_⟩
  · exact head?_outside closingQuoted _
  refine mem_bind.mpr ⟨(), _, mem_character.mpr ⟨lang.closing, rest, rfl,
    quote_iff.mpr lang.closingQuote, rfl⟩, ?_⟩
  refine mem_pure.mpr ⟨?_, ?_⟩
  · rw [position_between, position_between]
    simp [valueSpan, opens]
  · simp [spelled, opens]

/-- The pattern reads attributes. -/
theorem reads : Reads ScriptBlock.languageAttribute fun before passed value =>
    ∃ lang : LanguageAttribute, passed = lang.spelled ∧ value = lang.valueSpan before := by
  refine reads_of_mem (fun before after value cursor => ⟨fun member => ?_, ?_⟩) ?_ ?_
  · obtain ⟨lang, rest, rfl, rfl, rfl⟩ := exists_of_mem member
    exact ⟨_, rest, rfl, ⟨lang, rfl, rfl⟩, rfl⟩
  · rintro ⟨_, rest, rfl, ⟨lang, rfl, rfl⟩, rfl⟩
    exact lang.mem before rest
  · rintro before _ value ⟨lang, rfl, -⟩
    exact lang.spelled_ne_nil
  · rintro before _ _ rest behind _ _ ⟨lang, rfl, rfl⟩ ⟨other, rfl, rfl⟩ same
    obtain ⟨rfl, -⟩ := unique same
    exact ⟨rfl, rfl⟩

end LanguageAttribute

namespace ScriptBlock

/-- Whether the first `lang` attribute of a script block has this value. -/
def Declares (block : ScriptBlock) (language : Text) : Prop :=
  ∃ characters lang, block.attributes = encode characters ∧
    LanguageAttribute.IsFirst lang characters ∧ language = encode lang.value

private theorem language?_encode_eq_some_iff {characters : List Char} {content language : Text} :
    language? ⟨encode characters, content⟩ = some language ↔
      ∃ lang, LanguageAttribute.IsFirst lang characters ∧ language = encode lang.value := by
  have value (front behind : List Char) (lang : LanguageAttribute) :
      (encode (front ++ lang.spelled ++ behind)).slice (lang.valueSpan front) =
        encode lang.value := by
    have shape : front ++ lang.spelled ++ behind =
        front ++ lang.opens ++ lang.value ++ (lang.closing :: behind) := by
      simp [LanguageAttribute.spelled]
    rw [shape, encode_append _ (_ :: _), encode_append _ lang.value]
    exact slice_append _ rfl (by rw [encode_append _ lang.value, List.length_append])
  simp only [language?, Option.map_eq_some_iff, find?_encode_eq_some_iff]
  constructor
  · rintro ⟨found, ⟨front, c, rest, rfl, here, clear⟩, rfl⟩
    obtain ⟨_, behind, split, -, ⟨lang, rfl, inside⟩, -⟩ := (LanguageAttribute.reads _ _ _).mp here
    refine ⟨lang, ⟨front, behind, by rw [split, List.append_assoc], ?_⟩, ?_⟩
    · rintro first second rfl nonempty other ⟨rest, begins⟩
      have fails := clear first second rfl nonempty
      rw [split, ← List.append_assoc, ← begins,
        LanguageAttribute.reads.matchAt?_eq_some other.spelled_ne_nil ⟨other, rfl, rfl⟩] at fails
      contradiction
    · rw [inside, split, ← List.append_assoc, value]
  · rintro ⟨lang, ⟨front, behind, rfl, clear⟩, rfl⟩
    obtain ⟨c, rest, split⟩ := List.exists_cons_of_ne_nil
      (List.append_ne_nil_of_left_ne_nil lang.spelled_ne_nil behind)
    refine ⟨⟨⟨(encode front).length, (encode (front ++ lang.spelled)).length⟩,
      lang.valueSpan front⟩,
      ⟨front, c, rest, by rw [← split, List.append_assoc], ?_, ?_⟩, value front behind lang⟩
    · rw [← split]
      exact LanguageAttribute.reads.matchAt?_eq_some lang.spelled_ne_nil ⟨lang, rfl, rfl⟩ behind
    · rintro first second rfl nonempty
      rw [← split, LanguageAttribute.reads.matchAt?_eq_none_iff]
      rintro _ more _ begins - ⟨other, rfl, -⟩
      exact clear first second rfl nonempty other ⟨more, by rw [← begins, List.append_assoc]⟩

/-- A block has the language that its first `lang` attribute declares. -/
theorem language?_eq_some_iff {block : ScriptBlock} (string : IsString block.attributes)
    (language : Text) : block.language? = some language ↔ block.Declares language := by
  obtain ⟨attributes, content⟩ := block
  obtain ⟨characters, rfl⟩ : ∃ characters, attributes = encode characters := string
  rw [language?_encode_eq_some_iff]
  constructor
  · rintro ⟨lang, first, spelled⟩
    exact ⟨characters, lang, rfl, first, spelled⟩
  · rintro ⟨others, lang, same, first, spelled⟩
    obtain rfl := encode_injective same
    exact ⟨lang, first, spelled⟩

end ScriptBlock

namespace ComponentScript

/-- Whether a component is made of a script block: of all plain ones, or of all with a `setup`
attribute, it is the first. -/
def Uses (source : Text) (block : ScriptBlock) : Prop :=
  (ScriptBlock.all source).find? (!·.isSetup) = some block ∨
    (ScriptBlock.all source).find? (·.isSetup) = some block

/-- Whether the first script block that declares any language declares this one. -/
def FirstDeclares (source language : Text) : Prop :=
  ∃ earlier block later, ScriptBlock.all source = earlier ++ block :: later ∧
    block.Declares language ∧ ∀ other ∈ earlier, ∀ another, ¬other.Declares another

section Language

variable {source : Text}

private theorem language_eq_some_iff (string : IsString source) (language : Text) :
    (Blocks.ofSource source).language = some language ↔ FirstDeclares source language := by
  have reads {block : ScriptBlock} (member : block ∈ ScriptBlock.all source) (language : Text) :
      block.language? = some language ↔ block.Declares language :=
    ScriptBlock.language?_eq_some_iff
      (isString_attributes_of_mem_scriptBlocks string member) language
  simp only [Blocks.ofSource, List.findSome?_eq_some_iff, FirstDeclares]
  refine exists_congr fun earlier => exists_congr fun block => exists_congr fun later =>
    and_congr_right fun split => ?_
  have inside {other : ScriptBlock} (member : other ∈ earlier ++ block :: later) :
      other ∈ ScriptBlock.all source := split ▸ member
  refine and_congr (reads (inside (by simp)) language) (forall₂_congr fun other member => ?_)
  rw [Option.eq_none_iff_forall_ne_some]
  exact forall_congr' fun another =>
    not_congr (reads (inside (List.mem_append_left _ member)) another)

private theorem some_script {block : ScriptBlock} (member : block ∈ ScriptBlock.all source) :
    ((Blocks.ofSource source).script.isNone && (Blocks.ofSource source).setup.isNone) = false := by
  simp only [Blocks.ofSource, Option.isNone_map, Bool.and_eq_false_iff, Option.isNone_eq_false_iff,
    List.find?_isSome]
  by_cases kind : block.isSetup = true
  · exact .inr ⟨block, member, kind⟩
  · exact .inl ⟨block, member, by simpa using kind⟩

private theorem compile_of_language (string : IsString source) {language : Text}
    (first : FirstDeclares source language) : compile source =
      if language = ofString "js" then .ok (ofBlocks (Blocks.ofSource source))
      else .error (.notCompiled (.foreignLanguage language)) := by
  obtain ⟨earlier, block, later, split, -⟩ := id first
  have here := some_script (split ▸ List.mem_append_right earlier List.mem_cons_self)
  rw [compile, (language_eq_some_iff string language).mpr first]
  simp only [Bool.and_assoc, here, Bool.and_false, Bool.false_eq_true, if_false]

private theorem exists_firstDeclares (string : IsString source) {block : ScriptBlock}
    (member : block ∈ ScriptBlock.all source) {language : Text}
    (declares : block.Declares language) : ∃ first, FirstDeclares source first := by
  have declared := (ScriptBlock.language?_eq_some_iff
    (isString_attributes_of_mem_scriptBlocks string member) language).mpr declares
  have present : (Blocks.ofSource source).language.isSome = true :=
    List.findSome?_isSome_iff.mpr ⟨block, member, by rw [declared, Option.isSome_some]⟩
  obtain ⟨first, here⟩ := Option.isSome_iff_exists.mp present
  exact ⟨first, (language_eq_some_iff string first).mp here⟩

/-- A component is refused for a language exactly if the first script block that declares any
declares this one, and it is not JavaScript. So a block in another language that a component is made
of is compiled exactly if the first block that declares any language declares JavaScript. -/
theorem foreign_block_compiled_iff (source : String) :
    (∀ language, compile source = .error (.notCompiled (.foreignLanguage language)) ↔
      language ≠ ofString "js" ∧ FirstDeclares source language) ∧
    ∀ block language, Uses source block → block.Declares language → language ≠ ofString "js" →
      ((∃ script, compile source = .ok script) ↔ FirstDeclares source (ofString "js")) := by
  have string := isString_ofString source
  constructor
  · intro language
    constructor
    · intro refused
      cases declared : (Blocks.ofSource source).language with
      | none =>
        rw [compile, declared] at refused
        split at refused <;> cases refused
      | some other =>
        have first := (language_eq_some_iff string other).mp declared
        rw [compile_of_language string first] at refused
        split at refused
        · contradiction
        · next foreign =>
          cases refused
          exact ⟨foreign, first⟩
    · rintro ⟨foreign, first⟩
      rw [compile_of_language string first, if_neg foreign]
  · intro block language uses declares foreign
    have member : block ∈ ScriptBlock.all source :=
      uses.elim List.mem_of_find?_eq_some List.mem_of_find?_eq_some
    obtain ⟨language, first⟩ := exists_firstDeclares string member declares
    rw [compile_of_language string first]
    constructor
    · rintro ⟨script, success⟩
      split at success
      · next plain => exact plain ▸ first
      · contradiction
    · intro plain
      have same := ((language_eq_some_iff string _).mpr first).symm.trans
        ((language_eq_some_iff string _).mpr plain)
      exact ⟨_, if_pos (Option.some.inj same)⟩

/-- A plain script in JavaScript in front of a `setup` script in TypeScript. -/
def mixedLanguages : String :=
  "<script lang=\"js\">\nexport default \x7b\x7d\n</script>\n" ++
    "<script setup lang=\"ts\">\nconst n: number = 1\n</script>"

/-- The same scripts in the other order. -/
def mixedLanguagesReversed : String :=
  "<script setup lang=\"ts\">\nconst n: number = 1\n</script>\n" ++
    "<script lang=\"js\">\nexport default \x7b\x7d\n</script>"

private theorem firstDeclares_mixed : FirstDeclares mixedLanguages (ofString "js") ∧
    FirstDeclares mixedLanguagesReversed (ofString "ts") := by
  rw [← language_eq_some_iff (isString_ofString _), ← language_eq_some_iff (isString_ofString _)]
  decide +kernel

private theorem exists_setup_mixed : ∃ block, Uses mixedLanguages block ∧
    block.Declares (ofString "ts") := by
  refine ⟨⟨ofString " setup lang=\"ts\"", ofString "const n: number = 1"⟩, .inr ?_, ?_⟩
  · decide +kernel
  · rw [← ScriptBlock.language?_eq_some_iff (isString_ofString _)]
    decide +kernel

/-- A script in TypeScript is compiled behind one that declares JavaScript, and refused in front of
it. -/
theorem mixed_languages_by_order : (∃ script, compile mixedLanguages = .ok script) ∧
    compile mixedLanguagesReversed =
      .error (.notCompiled (.foreignLanguage (ofString "ts"))) := by
  obtain ⟨block, uses, declares⟩ := exists_setup_mixed
  have foreign : ofString "ts" ≠ ofString "js" := by decide
  exact ⟨((foreign_block_compiled_iff mixedLanguages).2 block _ uses declares foreign).mpr
      firstDeclares_mixed.1,
    ((foreign_block_compiled_iff mixedLanguagesReversed).1 _).mpr ⟨foreign, firstDeclares_mixed.2⟩⟩

/-- A component compiles although its `setup` script declares TypeScript. -/
theorem foreign_setup_compiled : ∃ block script, Uses mixedLanguages block ∧
    block.Declares (ofString "ts") ∧ compile mixedLanguages = .ok script := by
  obtain ⟨block, uses, declares⟩ := exists_setup_mixed
  refine ⟨block, ofBlocks (Blocks.ofSource mixedLanguages), uses, declares, ?_⟩
  rw [compile_of_language (isString_ofString _) firstDeclares_mixed.1, if_pos rfl]

end Language

end ComponentScript

end BareComponent
