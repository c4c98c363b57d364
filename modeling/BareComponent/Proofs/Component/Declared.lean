import BareComponent.Component.Declaration
import BareComponent.Proofs.Checked.FunctionBody
import BareComponent.Proofs.Mask.Aligned
import BareComponent.Proofs.Require.Site
import BareComponent.Proofs.Text.Pieces
import BareComponent.Proofs.Text.Replace

/-! # What the listed names were introduced by

A name is listed for one of two reasons: it stands behind a declaring keyword, or an entry of a
destructuring declaration binds it. Both are read off the mask by patterns, and here the patterns
are turned into what they say about the text. Three kinds of reading introduce no name: a word that
merely begins like the keyword of a function, a keyword behind an operator, and a piece of a default
value that a comma or a colon cuts off.
-/

namespace BareComponent

open Text Pattern Cursor

namespace Declaration

/-- How an entry of a destructuring declaration spells the name that it binds: behind the
`property` that it is an alias for, or the dots of a rest, and in front of its default value. -/
inductive Entry (property entry name : List Char) : Prop
  | mk {gap more trailing value : List Char} {copies : Nat}
      (shape : entry = property ++ gap ++ (List.replicate copies "...".toList).flatten ++ more ++
        name ++ trailing ++ value)
      (aliased : ∀ c ∈ property.getLast?, c = ':') (gapBlank : Blank gap)
      (moreBlank : Blank more) (trailingBlank : Blank trailing)
      (defaulted : ∀ c ∈ value.head?, c = '=')

/-- What is read in an entry is the name that it binds. -/
theorem exists_entry (entry : List Char) :
    ∃ property name, Entry property entry name ∧ boundBy (encode entry) = encode name := by
  obtain ⟨property, target, rfl, named, targetEq⟩ :=
    exists_rtakeWhile_encode (c := ':') (b := Byte.colon) rfl (by decide) entry
  obtain ⟨bound, value, rfl, defaulted, boundEq⟩ :=
    exists_takeWhile_encode (c := '=') (b := Byte.equals) rfl (by decide) target
  obtain ⟨gap, kept, trailing, rfl, gapBlank, trailingBlank, keptEq⟩ := exists_trim_encode bound
  obtain ⟨copies, rest, rfl, restEq⟩ := exists_dropCopies_encode "...".toList kept
  obtain ⟨more, name, last, rfl, moreBlank, lastBlank, nameEq⟩ := exists_trim_encode rest
  have shape : property ++ (gap ++ ((List.replicate copies "...".toList).flatten ++
      (more ++ name ++ last)) ++ trailing ++ value) =
      property ++ gap ++ (List.replicate copies "...".toList).flatten ++ more ++ name ++
        (last ++ trailing) ++ value := by simp
  refine ⟨property, name, ?_, ?_⟩
  · exact .mk shape named gapBlank moreBlank
      (List.forall_mem_append.mpr ⟨lastBlank, trailingBlank⟩) defaulted
  · rw [List.rtakeWhile] at targetEq
    rw [boundBy, targetEq, boundEq, keptEq, ofString_eq, restEq, nameEq]

def variableKeywords : List (List Char) := ["const".toList, "let".toList, "var".toList]

/-- What declares the name behind it: a keyword that is a word of its own. -/
inductive Head : List Char → Prop
  | blanks {keyword gap : List Char} (spelled : keyword ∈ "class".toList :: variableKeywords)
      (nonempty : gap ≠ []) (blank : Blank gap) : Head (keyword ++ gap)
  | function {gap star more : List Char} (nonempty : gap ++ star ++ more ≠ []) (blank : Blank gap)
      (starred : star = [] ∨ star = ['*']) (moreBlank : Blank more) :
      Head ("function".toList ++ (gap ++ star ++ more))

/-- Whether a name stands behind `head`, which begins at an offset of a mask and behind no word
character. The name is not cut short. -/
inductive Behind (head : List Char) (masked : Text) (start : Nat) (name : Text) : Prop
  | mk {before characters after : List Char}
      (shape : masked = encode (before ++ head ++ characters ++ after))
      (place : start = (encode before).length) (read : name = encode characters)
      (word : isWord before.getLast? = false)
      (complete : ∀ c ∈ after.head?, CharacterClass.wordOrDollar c.toNat = false)

private theorem mem_keyword {before after : List Char} {value : Unit} {next : Cursor} :
    (value, next) ∈ Pattern.oneOf ["const", "let", "var"] (between before after) ↔
      ∃ keyword ∈ variableKeywords, ∃ rest, after = keyword ++ rest ∧
        next = between (before ++ keyword) rest := by
  have texts : (["const", "let", "var"] : List Text) = variableKeywords.map encode := rfl
  rw [texts, mem_oneOf]
  simp only [List.mem_map, exists_exists_and_eq_and, mem_literal]

private theorem isWord_keyword {keyword rest : List Char}
    (spelled : keyword ∈ "class".toList :: variableKeywords) :
    isWord (keyword ++ rest).head? = true := by
  simp only [variableKeywords, List.mem_cons, List.not_mem_nil, or_false] at spelled
  rcases spelled with rfl | rfl | rfl | rfl <;> rfl

private theorem isWord_head {head rest : List Char}
    (heads : Head head ∨ head = "function".toList) : isWord (head ++ rest).head? = true := by
  rcases heads with (⟨spelled, -, -⟩ | _) | rfl
  · rw [List.append_assoc]
    exact isWord_keyword spelled
  · rfl
  · rfl

section Reading

variable {before after rest : List Char} {next : Cursor}

private theorem blank_head?_of_name {name : List Char} (named : RequireLine.IsName name) :
    ∀ c ∈ (name ++ rest).head?, CharacterClass.blank c.toNat = false := by
  intro c first
  have word := RequireSite.wordOrDollar_head?_of_name named rest c first
  by_contra blank
  rw [Bool.not_eq_false] at blank
  rw [CharacterClass.wordOrDollar_of_blank blank] at word
  contradiction

private theorem exists_of_mem_functionKeyword {value : Unit}
    (member : (value, next) ∈ single.functionKeyword (between before after)) :
    ∃ head rest, (Head head ∨ head = "function".toList) ∧ after = head ++ rest ∧
      next = between (before ++ head) rest := by
  obtain ⟨_, _, keyword, member⟩ := mem_bind.mp member
  obtain ⟨after, rfl, rfl⟩ :=
    mem_literal.mp (keyword : _ ∈ literal (encode "function".toList) _)
  obtain ⟨_, _, blanksRead, member⟩ := mem_bind.mp member
  obtain ⟨gap, after, rfl, blank, -, rfl⟩ := mem_run.mp blanksRead
  obtain ⟨_, cursor, starRead, member⟩ := mem_bind.mp member
  obtain ⟨star, after, rfl, starred, rfl⟩ : ∃ star rest, after = star ++ rest ∧
      (star = [] ∨ star = ['*']) ∧ cursor = between (before ++ "function".toList ++ gap ++ star)
        rest := by
    rcases mem_optional.mp starRead with ⟨read, -, here⟩ | ⟨-, rfl⟩
    · obtain ⟨rest, rfl, rfl⟩ := exists_of_mem_literal (c := '*') rfl here
      exact ⟨['*'], rest, rfl, .inr rfl, rfl⟩
    · exact ⟨[], after, rfl, .inl rfl, by rw [List.append_nil]⟩
  obtain ⟨more, rest, rfl, moreBlank, -, rfl⟩ := mem_run.mp member
  refine ⟨"function".toList ++ (gap ++ star ++ more), rest, ?_, by simp, by simp⟩
  by_cases nothing : gap ++ star ++ more = []
  · exact .inr (by rw [nothing, List.append_nil])
  · exact .inl (.function nothing blank starred moreBlank)

private theorem functionKeyword_mem {gap star more name : List Char} (blank : Blank gap)
    (starred : star = [] ∨ star = ['*']) (moreBlank : Blank more)
    (named : RequireLine.IsName name) :
    ((), between (before ++ "function".toList ++ gap ++ star ++ more) (name ++ rest)) ∈
      single.functionKeyword
        (between before ("function".toList ++ (gap ++ (star ++ (more ++ (name ++ rest)))))) := by
  have stops : ∀ c ∈ (name ++ rest).head?, CharacterClass.blank c.toNat = false :=
    blank_head?_of_name named
  refine mem_bind.mpr ⟨(), _, literal_mem before "function".toList _, ?_⟩
  rcases starred with rfl | rfl
  · have blanksRead : Blank (gap ++ more) := List.forall_mem_append.mpr ⟨blank, moreBlank⟩
    refine mem_bind.mpr ⟨(), _, mem_run.mpr ⟨gap ++ more, name ++ rest, by simp, blanksRead, stops,
      rfl⟩, ?_⟩
    refine mem_bind.mpr ⟨none, _, mem_optional.mpr (.inr ⟨rfl, rfl⟩), ?_⟩
    exact mem_run.mpr ⟨[], name ++ rest, rfl, by simp, stops, by simp⟩
  · refine mem_bind.mpr ⟨(), _, mem_run.mpr ⟨gap, _, rfl, blank, ?_, rfl⟩, ?_⟩
    · rintro c first
      obtain rfl : '*' = c := Option.some.inj first
      decide
    · refine mem_bind.mpr ⟨some (), _, mem_optional.mpr (.inl ⟨(), rfl, literal_mem _ ['*'] _⟩), ?_⟩
      exact mem_run.mpr ⟨more, name ++ rest, rfl, moreBlank, stops, rfl⟩

/-- What a single declaration reads is the name behind a head, or the rest of a word that begins
like the keyword of a function. -/
theorem exists_of_mem_single {value : Span}
    (member : (value, next) ∈ single (between before after)) :
    ∃ head name rest, after = head ++ (name ++ rest) ∧
      (Head head ∨ head = "function".toList) ∧ isWord before.getLast? = false ∧
      RequireLine.IsName name ∧
      (∀ c ∈ rest.head?, CharacterClass.wordOrDollar c.toNat = false) ∧
      value = ⟨(encode (before ++ head)).length, (encode (before ++ head ++ name)).length⟩ ∧
      next = between (before ++ head ++ name) rest := by
  obtain ⟨_, _, boundary, member⟩ := mem_bind.mp member
  obtain ⟨edge, rfl⟩ := mem_wordBoundary.mp boundary
  obtain ⟨_, cursor, keyword, member⟩ := mem_bind.mp member
  obtain ⟨head, after, heads, rfl, rfl⟩ : ∃ head rest, (Head head ∨ head = "function".toList) ∧
      after = head ++ rest ∧ cursor = between (before ++ head) rest := by
    rcases mem_orElse.mp keyword with isVariable | keyword
    · obtain ⟨_, _, word, blanksRead⟩ := mem_bind.mp isVariable
      obtain ⟨front, spelled, rest, rfl, rfl⟩ := mem_keyword.mp word
      obtain ⟨gap, rest, rfl, nonempty, blank, -, rfl⟩ := mem_run1.mp blanksRead
      exact ⟨front ++ gap, rest, .inl (.blanks (List.mem_cons_of_mem _ spelled) nonempty blank),
        by simp, by simp⟩
    rcases mem_orElse.mp keyword with function | isClass
    · exact exists_of_mem_functionKeyword function
    · obtain ⟨_, _, word, blanksRead⟩ := mem_bind.mp isClass
      obtain ⟨rest, rfl, rfl⟩ := mem_literal.mp (word : _ ∈ literal (encode "class".toList) _)
      obtain ⟨gap, rest, rfl, nonempty, blank, -, rfl⟩ := mem_run1.mp blanksRead
      exact ⟨"class".toList ++ gap, rest, .inl (.blanks List.mem_cons_self nonempty blank), by simp,
        by simp⟩
  obtain ⟨nameRead, place⟩ := mem_spanned.mp member
  obtain ⟨name, rest, rfl, named, complete, rfl⟩ := RequireSite.mem_name.mp nameRead
  rw [isWord_head heads] at edge
  rw [position_between, position_between] at place
  exact ⟨head, name, rest, rfl, heads, Bool.eq_false_iff.mpr edge, named, complete, place, rfl⟩

private theorem keyword_mem {head name : List Char} (heads : Head head)
    (named : RequireLine.IsName name) :
    ((), between (before ++ head) (name ++ rest)) ∈
      (single.variableKeyword <|> single.functionKeyword <|> single.classKeyword)
        (between before (head ++ (name ++ rest))) := by
  have stops : ∀ c ∈ (name ++ rest).head?, CharacterClass.blank c.toNat = false :=
    blank_head?_of_name named
  cases heads with
  | @blanks keyword gap spelled nonempty blank =>
    have gapMem : ((), between (before ++ keyword ++ gap) (name ++ rest)) ∈
        Pattern.blanks1 (between (before ++ keyword) (gap ++ (name ++ rest))) :=
      mem_run1.mpr ⟨gap, name ++ rest, rfl, nonempty, blank, stops, rfl⟩
    rw [← List.append_assoc before, List.append_assoc keyword]
    rcases List.mem_cons.mp spelled with rfl | isVariable
    · refine mem_orElse.mpr (.inr (mem_orElse.mpr (.inr ?_)))
      exact mem_bind.mpr ⟨(), _, literal_mem before "class".toList _, gapMem⟩
    · refine mem_orElse.mpr (.inl ?_)
      exact mem_bind.mpr ⟨(), _, mem_keyword.mpr ⟨keyword, isVariable, _, rfl, rfl⟩, gapMem⟩
  | function nonempty blank starred moreBlank =>
    refine mem_orElse.mpr (.inr (mem_orElse.mpr (.inl ?_)))
    simpa only [List.append_assoc] using functionKeyword_mem blank starred moreBlank named

/-- A name behind a head that is no part of a longer word is read. -/
theorem single_mem {head name : List Char} (heads : Head head)
    (word : isWord before.getLast? = false) (named : RequireLine.IsName name)
    (complete : ∀ c ∈ rest.head?, CharacterClass.wordOrDollar c.toNat = false) :
    (⟨(encode (before ++ head)).length, (encode (before ++ head ++ name)).length⟩,
      between (before ++ head ++ name) rest) ∈
        single (between before (head ++ (name ++ rest))) := by
  have edge : isWord before.getLast? ≠ isWord (head ++ (name ++ rest)).head? := by
    rw [word, isWord_head (.inl heads)]
    exact Bool.false_ne_true
  refine mem_bind.mpr ⟨(), _, mem_wordBoundary.mpr ⟨edge, rfl⟩, ?_⟩
  refine mem_bind.mpr ⟨(), _, keyword_mem heads named, ?_⟩
  refine mem_spanned.mpr ⟨RequireSite.mem_name.mpr ⟨name, rest, rfl, named, complete, rfl⟩, ?_⟩
  rw [position_between, position_between]

/-- Where a name is read is the name. -/
theorem slice_name (before head name after : List Char) :
    (encode (before ++ (head ++ (name ++ after)))).slice
        ⟨(encode (before ++ head)).length, (encode (before ++ head ++ name)).length⟩ =
      encode name := by
  have regrouped : before ++ (head ++ (name ++ after)) = before ++ head ++ name ++ after := by simp
  rw [regrouped, encode_append _ after, encode_append _ name]
  exact slice_append _ rfl (List.length_append ..).symm

end Reading

/-- What a search for single declarations finds is spelled there. -/
theorem exists_of_mem_search_single {masked : List Char} {found : Match Span}
    (member : found ∈ single.search (encode masked)) :
    ∃ before head name after, masked = before ++ (head ++ (name ++ after)) ∧
      (Head head ∨ head = "function".toList) ∧ isWord before.getLast? = false ∧
      RequireLine.IsName name ∧
      (∀ c ∈ after.head?, CharacterClass.wordOrDollar c.toNat = false) ∧
      found.span.start = (encode before).length ∧
      (encode masked).slice found.value = encode name := by
  obtain ⟨before, after, rfl, reads⟩ := exists_of_mem_search member
  obtain ⟨_, matched, span, -⟩ := exists_of_matchAt? reads
  obtain ⟨head, name, rest, rfl, heads, word, named, complete, place, -⟩ :=
    exists_of_mem_single matched
  refine ⟨before, head, name, rest, rfl, heads, word, named, complete, ?_, ?_⟩
  · rw [span, position_between]
  · rw [place, slice_name]

/-- What a search for single declarations finds stands behind a head. -/
theorem exists_behind_of_mem_search {masked : List Char} {found : Match Span}
    (member : found ∈ single.search (encode masked)) :
    ∃ head, (Head head ∨ head = "function".toList) ∧
      Behind head (encode masked) found.span.start ((encode masked).slice found.value) := by
  obtain ⟨before, head, name, after, rfl, heads, word, -, complete, place, read⟩ :=
    exists_of_mem_search_single member
  refine ⟨head, heads, ?_⟩
  rw [place, read]
  exact .mk (by simp) rfl rfl word complete

/-- Whether an entry of a destructuring declaration binds a name. The declaration begins at an
offset of a mask and behind no word character, and the entry stands between commas in it. -/
inductive Binds (property : List Char) (masked : Text) (start entryStart : Nat) (name : Text) : Prop
  | mk {before keyword gap front entry behind more after characters : List Char}
      (shape : masked = encode (before ++ (keyword ++ gap ++ ['{'] ++ front) ++ entry ++
        (behind ++ ['}'] ++ more ++ ['='] ++ after)))
      (place : start = (encode before).length)
      (entryPlace : entryStart = (encode (before ++ (keyword ++ gap ++ ['{'] ++ front))).length)
      (read : name = encode characters) (word : isWord before.getLast? = false)
      (spelled : keyword ∈ variableKeywords) (gapBlank : Blank gap) (moreBlank : Blank more)
      (braceless : ∀ c ∈ front ++ entry ++ behind, c ≠ '{' ∧ c ≠ '}')
      (starts : ∀ c ∈ front.getLast?, c = ',') (stops : ∀ c ∈ behind.head?, c = ',')
      (whole : ',' ∉ entry) (spells : Entry property entry characters)

/-- What a destructuring declaration reads is spelled through its equals sign, and no brace stands
inside its braces. -/
theorem exists_of_mem_destructuring {before after : List Char} {value : Span} {next : Cursor}
    (member : (value, next) ∈ destructuring (between before after)) :
    ∃ keyword gap content more rest,
      after = keyword ++ gap ++ ['{'] ++ (content ++ (['}'] ++ more ++ ['='] ++ rest)) ∧
        isWord before.getLast? = false ∧ keyword ∈ variableKeywords ∧ Blank gap ∧ Blank more ∧
        (∀ c ∈ content, c ≠ '{' ∧ c ≠ '}') ∧
        value = ⟨(encode (before ++ (keyword ++ gap ++ ['{']))).length,
          (encode (before ++ (keyword ++ gap ++ ['{']) ++ content)).length⟩ ∧
        next = between (before ++ (keyword ++ gap ++ ['{']) ++ content ++ ['}'] ++ more ++ ['='])
          rest := by
  obtain ⟨_, _, boundary, member⟩ := mem_bind.mp member
  obtain ⟨edge, rfl⟩ := mem_wordBoundary.mp boundary
  obtain ⟨_, _, word, member⟩ := mem_bind.mp member
  obtain ⟨keyword, spelled, after, rfl, rfl⟩ := mem_keyword.mp word
  obtain ⟨_, _, blanksRead, member⟩ := mem_bind.mp member
  obtain ⟨gap, after, rfl, gapBlank, -, rfl⟩ := mem_run.mp blanksRead
  obtain ⟨_, _, brace, member⟩ := mem_bind.mp member
  obtain ⟨after, rfl, rfl⟩ := exists_of_mem_literal (c := '{') rfl brace
  obtain ⟨value, _, inside, member⟩ := mem_bind.mp member
  obtain ⟨inside, place⟩ := mem_spanned.mp inside
  obtain ⟨content, after, rfl, outside, -, rfl⟩ := mem_run.mp inside
  obtain ⟨_, _, brace, member⟩ := mem_bind.mp member
  obtain ⟨after, rfl, rfl⟩ := exists_of_mem_literal (c := '}') rfl brace
  obtain ⟨_, _, blanksRead, member⟩ := mem_bind.mp member
  obtain ⟨more, after, rfl, moreBlank, -, rfl⟩ := mem_run.mp blanksRead
  obtain ⟨_, _, equals, member⟩ := mem_bind.mp member
  obtain ⟨rest, rfl, rfl⟩ := exists_of_mem_literal (c := '=') rfl equals
  obtain ⟨rfl, rfl⟩ := mem_pure.mp member
  rw [isWord_keyword (List.mem_cons_of_mem _ spelled)] at edge
  refine ⟨keyword, gap, content, more, rest, by simp, Bool.eq_false_iff.mpr edge, spelled,
    gapBlank, moreBlank, fun c member => ?_, by simpa using place, by simp⟩
  simpa using CharacterClass.not_mem_of_noneOf ['{', '}'] rfl (by simp) (outside c member)

/-- A declaration spelled so is read. -/
theorem destructuring_mem {before keyword gap content more rest : List Char}
    (word : isWord before.getLast? = false) (spelled : keyword ∈ variableKeywords)
    (gapBlank : Blank gap) (moreBlank : Blank more)
    (braceless : ∀ c ∈ content, c ≠ '{' ∧ c ≠ '}') :
    (⟨(encode (before ++ (keyword ++ gap ++ ['{']))).length,
        (encode (before ++ (keyword ++ gap ++ ['{']) ++ content)).length⟩,
      between (before ++ (keyword ++ gap ++ ['{']) ++ content ++ ['}'] ++ more ++ ['=']) rest) ∈
        destructuring (between before
          (keyword ++ gap ++ ['{'] ++ (content ++ (['}'] ++ more ++ ['='] ++ rest)))) := by
  have shape : keyword ++ gap ++ ['{'] ++ (content ++ (['}'] ++ more ++ ['='] ++ rest)) =
      keyword ++ (gap ++ (['{'] ++ (content ++ (['}'] ++ (more ++ (['='] ++ rest)))))) := by simp
  have edge : isWord before.getLast? ≠ isWord (keyword ++ (gap ++ (['{'] ++ (content ++ (['}'] ++
      (more ++ (['='] ++ rest))))))).head? := by
    rw [word, isWord_keyword (List.mem_cons_of_mem _ spelled)]
    exact Bool.false_ne_true
  have outside : ∀ c ∈ content,
      CharacterClass.noneOf [Byte.openBrace, Byte.closeBrace] c.toNat = true := by
    intro c member
    have listed := CharacterClass.oneOf_encode (by simp : ∀ d ∈ ['{', '}'], d.toNat < 0x80) c
    obtain ⟨opening, closing⟩ := braceless c member
    rw [CharacterClass.noneOf, Bool.not_eq_true']
    exact Bool.eq_false_iff.mpr fun inside => by
      simpa [opening, closing] using listed.mp inside
  rw [shape]
  refine mem_bind.mpr ⟨(), _, mem_wordBoundary.mpr ⟨edge, rfl⟩, ?_⟩
  refine mem_bind.mpr ⟨(), _, mem_keyword.mpr ⟨keyword, spelled, _, rfl, rfl⟩, ?_⟩
  refine mem_bind.mpr ⟨(), _, mem_run.mpr ⟨gap, _, rfl, gapBlank, ?_, rfl⟩, ?_⟩
  · rintro c first
    obtain rfl : '{' = c := Option.some.inj first
    decide
  refine mem_bind.mpr ⟨(), _, literal_mem _ ['{'] _, ?_⟩
  refine mem_bind.mpr ⟨_, _, mem_spanned.mpr ⟨mem_run.mpr ⟨content, _, rfl, outside, ?_, rfl⟩,
    rfl⟩, ?_⟩
  · rintro c first
    obtain rfl : '}' = c := Option.some.inj first
    decide
  refine mem_bind.mpr ⟨(), _, literal_mem _ ['}'] _, ?_⟩
  refine mem_bind.mpr ⟨(), _, mem_run.mpr ⟨more, _, rfl, moreBlank, ?_, rfl⟩, ?_⟩
  · rintro c first
    obtain rfl : '=' = c := Option.some.inj first
    decide
  refine mem_bind.mpr ⟨(), _, literal_mem _ ['='] _, ?_⟩
  refine mem_pure.mpr ⟨?_, ?_⟩
  · simp
  · simp

/-- What an entry of a destructuring declaration is read as is what the entry binds. -/
theorem exists_binds_of_mem_search {masked : List Char} {found : Match Span} {entry : Text}
    (member : found ∈ destructuring.search (encode masked))
    (inside : entry ∈ ((encode masked).slice found.value).splitOn Byte.comma) :
    ∃ property entryStart,
      Binds property (encode masked) found.span.start entryStart (boundBy entry) := by
  obtain ⟨before, after, rfl, reads⟩ := exists_of_mem_search member
  obtain ⟨_, matched, span, -⟩ := exists_of_matchAt? reads
  obtain ⟨keyword, gap, content, more, rest, rfl, word, spelled, gapBlank, moreBlank, braceless,
    place, -⟩ := exists_of_mem_destructuring matched
  have cut : (encode (before ++ (keyword ++ gap ++ ['{'] ++ (content ++ (['}'] ++ more ++ ['='] ++
      rest))))).slice found.value = encode content := by
    rw [place, ← List.append_assoc before, ← List.append_assoc _ content, encode_append _ (_ ++ _),
      encode_append _ content, slice_append _ rfl (by rw [List.length_append])]
  rw [cut, splitOn_encode (c := ',') (b := Byte.comma) rfl (by decide)] at inside
  obtain ⟨piece, among, rfl⟩ := List.mem_map.mp inside
  obtain ⟨front, behind, rfl, starts, stops, whole⟩ := exists_of_mem_splitOn among
  obtain ⟨property, name, spells, read⟩ := exists_entry piece
  rw [read, span, position_between]
  have shape : encode (before ++ (keyword ++ gap ++ ['{'] ++ (front ++ piece ++ behind ++
      (['}'] ++ more ++ ['='] ++ rest)))) =
      encode (before ++ (keyword ++ gap ++ ['{'] ++ front) ++ piece ++
        (behind ++ ['}'] ++ more ++ ['='] ++ rest)) := by simp
  exact ⟨property, _, .mk shape rfl rfl rfl word spelled gapBlank moreBlank
    braceless starts stops whole spells⟩

/-- The operators behind which an expression goes on. Those that may also end one, such as `++`, are
left out. -/
def operators : Text := "=.,?&|^%!~<>*"

def operatorWords : List Text :=
  ["await", "delete", "extends", "in", "instanceof", "new", "return", "throw", "typeof", "void",
    "yield"]

/-- Whether an operator stands in front of an offset of a mask, white space aside, so that what
begins there is no statement. A word is an operator if it is no part of another word and names no
property. -/
def InExpression (masked : Text) (start : Nat) : Prop :=
  (∃ b ∈ (Text.trimEnd (masked.take start)).getLast?, b ∈ operators) ∨
    ∃ front, ∃ word ∈ operatorWords, Text.trimEnd (masked.take start) = front ++ word ∧
      ∀ b ∈ front.getLast?, Byte.continuesIdentifier b = false ∧ b ≠ Byte.dot

/-- The ways in which code at an offset of a mask is spelled as a declaration of a name. A keyword
stands behind no operator, and an entry at depth one stands directly in its braces. -/
inductive Declares (masked : Text) (start : Nat) (name : Text) : Prop
  | behind {head : List Char} (heads : Head head) (stands : Behind head masked start name)
      (apart : ¬InExpression masked start)
  | bound {property : List Char} {entryStart : Nat}
      (binds : Binds property masked start entryStart name)
      (direct : masked.depthAt entryStart = 1) (aliased : '=' ∉ property)

/-- The ways in which a name is read that nothing declares: it is the rest of a word that begins
like the keyword of a function, it is the name of an expression or stands behind a property that is
called like a keyword, or it is cut out of a default value or a computed key. -/
inductive Misreads (masked : Text) (start : Nat) (name : Text) : Prop
  | word (stands : Behind "function".toList masked start name)
  | expression {head : List Char} (heads : Head head) (stands : Behind head masked start name)
      (inside : InExpression masked start)
  | value {property : List Char} {entryStart : Nat}
      (binds : Binds property masked start entryStart name)
      (cut : masked.depthAt entryStart ≠ 1 ∨ '=' ∈ property)

/-- A listed name is a plain identifier that names no temporary, and outside all brackets stands
what is spelled as its declaration or misread for one. -/
theorem declares_or_misreads_of_mem_names {body : String} {name : Text}
    (listed : name ∈ names body) :
    name.isIdentifier = true ∧ name.startsWith temporaryStem = false ∧
      ∃ start, (Text.mask body).depthAt start = 0 ∧
        (Declares (Text.mask body) start name ∨ Misreads (Text.mask body) start name) := by
  obtain ⟨masked, maskEq⟩ := (isString_ofString body).aligned.maskIsString
  simp only [names, List.mem_eraseDups, List.mem_filter, List.mem_map, Bool.and_eq_true,
    Bool.not_eq_true'] at listed
  obtain ⟨⟨⟨start, _⟩, member, rfl⟩, identifier, kept⟩ := listed
  refine ⟨identifier, kept, start, ?_⟩
  dsimp only
  rw [maskEq] at member ⊢
  rcases List.mem_append.mp (SourceOrder.mem_of_mem_sort member) with isSingle | destructured
  · simp only [List.mem_map, List.mem_filter, Prod.mk.injEq, beq_iff_eq] at isSingle
    obtain ⟨found, ⟨search, outside⟩, rfl, rfl⟩ := isSingle
    obtain ⟨head, heads | rfl, stands⟩ := exists_behind_of_mem_search search
    · refine ⟨outside, ?_⟩
      by_cases inside : InExpression (encode masked) found.span.start
      · exact .inr (.expression heads stands inside)
      · exact .inl (.behind heads stands inside)
    · exact ⟨outside, .inr (.word stands)⟩
  · simp only [List.mem_flatMap, List.mem_map, List.mem_filter, Prod.mk.injEq, beq_iff_eq]
      at destructured
    obtain ⟨found, ⟨search, outside⟩, entry, inside, rfl, rfl⟩ := destructured
    obtain ⟨property, entryStart, binds⟩ := exists_binds_of_mem_search search inside
    refine ⟨outside, ?_⟩
    by_cases cut : (encode masked).depthAt entryStart ≠ 1 ∨ '=' ∈ property
    · exact .inr (.value binds cut)
    · obtain ⟨direct, aliased⟩ := not_or.mp cut
      exact .inl (.bound binds (not_not.mp direct) aliased)

/-- An alias with a default value and a rest are told from their properties and dots. -/
theorem declares_or_misreads_rest :
    Text.ofString "others" ∈ names "const { a: b = 1, ...others } = o" ∧
      ∃ start, (Text.mask "const { a: b = 1, ...others } = o").depthAt start = 0 ∧
        (Declares (Text.mask "const { a: b = 1, ...others } = o") start "others" ∨
          Misreads (Text.mask "const { a: b = 1, ...others } = o") start "others") := by
  have listed : Text.ofString "others" ∈ names "const { a: b = 1, ...others } = o" := by
    decide +kernel
  exact ⟨listed, (declares_or_misreads_of_mem_names listed).2.2⟩

/-- A keyword that is a word of its own is told from the name by a blank or an asterisk. -/
theorem Head.exists_separator {head : List Char} (heads : Head head) :
    ∃ c ∈ head, CharacterClass.blank c.toNat = true ∨ c = '*' := by
  cases heads with
  | blanks spelled nonempty blank =>
    obtain ⟨c, inside⟩ := List.exists_mem_of_ne_nil _ nonempty
    exact ⟨c, List.mem_append_right _ inside, .inl (blank c inside)⟩
  | function nonempty blank starred moreBlank =>
    obtain ⟨c, inside⟩ := List.exists_mem_of_ne_nil _ nonempty
    refine ⟨c, List.mem_append_right _ inside, ?_⟩
    rcases List.mem_append.mp inside with inside | inside
    · rcases List.mem_append.mp inside with inside | inside
      · exact .inl (blank c inside)
      · rcases starred with rfl | rfl
        · exact absurd inside List.not_mem_nil
        · exact .inr (List.mem_singleton.mp inside)
    · exact .inl (moreBlank c inside)

/-- A word that begins like the keyword of a function is misread: what is listed for it is not
spelled as declared. -/
theorem not_declares_of_mem_names :
    ¬∀ (body : String) (name : Text), name ∈ names body →
      ∃ start, (Text.mask body).depthAt start = 0 ∧ Declares (Text.mask body) start name := by
  intro declared
  obtain ⟨start, -, declares⟩ := declared "functionality()" "ality" (by decide +kernel)
  have masked : Text.mask "functionality()" = encode "functionality()".toList := by decide +kernel
  have dark : ∀ c ∈ "functionality()".toList,
      ¬(CharacterClass.blank c.toNat = true ∨ c = '*') ∧ c ≠ '\x7b' :=
    forall_mem_of_all (by decide)
  cases declares with
  | behind heads stands apart =>
    obtain ⟨shape, -, -, -, -⟩ := stands
    obtain ⟨c, inside, separates⟩ := heads.exists_separator
    have same := encode_injective (masked.symm.trans shape)
    exact (dark c (by rw [same]; simp [inside])).1 separates
  | bound binds direct aliased =>
    obtain ⟨shape, -, -, -, -, -, -, -, -, -, -, -, -⟩ := binds
    have same := encode_injective (masked.symm.trans shape)
    exact (dark '\x7b' (by rw [same]; simp)).2 rfl

end Declaration

end BareComponent
