import BareComponent.Component.Import
import BareComponent.Proofs.Component.ImportLine
import BareComponent.Proofs.Text.Nesting
import BareComponent.Proofs.Text.Pieces
import Mathlib.Data.List.Infix

/-! # How the clause of an import is printed

Between `import` and `from` stand a default name, a namespace or a list of named exports in braces,
with white space between any two parts. Reading a printed clause gives back all that it binds, save
for some of the named exports that are bound to another name: `as` is found between single spaces
only, and a name `type` with a space behind it is taken for a mark of the export.
-/

namespace BareComponent

open Text RequireLine

namespace PrintedImport

/-- White space that may be left out. -/
abbrev Gap := {gap : List Char // Blank gap}

/-- White space that keeps two words apart. -/
abbrev Space := {gap : List Char // Blank gap ∧ gap ≠ []}

/-- An ASCII identifier. -/
abbrev Identifier := {name : List Char // (encode name).isIdentifier = true}

/-- One named export, with the white space around it. -/
structure Specifier where
  before : Gap
  imported : Identifier
  /-- The name that is bound instead, behind `as` and the white space on both sides of it. -/
  renamed : Option (Space × Space × Identifier)
  behind : Gap

/-- What stands between the braces of a clause: named exports with commas between them, and one
comma behind the last if it pleases. -/
inductive Specifiers where
  | nothing (gap : Gap)
  | last (specifier : Specifier)
  | more (specifier : Specifier) (rest : Specifiers)

/-- What a clause binds besides a default name. -/
inductive Tail where
  | whole (before : Gap) (behind : Space) (name : Identifier)
  | named (specifiers : Specifiers)

/-- What stands between `import` and `from`. -/
inductive Clause where
  | alone (name : Identifier)
  | bindings (tail : Tail)
  | both (name : Identifier) (before behind : Gap) (tail : Tail)

def called (behind : Space) (name : Identifier) : List Char :=
  "as".toList ++ behind.val ++ name.val

namespace Specifier

/-- The characters between the white space around a named export. -/
def body (specifier : Specifier) : List Char :=
  specifier.imported.val ++ match specifier.renamed with
    | none => []
    | some (before, behind, name) => before.val ++ called behind name

def spelled (specifier : Specifier) : List Char :=
  specifier.before.val ++ specifier.body ++ specifier.behind.val

def binding (specifier : Specifier) : Text × Text :=
  (encode specifier.imported.val, match specifier.renamed with
    | none => encode specifier.imported.val
    | some (_, _, name) => encode name.val)

/-- Whether a named export is dropped when it is read: `as` is not between spaces, or the export's
name is `type` with a space behind it. -/
def Lost (specifier : Specifier) : Prop :=
  match specifier.renamed with
  | none => False
  | some (before, behind, _) => before.val.getLast? ≠ some ' ' ∨ behind.val.head? ≠ some ' ' ∨
      specifier.imported.val = "type".toList ∧ before.val.head? = some ' '

end Specifier

namespace Specifiers

def toList : Specifiers → List Specifier
  | nothing _ => []
  | last specifier => [specifier]
  | more specifier rest => specifier :: rest.toList

def pieces : Specifiers → List (List Char)
  | nothing gap => [gap.val]
  | last specifier => [specifier.spelled]
  | more specifier rest => specifier.spelled :: rest.pieces

def spelled : Specifiers → List Char
  | nothing gap => gap.val
  | last specifier => specifier.spelled
  | more specifier rest => specifier.spelled ++ ',' :: rest.spelled

end Specifiers

namespace Tail

def outside : Tail → List Char
  | whole before behind name => '*' :: (before.val ++ called behind name)
  | named _ => []

def inside : Tail → Option Specifiers
  | whole _ _ _ => none
  | named specifiers => some specifiers

def namespaceName : Tail → Option Text
  | whole _ _ name => some (encode name.val)
  | named _ => none

end Tail

namespace Clause

def outside : Clause → List Char
  | alone name => name.val
  | bindings tail => tail.outside
  | both name before behind tail => name.val ++ before.val ++ ',' :: (behind.val ++ tail.outside)

def inside : Clause → Option Specifiers
  | alone _ => none
  | bindings tail => tail.inside
  | both _ _ _ tail => tail.inside

def spelled (clause : Clause) : List Char :=
  clause.outside ++ match clause.inside with
    | none => []
    | some specifiers => '{' :: specifiers.spelled ++ ['}']

def specifiers (clause : Clause) : List Specifier := (clause.inside.map (·.toList)).getD []

def bound (clause : Clause) : ImportClause where
  defaultName := match clause with
    | alone name | both name _ _ _ => some (encode name.val)
    | bindings _ => none
  namespaceName := match clause with
    | alone _ => none
    | bindings tail | both _ _ _ tail => tail.namespaceName
  named := clause.specifiers.map (·.binding)

end Clause

section Characters

/-- Whether some characters are words and white space. -/
def Plain (characters : List Char) : Prop :=
  ∀ c ∈ characters, (CharacterClass.wordOrDollar.or CharacterClass.blank) c.toNat = true

theorem Plain.append {first second : List Char} (plain : Plain first) (others : Plain second) :
    Plain (first ++ second) := List.forall_mem_append.mpr ⟨plain, others⟩

theorem Plain.not_mem {characters : List Char} (plain : Plain characters) {c : Char}
    (outside : (CharacterClass.wordOrDollar.or CharacterClass.blank) c.toNat = false) :
    c ∉ characters := fun member => by
  rw [plain c member] at outside
  contradiction

theorem plain_of_blank {gap : List Char} (blank : Blank gap) : Plain gap := fun c member => by
  simp [CharacterClass.or, blank c member]

variable (name : Identifier)

/-- An identifier is a name as the patterns read it. -/
theorem Identifier.isName : IsName name.val :=
  ComponentScript.isName_of_isIdentifier name.property

theorem Identifier.word : ∀ c ∈ name.val, CharacterClass.wordOrDollar c.toNat = true :=
  wordOrDollar_of_name name.isName

theorem Identifier.plain : Plain name.val := fun c member => by
  simp [CharacterClass.or, name.word c member]

theorem Identifier.dark : ∀ c ∈ name.val, CharacterClass.blank c.toNat = false :=
  dark_of_name name.isName

theorem Identifier.space_not_mem : ' ' ∉ name.val := fun member =>
  absurd (name.dark ' ' member) (by decide)

theorem Identifier.ne_nil : name.val ≠ [] := ne_nil_of_name name.isName

theorem plain_called (behind : Space) : Plain (called behind name) :=
  (Plain.append (forall_mem_of_all (by decide)) (plain_of_blank behind.property.1)).append
    name.plain

end Characters

section Renamed

private theorem exists_of_append_word {word rest front behind : List Char} {c : Char}
    (free : c ∉ word) (same : word ++ rest = front ++ c :: behind) :
    ∃ more, front = word ++ more ∧ rest = more ++ c :: behind := by
  rcases List.append_eq_append_iff.mp same with ⟨more, rfl, split⟩ | ⟨more, rfl, split⟩
  · exact ⟨more, rfl, split⟩
  · cases more with
    | nil => exact ⟨[], by simp, by simpa using split.symm⟩
    | cons d more =>
      obtain ⟨rfl, -⟩ := List.cons.inj split
      exact absurd (by simp) free

private theorem exists_of_append_gap {gap rest front behind : List Char} {c d : Char}
    (blank : Blank gap) (dark : CharacterClass.blank d.toNat = false)
    (same : gap ++ rest = front ++ c :: d :: behind) :
    (gap = front ++ [c] ∧ rest = d :: behind) ∨
      ∃ more, front = gap ++ more ∧ rest = more ++ c :: d :: behind := by
  rcases List.append_eq_append_iff.mp same with ⟨more, rfl, split⟩ | ⟨more, rfl, split⟩
  · exact .inr ⟨more, rfl, split⟩
  · rcases more with _ | ⟨e, _ | ⟨f, more⟩⟩
    · exact .inr ⟨[], by simp, by simpa using split.symm⟩
    · simp only [List.cons_append, List.nil_append, List.cons.injEq] at split
      exact .inl ⟨by rw [split.1], split.2.symm⟩
    · simp only [List.cons_append, List.cons.injEq] at split
      rw [split.2.1, blank f (by simp)] at dark
      contradiction

private theorem cut?_as_eq_none_iff {characters : List Char} :
    (encode characters).cut? " as " = none ↔
      ∀ first second, characters ≠ first ++ " as ".toList ++ second :=
  cut?_encode_eq_none_iff (List.cons_ne_nil _ _)

private theorem exists_of_cut?_as {characters : List Char} {sides : Text × Text}
    (cut : (encode characters).cut? " as " = some sides) : ∃ first second,
      characters = first ++ " as ".toList ++ second ∧ sides = (encode first, encode second) :=
  exists_of_cut?_encode (List.cons_ne_nil _ _) cut

variable {imported name : Identifier} {before behind : Space} {first second : List Char}

private theorem called_not_split (behind : Space) (name : Identifier) (first second : List Char) :
    called behind name ≠ first ++ " as ".toList ++ second := by
  intro same
  have letter : CharacterClass.blank 'a'.toNat = false := by decide
  have shape : "as".toList ++ (behind.val ++ name.val) =
      first ++ ' ' :: 'a' :: ("s ".toList ++ second) := by simpa [called] using same
  obtain ⟨more, rfl, rest⟩ := exists_of_append_word (by decide) shape
  rcases exists_of_append_gap behind.property.1 letter rest with ⟨-, last⟩ | ⟨more, rfl, last⟩
  · exact name.space_not_mem (by rw [last]; simp)
  · exact name.space_not_mem (by rw [last]; simp)

private theorem exists_of_split
    (same : imported.val ++ (before.val ++ called behind name) = first ++ " as ".toList ++ second) :
    ∃ front rest, before.val = front ++ [' '] ∧ behind.val = ' ' :: rest ∧
      first = imported.val ++ front ∧ second = rest ++ name.val := by
  have letter : CharacterClass.blank 'a'.toNat = false := by decide
  have shape : imported.val ++ (before.val ++ called behind name) =
      first ++ ' ' :: 'a' :: ("s ".toList ++ second) := by simpa using same
  obtain ⟨front, rfl, rest⟩ := exists_of_append_word imported.space_not_mem shape
  rcases exists_of_append_gap before.property.1 letter rest with ⟨ends, last⟩ | ⟨more, rfl, last⟩
  · have rest : behind.val ++ name.val = ' ' :: second := by simpa [called] using last
    obtain ⟨d, more, gap⟩ := List.exists_cons_of_ne_nil behind.property.2
    rw [gap, List.cons_append, List.cons.injEq] at rest
    exact ⟨front, more, ends, by rw [gap, rest.1], rfl, rest.2.symm⟩
  · exact absurd (by simpa using last) (called_not_split behind name more second)

private theorem not_isIdentifier_of_space (behind : Space) {characters : List Char}
    (inside : ∀ c ∈ behind.val, c ∈ characters) : (encode characters).isIdentifier = false := by
  obtain ⟨c, more, gap⟩ := List.exists_cons_of_ne_nil behind.property.2
  have blank := behind.property.1 c (by simp [gap])
  rw [← Bool.not_eq_true]
  intro isIdentifier
  have dark := Identifier.dark ⟨characters, isIdentifier⟩ c (inside c (by simp [gap]))
  rw [blank] at dark
  contradiction

end Renamed

/-- White space around a name is taken off. -/
theorem Identifier.trim_padded {front behind : List Char} (name : Identifier) (blank : Blank front)
    (behindBlank : Blank behind) : (encode (front ++ name.val ++ behind)).trim = encode name.val :=
  trim_encode_padded blank behindBlank
    (fun c first => name.dark c (List.mem_of_mem_head? first))
    fun c last => name.dark c (List.mem_of_getLast? last)

private theorem trim_called {front : List Char} (blank : Blank front) (behind : Space)
    (name : Identifier) :
    (encode (front ++ called behind name)).trim = encode (called behind name) := by
  have starts : ∀ c ∈ (called behind name).head?, CharacterClass.blank c.toNat = false := by
    intro c first
    obtain rfl : 'a' = c := Option.some.inj first
    decide
  have padded := trim_encode_padded blank blank_nil starts (dark_getLast?_of_name name.isName _)
  rwa [List.append_nil] at padded

namespace Specifier

variable (specifier : Specifier)

private theorem trim_spelled : (encode specifier.spelled).trim = encode specifier.body := by
  refine trim_encode_padded specifier.before.property specifier.behind.property ?_ ?_
  · intro c first
    obtain ⟨d, rest, shape⟩ := List.exists_cons_of_ne_nil specifier.imported.ne_nil
    rw [body, shape, List.cons_append, List.head?_cons] at first
    obtain rfl := Option.some.inj first
    exact specifier.imported.dark d (by simp [shape])
  · intro c last
    unfold body at last
    split at last
    · rw [List.append_nil] at last
      exact specifier.imported.dark c (List.mem_of_getLast? last)
    · next name _ =>
      rw [called, ← List.append_assoc, ← List.append_assoc] at last
      exact dark_getLast?_of_name name.isName _ c last

private theorem specifier?_plain (plain : specifier.renamed = none) :
    ImportClause.specifier? (encode specifier.spelled) = some specifier.binding := by
  have same : specifier.body = specifier.imported.val := by simp [body, plain]
  have untyped : (encode specifier.imported.val).after? "type " = none := by
    rw [Option.eq_none_iff_forall_ne_some]
    intro rest found
    have begins : encode specifier.imported.val = encode "type ".toList ++ rest :=
      after?_eq_some_iff.mp found
    obtain ⟨others, split, -⟩ := encode_eq_encode_append begins
    exact specifier.imported.space_not_mem (by rw [split]; simp)
  have uncut : (encode specifier.imported.val).cut? " as " = none := by
    refine cut?_as_eq_none_iff.mpr ?_
    intro first second split
    exact specifier.imported.space_not_mem (by rw [split]; simp)
  simp [ImportClause.specifier?, trim_spelled, same, untyped, uncut, specifier.imported.property,
    binding, plain]

section Renamed

variable {specifier} {before behind : Space} {name : Identifier}
  (renamed : specifier.renamed = some (before, behind, name))
include renamed

private theorem body_eq :
    specifier.body = specifier.imported.val ++ (before.val ++ called behind name) := by
  simp [body, renamed]

private theorem not_isIdentifier_body : (encode specifier.body).isIdentifier = false :=
  not_isIdentifier_of_space before fun c member => by simp [body_eq renamed, member]

private theorem after?_type_eq_some_iff {rest : Text} :
    (encode specifier.body).after? "type " = some rest ↔
      specifier.imported.val = "type".toList ∧
        ∃ more, before.val = ' ' :: more ∧ rest = encode (more ++ called behind name) := by
  have mark : ("type " : Text) = encode ("type".toList ++ [' ']) := ofString_eq _
  rw [after?_eq_some_iff, mark]
  constructor
  · intro same
    obtain ⟨others, split, rfl⟩ := encode_eq_encode_append same
    obtain ⟨c, more, gap⟩ := List.exists_cons_of_ne_nil before.property.2
    have blank := before.property.1 c (by simp [gap])
    rw [body_eq renamed, List.append_assoc, gap] at split
    obtain ⟨marked, behindType⟩ := append_inj_of_run
      (fun d : Char => CharacterClass.wordOrDollar d.toNat) split specifier.imported.word
      (forall_mem_of_all (by decide))
      (by simpa using CharacterClass.wordOrDollar_of_blank blank) (by simp; decide)
    simp only [List.cons_append, List.nil_append, List.cons.injEq] at behindType
    obtain ⟨rfl, rfl⟩ := behindType
    exact ⟨marked, more, gap, rfl⟩
  · rintro ⟨marked, more, gap, rfl⟩
    rw [← encode_append, body_eq renamed, marked, gap]
    simp

private theorem specifier?_marked (marked : specifier.imported.val = "type".toList)
    (spaced : before.val.head? = some ' ') :
    ImportClause.specifier? (encode specifier.spelled) = none := by
  obtain ⟨more, gap⟩ := List.head?_eq_some_iff.mp spaced
  have typed := (after?_type_eq_some_iff renamed).mpr ⟨marked, more, gap, rfl⟩
  have moreBlank : Blank more := fun c member => before.property.1 c (by simp [gap, member])
  have trimmed := trim_called moreBlank behind name
  have uncut : (encode (called behind name)).cut? " as " = none :=
    cut?_as_eq_none_iff.mpr (called_not_split behind name)
  have unnamed : (encode (called behind name)).isIdentifier = false :=
    not_isIdentifier_of_space behind fun c member => by simp [called, member]
  unfold ImportClause.specifier?
  rw [trim_spelled]
  dsimp only
  rw [typed, Option.map_some, Option.getD_some, trimmed, uncut]
  simp [unnamed]

private theorem specifier?_unmarked
    (unmarked : ¬(specifier.imported.val = "type".toList ∧ before.val.head? = some ' ')) :
    ImportClause.specifier? (encode specifier.spelled) =
      if before.val.getLast? = some ' ' ∧ behind.val.head? = some ' ' then some specifier.binding
      else none := by
  have untyped : (encode specifier.body).after? "type " = none := by
    rw [Option.eq_none_iff_forall_ne_some]
    intro rest found
    obtain ⟨marked, more, gap, -⟩ := (after?_type_eq_some_iff renamed).mp found
    exact unmarked ⟨marked, by rw [gap]; rfl⟩
  unfold ImportClause.specifier?
  rw [trim_spelled]
  dsimp only
  rw [untyped, Option.map_none, Option.getD_none]
  cases cut : (encode specifier.body).cut? " as " with
  | some sides =>
    obtain ⟨first, second, split, rfl⟩ := exists_of_cut?_as cut
    obtain ⟨front, rest, ends, begins, rfl, rfl⟩ := exists_of_split (body_eq renamed ▸ split)
    have frontBlank : Blank front := fun c member =>
      before.property.1 c (by simp [ends, member])
    have restBlank : Blank rest := fun c member =>
      behind.property.1 c (by simp [begins, member])
    have imported := specifier.imported.trim_padded blank_nil frontBlank
    have bound := name.trim_padded restBlank blank_nil
    rw [List.nil_append] at imported
    rw [List.append_nil] at bound
    simp only [imported, bound, specifier.imported.property, name.property]
    simp [binding, renamed, ends, begins]
  | none =>
    have nowhere := cut?_as_eq_none_iff.mp cut
    have apart : ¬(before.val.getLast? = some ' ' ∧ behind.val.head? = some ' ') := by
      rintro ⟨last, first⟩
      obtain ⟨front, ends⟩ := List.getLast?_eq_some_iff.mp last
      obtain ⟨rest, begins⟩ := List.head?_eq_some_iff.mp first
      refine nowhere (specifier.imported.val ++ front) (rest ++ name.val) ?_
      simp [body_eq renamed, called, ends, begins]
    rw [if_neg apart]
    simp [not_isIdentifier_body renamed]

end Renamed

instance : Decidable specifier.Lost := by
  unfold Lost
  split <;> infer_instance

/-- A named export is read, unless it is lost. -/
theorem specifier?_spelled : ImportClause.specifier? (encode specifier.spelled) =
    if specifier.Lost then none else some specifier.binding := by
  cases renamed : specifier.renamed with
  | none => rw [specifier?_plain specifier renamed, if_neg (by simp [Lost, renamed])]
  | some parts =>
    obtain ⟨before, behind, name⟩ := parts
    have lost : specifier.Lost ↔ before.val.getLast? ≠ some ' ' ∨ behind.val.head? ≠ some ' ' ∨
        specifier.imported.val = "type".toList ∧ before.val.head? = some ' ' := by
      rw [Lost, renamed]
    by_cases marked : specifier.imported.val = "type".toList ∧ before.val.head? = some ' '
    · rw [specifier?_marked renamed marked.1 marked.2, if_pos (lost.mpr (.inr (.inr marked)))]
    · rw [specifier?_unmarked renamed marked]
      have kept : specifier.Lost ↔
          ¬(before.val.getLast? = some ' ' ∧ behind.val.head? = some ' ') := by
        rw [lost]
        tauto
      by_cases spaced : before.val.getLast? = some ' ' ∧ behind.val.head? = some ' '
      · rw [if_pos spaced, if_neg (kept.not.mpr (not_not.mpr spaced))]
      · rw [if_neg spaced, if_pos (kept.mpr spaced)]

private theorem plain_spelled : Plain specifier.spelled := by
  have plain : Plain specifier.body := by
    unfold body
    split
    · simpa using specifier.imported.plain
    · next before behind name _ =>
      exact specifier.imported.plain.append
        ((plain_of_blank before.property.1).append (plain_called name behind))
  exact ((plain_of_blank specifier.before.property).append plain).append
    (plain_of_blank specifier.behind.property)

end Specifier

section Inside

private theorem comma_not_mem {characters : List Char} (plain : Plain characters) :
    ',' ∉ characters := plain.not_mem (by decide)

private theorem splitOn_spelled (specifiers : Specifiers) :
    specifiers.spelled.splitOn ',' = specifiers.pieces := by
  induction specifiers with
  | nothing gap =>
    exact List.splitOn_eq_singleton (comma_not_mem (plain_of_blank gap.property))
  | last specifier => exact List.splitOn_eq_singleton (comma_not_mem specifier.plain_spelled)
  | more specifier rest ih =>
    rw [Specifiers.spelled, Specifiers.pieces, ← ih]
    exact List.splitOn_append_cons_self_of_not_mem (comma_not_mem specifier.plain_spelled) _

private theorem trim_blank {gap : List Char} (blank : Blank gap) : (encode gap).trim = [] := by
  have padded : (encode (gap ++ [] ++ [])).trim = encode [] :=
    trim_encode_padded blank blank_nil (by simp) (by simp)
  simpa using padded

private theorem specifier?_blank {gap : List Char} (blank : Blank gap) :
    ImportClause.specifier? (encode gap) = none := by
  rw [ImportClause.specifier?, trim_blank blank]
  rfl

private theorem filterMap_spelled (specifiers : Specifiers) :
    ((encode specifiers.spelled).splitOn Byte.comma).filterMap ImportClause.specifier? =
      (specifiers.toList.filter fun specifier => ¬specifier.Lost).map (·.binding) := by
  have split : (encode specifiers.spelled).splitOn Byte.comma = specifiers.pieces.map encode := by
    rw [splitOn_encode (c := ',') (by decide) (by decide), splitOn_spelled]
  rw [split]
  clear split
  induction specifiers with
  | nothing gap => simp [Specifiers.pieces, Specifiers.toList, specifier?_blank gap.property]
  | last specifier =>
    by_cases lost : specifier.Lost <;>
      simp [Specifiers.pieces, Specifiers.toList, specifier.specifier?_spelled, lost]
  | more specifier rest ih =>
    by_cases lost : specifier.Lost <;>
      simp [Specifiers.pieces, Specifiers.toList, specifier.specifier?_spelled, lost, ih]

end Inside

section Outside

private theorem splitBraces_plain {text : Text} (free : Byte.openBrace ∉ text) :
    ImportClause.splitBraces text = (text, none) := by
  have nothing : text.indexOf? [Byte.openBrace] = none :=
    indexOf?_eq_none_iff.mpr (mt (List.singleton_infix_iff _ _).mp free)
  rw [ImportClause.splitBraces, nothing]

private theorem splitBraces_braced {outside : Text} (free : Byte.openBrace ∉ outside)
    (inside : Text) :
    ImportClause.splitBraces (outside ++ Byte.openBrace :: inside ++ [Byte.closeBrace]) =
      (outside, some inside) := by
  have opens := indexOf?_append_cons free (inside ++ [Byte.closeBrace])
  have closes : lastIndexOf? (outside ++ Byte.openBrace :: inside ++ [Byte.closeBrace])
      [Byte.closeBrace] = some (outside ++ Byte.openBrace :: inside).length :=
    lastIndexOf?_append_cons _ List.not_mem_nil
  have ordered : outside.length < (outside ++ Byte.openBrace :: inside).length := by simp
  have cut : slice (outside ++ [Byte.openBrace] ++ inside ++ [Byte.closeBrace])
      ⟨outside.length + 1, (outside ++ Byte.openBrace :: inside).length⟩ = inside := by
    refine slice_append _ List.length_append ?_
    rw [List.length_append, List.length_cons]
    omega
  rw [← List.cons_append, ← List.append_assoc] at opens
  rw [List.append_assoc outside, List.singleton_append] at cut
  rw [ImportClause.splitBraces, opens, closes]
  dsimp only
  rw [if_pos ordered, cut, List.append_assoc, List.take_left]

private theorem addOutside_name (clause : ImportClause) (name : Identifier) {behind : List Char}
    (blank : Blank behind) : clause.addOutside (encode (name.val ++ behind)) =
      { clause with defaultName := some (encode name.val) } := by
  have trimmed := name.trim_padded blank_nil blank
  rw [List.nil_append] at trimmed
  have starless : (encode name.val).after? [Byte.asterisk] = none := by
    rw [Option.eq_none_iff_forall_ne_some]
    intro rest found
    have star : Byte.asterisk ∈ encode name.val := by
      rw [after?_eq_some_iff.mp found]
      simp
    exact name.plain.not_mem (by decide)
      ((mem_encode_iff (c := '*') (by decide) (by decide)).mp star)
  rw [ImportClause.addOutside, trimmed, starless]
  simp [name.property]

private theorem addOutside_tail (defaultName : Option Text) {front : List Char}
    (blank : Blank front) (tail : Tail) :
    ImportClause.addOutside ⟨defaultName, none, []⟩ (encode (front ++ tail.outside)) =
      ⟨defaultName, tail.namespaceName, []⟩ := by
  cases tail with
  | named specifiers =>
    rw [ImportClause.addOutside, Tail.outside, List.append_nil, trim_blank blank]
    rfl
  | whole before behind name =>
    let rest := before.val ++ called behind name
    have trimmed : (encode (front ++ '*' :: rest)).trim = encode ('*' :: rest) := by
      have ends := dark_getLast?_of_name name.isName
        ('*' :: (before.val ++ ("as".toList ++ behind.val)))
      have padded : (encode (front ++ '*' :: rest ++ [])).trim = encode ('*' :: rest) :=
        trim_encode_padded blank blank_nil (by simp; decide) (by simpa [rest, called] using ends)
      rwa [List.append_nil] at padded
    have starred : (encode ('*' :: rest)).after? [Byte.asterisk] = some (encode rest) :=
      after?_eq_some_iff.mpr rfl
    have dropped : (encode (called behind name)).dropCopies "as" =
        encode (behind.val ++ name.val) := by
      have apart : (encode (behind.val ++ name.val)).startsWith "as" = false := by
        rw [← Bool.not_eq_true, startsWith_iff]
        rintro ⟨others, split⟩
        obtain ⟨d, more, gap⟩ := List.exists_cons_of_ne_nil behind.property.2
        have letter : 'a' = d := by
          have shape : encode (behind.val ++ name.val) = encode ['a'] ++ (encode ['s'] ++ others) :=
            split
          obtain ⟨rest, same, -⟩ := encode_eq_encode_append shape
          rw [gap] at same
          exact (List.cons.inj same).1.symm
        exact absurd (behind.property.1 d (by simp [gap])) (by rw [← letter]; decide)
      have single := dropCopies_append (List.cons_ne_nil _ _) apart 1
      rwa [List.replicate_one, List.flatten_singleton] at single
    have named : (encode (behind.val ++ name.val)).trim = encode name.val := by
      have padded := name.trim_padded behind.property.1 blank_nil
      rwa [List.append_nil] at padded
    rw [ImportClause.addOutside, Tail.outside, trimmed, starred]
    dsimp only
    rw [trim_called before.property, dropped, named, if_pos name.property]
    rfl

section Characters

variable {c : Char}
  (outside : (CharacterClass.wordOrDollar.or CharacterClass.blank) c.toNat = false)
include outside

private theorem Tail.not_mem_outside (tail : Tail) (star : c ≠ '*') : c ∉ tail.outside := by
  cases tail with
  | named specifiers => exact List.not_mem_nil
  | whole before behind name =>
    have plain := (plain_of_blank before.property).append (plain_called name behind)
    exact List.not_mem_cons_of_ne_of_not_mem star (plain.not_mem outside)

private theorem Clause.not_mem_outside (clause : Clause) (other : c ∉ ['*', ',']) :
    c ∉ clause.outside := by
  obtain ⟨star, comma⟩ : c ≠ '*' ∧ c ≠ ',' := by simpa using other
  cases clause with
  | alone name => exact name.plain.not_mem outside
  | bindings tail => exact tail.not_mem_outside outside star
  | both name before behind tail =>
    simp [Clause.outside, comma, tail.not_mem_outside outside star, name.plain.not_mem outside,
      (plain_of_blank before.property).not_mem outside,
      (plain_of_blank behind.property).not_mem outside]

private theorem Specifiers.not_mem_spelled (specifiers : Specifiers) (comma : c ≠ ',') :
    c ∉ specifiers.spelled := by
  induction specifiers with
  | nothing gap => exact (plain_of_blank gap.property).not_mem outside
  | last specifier => exact specifier.plain_spelled.not_mem outside
  | more specifier rest ih =>
    simp [Specifiers.spelled, comma, ih, specifier.plain_spelled.not_mem outside]

/-- A clause is made of words, white space, and the marks that stand between them. -/
theorem Clause.not_mem_spelled (clause : Clause) (other : c ∉ ['*', ',', '{', '}']) :
    c ∉ clause.spelled := by
  obtain ⟨star, comma, opening, closing⟩ : c ≠ '*' ∧ c ≠ ',' ∧ c ≠ '{' ∧ c ≠ '}' := by
    simpa using other
  have front := clause.not_mem_outside outside (by simp [star, comma])
  unfold Clause.spelled
  cases clause.inside with
  | none => simpa using front
  | some specifiers => simp [front, opening, closing, specifiers.not_mem_spelled outside comma]

end Characters

private theorem foldl_outside (clause : Clause) :
    ((encode clause.outside).splitOn Byte.comma).foldl ImportClause.addOutside ⟨none, none, []⟩ =
      ⟨clause.bound.defaultName, clause.bound.namespaceName, []⟩ := by
  have split : (encode clause.outside).splitOn Byte.comma =
      (clause.outside.splitOn ',').map encode := splitOn_encode (by decide) (by decide) _
  have single {characters : List Char} (free : ',' ∉ characters) :
      characters.splitOn ',' = [characters] := List.splitOn_eq_singleton free
  have openTail (tail : Tail) : ',' ∉ tail.outside :=
    tail.not_mem_outside (by decide) (by decide)
  rw [split]
  cases clause with
  | alone name =>
    have read := addOutside_name ⟨none, none, []⟩ name blank_nil
    rw [List.append_nil] at read
    rw [Clause.outside, single (comma_not_mem name.plain)]
    exact read
  | bindings tail =>
    rw [Clause.outside, single (openTail tail)]
    exact addOutside_tail none blank_nil tail
  | both name before behind tail =>
    have front := comma_not_mem (name.plain.append (plain_of_blank before.property))
    have rest : ',' ∉ behind.val ++ tail.outside := by
      simp [comma_not_mem (plain_of_blank behind.property), openTail tail]
    rw [Clause.outside, List.splitOn_append_cons_self_of_not_mem front, single rest]
    simp only [List.map_cons, List.map_nil, List.foldl_cons, List.foldl_nil]
    rw [addOutside_name _ name before.property]
    exact addOutside_tail _ behind.property tail

private theorem splitBraces_spelled (clause : Clause) :
    ImportClause.splitBraces (encode clause.spelled) =
      (encode clause.outside, clause.inside.map (encode ·.spelled)) := by
  have free : Byte.openBrace ∉ encode clause.outside :=
    mt (mem_encode_iff (c := '{') (by decide) (by decide)).mp
      (clause.not_mem_outside (by decide) (by decide))
  unfold Clause.spelled
  cases clause.inside with
  | none =>
    rw [List.append_nil]
    exact splitBraces_plain free
  | some specifiers =>
    have shape : encode (clause.outside ++ ('{' :: specifiers.spelled ++ ['}'])) =
        encode clause.outside ++ Byte.openBrace :: encode specifiers.spelled ++
          [Byte.closeBrace] := by
      rw [encode_append, encode_append, encode_cons, ← List.append_assoc]
      rfl
    rw [shape]
    exact splitBraces_braced free _

end Outside

section Ends

/-- A clause begins with a character that is no blank. -/
theorem Clause.dark_head? (clause : Clause) (rest : List Char) :
    ∀ c ∈ (clause.spelled ++ rest).head?, CharacterClass.blank c.toNat = false := by
  have named (name : Identifier) (rest : List Char) : ∀ c ∈ (name.val ++ rest).head?,
      CharacterClass.blank c.toNat = false := by
    intro c first
    rw [List.head?_append_of_ne_nil _ name.ne_nil] at first
    exact name.dark c (List.mem_of_mem_head? first)
  unfold spelled
  cases clause with
  | alone name =>
    unfold outside
    rw [List.append_assoc]
    exact named name _
  | bindings tail =>
    intro c first
    cases tail with
    | whole before behind name =>
      obtain rfl : '*' = c := Option.some.inj first
      decide
    | named specifiers =>
      obtain rfl : '{' = c := Option.some.inj first
      decide
  | both name before behind tail =>
    unfold outside
    simp only [List.append_assoc]
    exact named name _

private theorem Tail.dark_getLast? (tail : Tail) (front : List Char) :
    ∀ c ∈ (front ++ tail.outside ++ match tail.inside with
      | none => []
      | some specifiers => '{' :: specifiers.spelled ++ ['}']).getLast?,
        CharacterClass.blank c.toNat = false := by
  cases tail with
  | whole before behind name =>
    have last := dark_getLast?_of_name name.isName
      (front ++ '*' :: (before.val ++ ("as".toList ++ behind.val)))
    simpa [outside, inside, called] using last
  | named specifiers =>
    intro c last
    dsimp only [inside] at last
    rw [← List.append_assoc, List.getLast?_concat] at last
    obtain rfl := Option.some.inj last
    decide

/-- A clause ends with a character that is no blank. -/
theorem Clause.dark_getLast? (clause : Clause) (front : List Char) :
    ∀ c ∈ (front ++ clause.spelled).getLast?, CharacterClass.blank c.toNat = false := by
  cases clause with
  | alone name =>
    have last := dark_getLast?_of_name name.isName front
    simpa [spelled, outside, inside] using last
  | bindings tail =>
    have last := tail.dark_getLast? front
    rw [List.append_assoc] at last
    exact last
  | both name before behind tail =>
    have last := tail.dark_getLast? (front ++ (name.val ++ before.val ++ ',' :: behind.val))
    simpa only [spelled, outside, inside, List.append_assoc, List.cons_append] using last

end Ends

/-- A printed clause is read as what it binds, without the named exports that are lost. -/
theorem ofText_spelled (clause : Clause) : ImportClause.ofText (encode clause.spelled) =
    { clause.bound with
      named := (clause.specifiers.filter fun specifier => ¬specifier.Lost).map (·.binding) } := by
  unfold ImportClause.ofText
  rw [splitBraces_spelled]
  dsimp only
  rw [foldl_outside]
  cases inside : clause.inside with
  | none => simp [Clause.specifiers, inside]
  | some specifiers => simp [Clause.specifiers, inside, filterMap_spelled]

/-- A printed clause is read as what it binds if and only if no named export is lost. -/
theorem ofText_spelled_eq_iff (clause : Clause) :
    ImportClause.ofText (encode clause.spelled) = clause.bound ↔
      ∀ specifier ∈ clause.specifiers, ¬specifier.Lost := by
  rw [ofText_spelled]
  constructor
  · intro same
    have counted := congrArg (fun clause : ImportClause => clause.named.length) same
    simp only [Clause.bound, List.length_map] at counted
    simpa using List.length_filter_eq_length_iff.mp counted
  · intro kept
    rw [List.filter_eq_self.mpr (by simpa using kept)]
    rfl

end PrintedImport

end BareComponent
