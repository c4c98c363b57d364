import BareComponent.Proofs.Mask.Literals
import BareComponent.Proofs.ReturnFilter.Filtered

/-! # Where objects are cut into entries

An object is cut where its mask has a comma at the top level. The masks of strings and comments show
nothing but their delimiters, so these stand in one entry as a whole. The code in the interpolations
of a template is shown without the delimiters of the interpolations, so a comma there is a comma of
the object unless brackets stand around it. An object cuts through a literal at such places and no
others.
-/

namespace BareComponent

namespace Text

/-- Whether a byte separates the pieces of a text whose first byte stands at a depth. -/
def Separates (separator : UInt8) (depth : Nat) (text : Text) (offset : Nat) : Prop :=
  text[offset]? = some separator ∧ (text.take offset).foldl depthStep depth = 0

section Separators

variable {separator b : UInt8} {depth start position place : Nat} {rest text : Text}

private theorem separates_zero :
    Separates separator depth (b :: rest) 0 ↔ b = separator ∧ depth = 0 := by
  simp [Separates]

private theorem separates_succ {offset : Nat} :
    Separates separator depth (b :: rest) (offset + 1) ↔
      Separates separator (depthStep depth b) rest offset := by
  simp [Separates]

private theorem piecesFrom_other (other : ¬(b = separator ∧ depth = 0)) :
    piecesFrom separator depth start position (b :: rest) =
      piecesFrom separator (depthStep depth b) start (position + 1) rest := by
  rw [piecesFrom, if_neg other]
  split
  · rfl
  · next bracket =>
    obtain ⟨opens, closes⟩ := not_or.mp bracket
    rw [depthStep, if_neg opens, if_neg closes]

variable (plain : Byte.isOpen separator = false ∧ Byte.isClose separator = false)
include plain

private theorem piecesFrom_separator :
    piecesFrom separator 0 start position (separator :: rest) =
      ⟨start, position⟩ :: piecesFrom separator 0 (position + 1) (position + 1) rest := by
  simp [piecesFrom, plain]

private theorem end_piecesFrom_iff :
    (∃ piece ∈ piecesFrom separator depth start position text,
        place = piece.start ∨ place = piece.stop) ↔
      place = start ∨ place = position + text.length ∨
        ∃ offset, Separates separator depth text offset ∧
          (place = position + offset ∨ place = position + offset + 1) := by
  induction text generalizing depth start position with
  | nil => simp [piecesFrom, Separates]
  | cons b rest ih =>
    have moved (count : Nat) : position + 1 + count = position + (count + 1) := by omega
    rw [← Nat.or_exists_add_one, separates_zero, List.length_cons]
    simp only [separates_succ]
    by_cases here : b = separator ∧ depth = 0
    · obtain ⟨rfl, rfl⟩ := here
      have same : depthStep 0 b = 0 := by simp [depthStep, plain]
      simp only [piecesFrom_separator plain, List.mem_cons, or_and_right, exists_or, exists_eq_left,
        ih, same, moved, Nat.add_zero, and_self, true_and]
      simp only [or_assoc, or_left_comm]
    · rw [piecesFrom_other here, ih]
      simp only [moved, here, false_and, false_or]

private theorem exists_mem_piecesFrom (starts : start ≤ position) (behind : start ≤ place)
    (inside : place < position + text.length)
    (other : ∀ offset, Separates separator depth text offset → place ≠ position + offset) :
    ∃ piece ∈ piecesFrom separator depth start position text,
      piece.start ≤ place ∧ place < piece.stop := by
  induction text generalizing depth start position with
  | nil => exact ⟨_, List.mem_singleton_self _, behind, inside⟩
  | cons b rest ih =>
    have moved (count : Nat) : position + (count + 1) = position + 1 + count := by omega
    have others : ∀ offset, Separates separator (depthStep depth b) rest offset →
        place ≠ position + 1 + offset := by
      intro offset separates
      rw [← moved]
      exact other (offset + 1) (separates_succ.mpr separates)
    rw [List.length_cons, moved] at inside
    by_cases here : b = separator ∧ depth = 0
    · obtain ⟨rfl, rfl⟩ := here
      have same : depthStep 0 b = 0 := by simp [depthStep, plain]
      rw [same] at others
      rw [piecesFrom_separator plain]
      have apart : place ≠ position := other 0 (separates_zero.mpr ⟨rfl, rfl⟩)
      rcases Nat.lt_or_gt_of_ne apart with front | back
      · exact ⟨_, List.mem_cons_self, behind, front⟩
      · obtain ⟨piece, member, holds⟩ := ih (Nat.le_refl _) back inside others
        exact ⟨piece, List.mem_cons_of_mem _ member, holds⟩
    · rw [piecesFrom_other here]
      exact ih (by omega) behind inside others

/-- The pieces of a text begin and end at its ends and at its separators. -/
theorem end_topLevelPieces_iff :
    (∃ piece ∈ text.topLevelPieces separator, place = piece.start ∨ place = piece.stop) ↔
      place = 0 ∨ place = text.length ∨
        ∃ offset, Separates separator 0 text offset ∧ (place = offset ∨ place = offset + 1) := by
  rw [topLevelPieces, end_piecesFrom_iff plain]
  simp only [Nat.zero_add]

/-- What is no separator of a text stands in one of its pieces. -/
theorem exists_mem_topLevelPieces (inside : place < text.length)
    (other : ¬Separates separator 0 text place) :
    ∃ piece ∈ text.topLevelPieces separator, piece.start ≤ place ∧ place < piece.stop := by
  refine exists_mem_piecesFrom plain (Nat.le_refl 0) (Nat.zero_le place) (by omega) ?_
  rintro offset separates rfl
  rw [Nat.zero_add] at other
  exact other separates

end Separators

theorem getElem?_slice {text : Text} {span : Span} {i : Nat} {b : UInt8}
    (reads : (text.slice span)[i]? = some b) :
    text[span.start + i]? = some b := by
  rw [slice, List.getElem?_drop, List.getElem?_take] at reads
  split at reads
  · exact reads
  · contradiction

end Text

namespace ReturnFilter

open Text Scanner

/-- The insides of the objects that filtering comes to, each where it stands in the whole mask: the
outermost ones, and those in the entries that it keeps. -/
inductive ComesTo (names : NameSet) (masked : Text) : (object : Span) → Prop
  | outermost {object : Span} (member : object ∈ objects masked) : ComesTo names masked object
  | deeper {outer entry object : Span} (comes : ComesTo names masked outer)
      (member : entry ∈ (masked.slice outer).topLevelPieces Byte.comma)
      (survives : names.hasKey (keyOf ((masked.slice outer).slice entry)) = false)
      (inside : object ∈ objects ((masked.slice outer).slice entry)) :
      ComesTo names masked (object.shift (outer.start + entry.start))

/-- Whether an object, given by its inside, is cut at a place. -/
def CutAt (masked : Text) (object : Span) (place : Nat) : Prop :=
  ∃ offset, place = object.start + offset ∧
    ∃ entry ∈ (masked.slice object).topLevelPieces Byte.comma,
      offset = entry.start ∨ offset = entry.stop

/-- Whether an object is cut inside a literal. -/
def Cuts (masked : Text) (object literal : Span) : Prop :=
  ∃ place, CutAt masked object place ∧ literal.start < place ∧ place < literal.stop

/-- Whether a comma at the top level of an object stands at a place, or the bracket that closes
it. -/
def Divides (masked : Text) (object : Span) (place : Nat) : Prop :=
  place = object.stop ∨
    ∃ offset, place = object.start + offset ∧ Separates Byte.comma 0 (masked.slice object) offset

/-- Whether an inside ends at a closing bracket. -/
private structure Closes (masked : Text) (object : Span) : Prop where
  ordered : object.start ≤ object.stop
  bracket : ∃ b, masked[object.stop]? = some b ∧ Byte.isClose b = true

private theorem closes_of_mem_closedFrom {masked : Text} {object : Span} {start : Nat}
    {found : List (Match Unit)} (member : object ∈ closedFrom masked start found) :
    Closes masked object := by
  induction found generalizing start with
  | nil => simp [closedFrom] at member
  | cons first rest ih =>
    rw [closedFrom] at member
    split at member
    · exact ih member
    · split at member
      · exact ih member
      · next closing closed =>
        rcases List.mem_cons.mp member with rfl | member
        · obtain ⟨behind, bracket⟩ := exists_of_closingOf? closed
          refine ⟨?_, bracket⟩
          dsimp only
          omega
        · exact ih member

section Cut

variable {names : NameSet} {masked script : Text} {object literal : Span}

private theorem ComesTo.closes (comes : ComesTo names masked object) : Closes masked object := by
  induction comes with
  | outermost member => exact closes_of_mem_closedFrom member
  | @deeper outer entry object _ _ _ inside _ =>
    obtain ⟨ordered, b, reads, bracket⟩ := closes_of_mem_closedFrom inside
    refine ⟨Nat.add_le_add_right ordered _, b, ?_, bracket⟩
    rw [Span.shift, Nat.add_comm object.stop, Nat.add_assoc]
    exact getElem?_slice (getElem?_slice reads)

private theorem Closes.length_slice (closes : Closes masked object) :
    object.start + (masked.slice object).length = object.stop := by
  obtain ⟨ordered, b, reads, -⟩ := closes
  have inside := (List.getElem?_eq_some_iff.mp reads).1
  rw [slice, List.length_drop, List.length_take_of_le inside.le]
  omega

private theorem Closes.getElem?_of_divides (closes : Closes masked object) {place : Nat}
    (divides : Divides masked object place) :
    ∃ b, masked[place]? = some b ∧ (b = Byte.comma ∨ Byte.isClose b = true) := by
  rcases divides with rfl | ⟨offset, rfl, separates⟩
  · obtain ⟨b, reads, bracket⟩ := closes.bracket
    exact ⟨b, reads, .inr bracket⟩
  · exact ⟨Byte.comma, getElem?_slice separates.1, .inl rfl⟩

private theorem cutAt_iff (closes : Closes masked object) {place : Nat} :
    CutAt masked object place ↔ place = object.start ∨ Divides masked object place ∨
      ∃ offset, place = object.start + offset + 1 ∧
        Separates Byte.comma 0 (masked.slice object) offset := by
  have length := closes.length_slice
  unfold CutAt
  simp only [end_topLevelPieces_iff (by decide : Byte.isOpen Byte.comma = false ∧ _)]
  constructor
  · rintro ⟨offset, rfl, rfl | rfl | ⟨comma, separates, rfl | rfl⟩⟩
    · exact .inl rfl
    · exact .inr (.inl (.inl length))
    · exact .inr (.inl (.inr ⟨offset, rfl, separates⟩))
    · exact .inr (.inr ⟨comma, rfl, separates⟩)
  · rintro (rfl | (rfl | ⟨comma, rfl, separates⟩) | ⟨comma, rfl, separates⟩)
    · exact ⟨0, rfl, .inl rfl⟩
    · exact ⟨_, length.symm, .inr (.inl rfl)⟩
    · exact ⟨comma, rfl, .inr (.inr ⟨comma, separates, .inl rfl⟩)⟩
    · exact ⟨comma + 1, rfl, .inr (.inr ⟨comma, separates, .inr rfl⟩)⟩

variable (isLiteral : IsLiteral script literal)
include isLiteral

private theorem interpolates_of_mask {place : Nat} {b : UInt8}
    (reads : script.mask[place]? = some b) (divides : b = Byte.comma ∨ Byte.isClose b = true)
    (behind : literal.start < place) (inside : place < literal.stop) :
    script[literal.start]? = some Byte.backtick ∧ Interpolates script literal place := by
  have dark : (b ≠ Byte.space ∧ b ≠ Byte.newline) ∧ b ≠ Byte.singleQuote ∧
      b ≠ Byte.doubleQuote ∧ b ≠ Byte.backtick := by
    simp only [Byte.isClose, Bool.or_eq_true, beq_iff_eq] at divides
    rcases divides with rfl | (rfl | rfl) | rfl <;> decide
  obtain ⟨dark, single, double, tick⟩ := dark
  obtain ⟨-, code, free⟩ := code_of_mask reads dark single double tick
  exact isLiteral.template_of_code behind inside code free

private theorem comma_ne_start {offset : Nat}
    (separates : Separates Byte.comma 0 (script.mask.slice object) offset) :
    object.start + offset ≠ literal.start := by
  intro same
  have reads := getElem?_slice separates.1
  rw [same] at reads
  exact isLiteral.begins.mask_ne_comma reads

variable (closes : Closes script.mask object) (starts : object.start ≤ literal.start)
include closes starts

private theorem template_of_cuts (cuts : Cuts script.mask object literal) :
    script[literal.start]? = some Byte.backtick ∧
      ∃ place, Interpolates script literal place ∧ Divides script.mask object place := by
  obtain ⟨place, cut, behind, inside⟩ := cuts
  have divided {place : Nat} (divides : Divides script.mask object place)
      (behind : literal.start < place) (inside : place < literal.stop) :
      script[literal.start]? = some Byte.backtick ∧
        ∃ place, Interpolates script literal place ∧ Divides script.mask object place := by
    obtain ⟨b, reads, kind⟩ := closes.getElem?_of_divides divides
    obtain ⟨template, interpolates⟩ := interpolates_of_mask isLiteral reads kind behind inside
    exact ⟨template, place, interpolates, divides⟩
  rcases (cutAt_iff closes).mp cut with rfl | divides | ⟨offset, rfl, separates⟩
  · omega
  · exact divided divides behind inside
  · have other := comma_ne_start isLiteral separates
    exact divided (.inr ⟨offset, rfl, separates⟩) (by omega) (by omega)

private theorem exists_entry_of_not_cuts (begins : literal.start < object.stop)
    (whole : ¬Cuts script.mask object literal) :
    ∃ entry ∈ (script.mask.slice object).topLevelPieces Byte.comma,
      object.start + entry.start ≤ literal.start ∧ literal.stop ≤ object.start + entry.stop := by
  have length := closes.length_slice
  obtain ⟨offset, same⟩ := Nat.exists_eq_add_of_le starts
  have other : ¬Separates Byte.comma 0 (script.mask.slice object) offset :=
    fun separates => comma_ne_start isLiteral separates same.symm
  obtain ⟨entry, member, front, back⟩ :=
    exists_mem_topLevelPieces (by decide) (by omega) other
  refine ⟨entry, member, by omega, ?_⟩
  by_contra short
  exact whole ⟨_, ⟨entry.stop, rfl, entry, member, .inr rfl⟩, by omega, by omega⟩

omit closes in
/-- An object cuts through a literal that begins in it exactly where the literal is a template in
whose interpolations the mask shows a comma at the top level of the object or the bracket that
closes it. Every other literal stands in one entry as a whole. -/
theorem cuts_literal_iff (comes : ComesTo names script.mask object)
    (begins : literal.start < object.stop) :
    (Cuts script.mask object literal ↔
      script[literal.start]? = some Byte.backtick ∧
        ∃ place, Interpolates script literal place ∧ Divides script.mask object place) ∧
      (¬Cuts script.mask object literal →
        ∃ entry ∈ (script.mask.slice object).topLevelPieces Byte.comma,
          object.start + entry.start ≤ literal.start ∧
            literal.stop ≤ object.start + entry.stop) := by
  refine ⟨⟨template_of_cuts isLiteral comes.closes starts, ?_⟩,
    exists_entry_of_not_cuts isLiteral comes.closes starts begins⟩
  rintro ⟨-, place, ⟨behind, inside, -⟩, divides⟩
  exact ⟨place, (cutAt_iff comes.closes).mpr (.inr (.inl divides)), behind, inside⟩

end Cut

private theorem comesTo_string : ComesTo (NameSet.ofList [Text.ofString "hidden"])
    (Text.ofString "return \x7b a: 'x, hidden, z' \x7d").mask ⟨8, 27⟩ :=
  .outermost (by decide +kernel)

/-- The literal is a string, whose commas cut nothing. -/
theorem cuts_literal_string :
    ComesTo (NameSet.ofList [Text.ofString "hidden"])
        (Text.ofString "return \x7b a: 'x, hidden, z' \x7d").mask ⟨8, 27⟩ ∧
      IsLiteral (Text.ofString "return \x7b a: 'x, hidden, z' \x7d") ⟨12, 26⟩ ∧
      ¬Cuts (Text.ofString "return \x7b a: 'x, hidden, z' \x7d").mask ⟨8, 27⟩ ⟨12, 26⟩ ∧
      ∃ entry ∈ ((Text.ofString "return \x7b a: 'x, hidden, z' \x7d").mask.slice
          ⟨8, 27⟩).topLevelPieces Byte.comma, 8 + entry.start ≤ 12 ∧ 26 ≤ 8 + entry.stop := by
  have isLiteral : IsLiteral (Text.ofString "return \x7b a: 'x, hidden, z' \x7d") ⟨12, 26⟩ := by
    decide +kernel
  obtain ⟨template, whole⟩ :=
    cuts_literal_iff isLiteral (by decide : 8 ≤ 12) comesTo_string (by decide)
  have uncut : ¬Cuts (Text.ofString "return \x7b a: 'x, hidden, z' \x7d").mask ⟨8, 27⟩ ⟨12, 26⟩ :=
    fun cuts => absurd (template.mp cuts).1 (by decide)
  exact ⟨comesTo_string, isLiteral, uncut, whole uncut⟩

/-- The commas between the operands of a comma operator in a template cut through it. -/
theorem apply_cuts_template :
    (NameSet.ofList [Text.ofString "hidden"]).Identifiers ∧
      ComesTo (NameSet.ofList [Text.ofString "hidden"])
        (Text.ofString "return \x7b a: `$\x7bx, hidden, z\x7d` \x7d").mask ⟨8, 30⟩ ∧
      IsLiteral (Text.ofString "return \x7b a: `$\x7bx, hidden, z\x7d` \x7d") ⟨12, 29⟩ ∧
      Cuts (Text.ofString "return \x7b a: `$\x7bx, hidden, z\x7d` \x7d").mask ⟨8, 30⟩ ⟨12, 29⟩ ∧
      apply (NameSet.ofList [Text.ofString "hidden"])
          (Text.ofString "return \x7b a: `$\x7bx, hidden, z\x7d` \x7d") =
        Text.ofString "return \x7b a: `$\x7bx, z\x7d` \x7d" := by
  refine ⟨by decide +kernel, .outermost (by decide +kernel), by decide +kernel, ?_,
    by decide +kernel⟩
  exact ⟨16, ⟨8, rfl, ⟨0, 8⟩, by decide +kernel, .inr rfl⟩, by decide, by decide⟩

end ReturnFilter

end BareComponent
