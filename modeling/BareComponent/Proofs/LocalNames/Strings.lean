import BareComponent.Proofs.LocalNames.Around
import BareComponent.Proofs.Pattern.Parts

/-! # Strings and local names

Style blocks are hidden before strings are told from code, so what a string holds can begin a style
block or end one. Where no style block reaches into a string, and the text in front of it is closed
once its own style blocks are hidden, the string is masked as a whole, and the local names of the
source depend on no more of it than its length.
-/

namespace BareComponent

open Text Pattern Cursor

namespace LocalNames

def closingTag : List Char := "</style>".toList

/-- Whether some characters are one style block: a tag and all that comes up to the next closing
tag. -/
def IsStyleBlock (block : List Char) : Prop :=
  ∃ attributes content, block = "<style".toList ++ attributes ++ ['>'] ++ content ++ closingTag ∧
    '>' ∉ attributes ∧ isWord attributes.head? = false ∧
      (encode (content ++ closingTag)).indexOf? (encode closingTag) = some (encode content).length

private theorem inAttributes_iff {c : Char} :
    CharacterClass.noneOf (ofString ">") c.toNat = true ↔ c ≠ '>' := by
  have one : CharacterClass.oneOf (encode ['>']) c.toNat = true ↔ c ∈ ['>'] :=
    CharacterClass.oneOf_encode (by simp) c
  rw [CharacterClass.noneOf, Bool.not_eq_true', ← Bool.not_eq_true]
  exact not_congr (one.trans List.mem_singleton)

private theorem indexOf?_closingTag (content rest : List Char) :
    (encode (content ++ (closingTag ++ rest))).indexOf? (encode closingTag) =
        some (encode content).length ↔
      (encode (content ++ closingTag)).indexOf? (encode closingTag) =
        some (encode content).length := by
  rw [← List.append_assoc, encode_append _ rest]
  exact indexOf?_append (by simp) _

private theorem wordBoundary_iff (before attributes rest : List Char) :
    isWord (before ++ "<style".toList).getLast? ≠ isWord (attributes ++ (['>'] ++ rest)).head? ↔
      isWord attributes.head? = false := by
  have letter : isWord (before ++ "<style".toList).getLast? = true := by
    rw [List.getLast?_append_of_ne_nil _ (by decide)]
    decide
  rw [letter]
  cases attributes with
  | nil =>
    have mark : true ≠ isWord (some '>') := by decide
    exact iff_of_true mark rfl
  | cons c attributes => simp

/-- The pattern takes exactly the style blocks. -/
theorem mem_styleBlock {before after : List Char} {value : Unit} {next : Cursor} :
    (value, next) ∈ styleBlock (between before after) ↔
      ∃ block rest, after = block ++ rest ∧ IsStyleBlock block ∧
        next = between (before ++ block) rest := by
  simp only [styleBlock, mem_bind]
  constructor
  · rintro ⟨_, _, tag, _, _, edge, _, _, inside, _, _, mark, _, _, body, closing⟩
    obtain ⟨_, rfl, rfl⟩ := mem_literal.mp (tag : _ ∈ literal (encode "<style".toList) _)
    obtain ⟨boundary, rfl⟩ := mem_wordBoundary.mp edge
    obtain ⟨attributes, _, rfl, others, -, rfl⟩ := mem_run.mp inside
    replace mark : _ ∈ literal (encode ['>']) _ := mark
    obtain ⟨_, rfl, rfl⟩ := mem_literal.mp mark
    obtain ⟨content, _, rfl, first, rfl⟩ := (mem_upTo (b := Byte.less) (by decide)).mp body
    replace closing : _ ∈ literal (encode closingTag) _ := closing
    obtain ⟨rest, rfl, rfl⟩ := mem_literal.mp closing
    refine ⟨"<style".toList ++ attributes ++ ['>'] ++ content ++ closingTag, rest, ?_,
      ⟨attributes, content, rfl, ?_, (wordBoundary_iff before attributes _).mp boundary,
        (indexOf?_closingTag content rest).mp first⟩, ?_⟩
    · simp only [List.append_assoc]
    · exact fun member => inAttributes_iff.mp (others '>' member) rfl
    · simp only [List.append_assoc]
  · rintro ⟨_, rest, rfl, ⟨attributes, content, rfl, others, boundary, first⟩, rfl⟩
    have passed : ∀ c ∈ attributes, CharacterClass.noneOf (ofString ">") c.toNat = true :=
      fun c member => inAttributes_iff.mpr fun same => others (same ▸ member)
    have stop : ∀ c ∈ (['>'] ++ (content ++ (closingTag ++ rest))).head?,
        CharacterClass.noneOf (ofString ">") c.toNat = false := by
      rintro c ⟨⟩
      decide
    simp only [List.append_assoc]
    refine ⟨(), _, literal_mem before "<style".toList _, (), _,
      mem_wordBoundary.mpr ⟨(wordBoundary_iff before attributes _).mpr boundary, rfl⟩, (), _,
      mem_run.mpr ⟨attributes, _, rfl, passed, stop, rfl⟩, (), _, literal_mem _ ['>'] _, (), _,
      (mem_upTo (b := Byte.less) (by decide)).mpr
        ⟨content, closingTag ++ rest, rfl, (indexOf?_closingTag content rest).mpr first, rfl⟩, ?_⟩
    have closing := literal_mem
      (before ++ "<style".toList ++ attributes ++ ['>'] ++ content) closingTag rest
    simp only [List.append_assoc] at closing ⊢
    exact closing

private theorem IsStyleBlock.unique {block other rest behind : List Char}
    (isBlock : IsStyleBlock block) (isOther : IsStyleBlock other)
    (same : block ++ rest = other ++ behind) : block = other ∧ rest = behind := by
  obtain ⟨attributes, content, rfl, apart, -, first⟩ := isBlock
  obtain ⟨others, body, rfl, othersApart, -, othersFirst⟩ := isOther
  simp only [List.append_assoc] at same
  have tags := List.append_cancel_left same
  obtain ⟨rfl, -, contents⟩ := append_cons_inj_of_front (· ≠ '>') tags (by simp) (by simp)
    (fun c member same => apart (same ▸ member)) fun c member same => othersApart (same ▸ member)
  replace contents : content ++ (closingTag ++ rest) = body ++ (closingTag ++ behind) := contents
  have place := (indexOf?_closingTag content rest).mpr first
  rw [contents, (indexOf?_closingTag body behind).mpr othersFirst, Option.some_inj] at place
  obtain ⟨more, rfl, closings⟩ := exists_append_of_length_le contents place.ge
  have nothing : more = [] := by
    rw [encode_append, List.length_append] at place
    exact eq_nil_of_encode (List.length_eq_zero_iff.mp (by omega))
  rw [nothing, List.nil_append] at closings
  exact ⟨by simp [nothing], List.append_cancel_left closings⟩

/-- A style block is the same wherever it stands. -/
theorem detached_styleBlock : Detached styleBlock IsStyleBlock := by
  intro before after found
  constructor
  · intro here
    obtain ⟨next, matched, span, -⟩ := exists_of_matchAt? here
    obtain ⟨block, rest, rfl, isBlock, rfl⟩ := mem_styleBlock.mp matched
    rw [position_between, position_between] at span
    refine ⟨block, rest, rfl, ?_, isBlock, by rw [← span]⟩
    obtain ⟨attributes, content, rfl, -⟩ := isBlock
    simp
  · rintro ⟨block, rest, rfl, nonempty, isBlock, rfl⟩
    refine matchAt?_of_unique nonempty
      (mem_styleBlock.mpr ⟨block, rest, rfl, isBlock, rfl⟩) fun _ cursor member => ⟨rfl, ?_⟩
    obtain ⟨other, behind, same, isOther, rfl⟩ := mem_styleBlock.mp member
    obtain ⟨rfl, rfl⟩ := isBlock.unique isOther same
    rfl

/-- Whether no style block of a text reaches over a place. -/
def StylesBeside (text : Text) (place : Nat) : Prop :=
  ∀ found ∈ styleBlock.search text, found.Beside place

/-- Where no style block reaches over a cut, the style blocks of each part are hidden. -/
theorem hideStyles_append {first second : List Char}
    (apart : StylesBeside (encode (first ++ second)) (encode first).length) :
    hideStyles (encode (first ++ second)) =
      hideStyles (encode first) ++ hideStyles (encode second) := by
  have inside (found : Match Unit) (member : found ∈ styleBlock.search (encode first)) :
      found.span.stop ≤ (encode first).length :=
    (detached_styleBlock.span_of_mem_search member).2
  have editsFirst : (styleBlock.search (encode first)).map (fun found =>
      (found.span, ((encode (first ++ second)).slice found.span).blanked)) =
      (styleBlock.search (encode first)).map fun found =>
        (found.span, ((encode first).slice found.span).blanked) := by
    refine List.map_congr_left fun found member => ?_
    rw [encode_append, slice_append_of_le (inside found member)]
  have editsSecond : (styleBlock.search (encode second)).map ((fun found =>
      (found.span, ((encode (first ++ second)).slice found.span).blanked)) ∘
        (·.shift (encode first).length)) =
      shiftEdits (encode first).length ((styleBlock.search (encode second)).map fun found =>
        (found.span, ((encode second).slice found.span).blanked)) := by
    rw [shiftEdits, List.map_map]
    refine List.map_congr_left fun found _ => ?_
    simp only [Function.comp_apply, Match.shift, encode_append, slice_shift]
  rw [hideStyles, detached_styleBlock.search_append apart, List.map_append, List.map_map,
    editsFirst, editsSecond, encode_append, replace_append, hideStyles, hideStyles]
  intro edit member
  obtain ⟨found, listed, rfl⟩ := List.mem_map.mp member
  have := detached_styleBlock.span_of_mem_search listed
  exact ⟨this.1.le.trans this.2, this.2⟩

/-- Where no style block reaches into a stretch, it stays as it is and the style blocks on either
side of it are hidden. -/
theorem hideStyles_around {first middle last : List Char}
    (apart : ∀ found ∈ styleBlock.search (encode (first ++ (middle ++ last))),
      found.span.stop ≤ (encode first).length ∨
        (encode first).length + (encode middle).length ≤ found.span.start) :
    hideStyles (encode (first ++ (middle ++ last))) =
      hideStyles (encode first) ++ (encode middle ++ hideStyles (encode last)) := by
  have inFront : StylesBeside (encode (first ++ (middle ++ last))) (encode first).length :=
    fun found member => (apart found member).imp_right (Nat.le_of_add_right_le ·)
  have later (found : Match Unit) (member : found ∈ styleBlock.search (encode (middle ++ last))) :
      (encode middle).length ≤ found.span.start := by
    have forward := (detached_styleBlock.span_of_mem_search member).1
    have beside := apart _ (detached_styleBlock.shift_mem_search inFront member)
    simp only [Match.shift, Span.shift] at beside
    omega
  have behind : StylesBeside (encode (middle ++ last)) (encode middle).length :=
    fun found member => .inr (later found member)
  have nothing : styleBlock.search (encode middle) = [] := by
    refine List.eq_nil_iff_forall_not_mem.mpr fun found member => ?_
    have inside := detached_styleBlock.span_of_mem_search member
    rw [detached_styleBlock.search_append behind] at later
    have := later found (List.mem_append_left _ member)
    omega
  rw [hideStyles_append inFront, hideStyles_append behind,
    hideStyles_of_search_eq_nil nothing]

def withString (front content behind : Text) : Text :=
  front ++ (Byte.singleQuote :: content ++ [Byte.singleQuote] ++ behind)

/-- Whether no style block reaches into the string between two texts. -/
def StylesApart (front content behind : Text) : Prop :=
  ∀ found ∈ styleBlock.search (withString front content behind),
    found.span.stop ≤ front.length ∨ front.length + content.length + 2 ≤ found.span.start

/-- Whether a text can stand between single quotes as it is. -/
def PlainContent (content : Text) : Prop :=
  ∀ b ∈ content, b ≠ Byte.singleQuote ∧ b ≠ Byte.backslash ∧ b ≠ Byte.newline

section WithString

variable {front content behind : List Char}

private theorem withString_encode : withString (encode front) (encode content) (encode behind) =
    encode (front ++ (('\'' :: content ++ ['\'']) ++ behind)) := by
  have quote : String.utf8EncodeChar '\'' = [Byte.singleQuote] := rfl
  simp [withString, quote]

/-- Style blocks that do not reach into a string are hidden on either side of it. -/
theorem hideStyles_withString
    (apart : StylesApart (encode front) (encode content) (encode behind)) :
    hideStyles (withString (encode front) (encode content) (encode behind)) =
      withString (hideStyles (encode front)) (encode content) (hideStyles (encode behind)) := by
  have quote : String.utf8EncodeChar '\'' = [Byte.singleQuote] := rfl
  rw [withString_encode]
  rw [StylesApart, withString_encode] at apart
  rw [hideStyles_around fun found member => ?_]
  · simp [withString, quote]
  · have length : (encode ('\'' :: content ++ ['\''])).length = (encode content).length + 2 := by
      simp [quote]
    rw [length]
    exact apart found member

end WithString

/-- A string behind a closed text is masked as a whole. -/
theorem mask_withString {front content behind : Text} (closed : front.LexicallyClosed)
    (contentString : IsString content) (behindString : IsString behind)
    (plain : PlainContent content) :
    (withString front content behind).mask =
      withString front.mask (List.replicate content.length Byte.space) behind.mask := by
  have hides : Scanner.Hides .single content := Scanner.hides_plain plain
  have settles := hides.settles
  have quote : IsString [Byte.singleQuote] := isString_ofString "'"
  have literal : IsString (Byte.singleQuote :: content ++ [Byte.singleQuote]) :=
    (quote.append contentString).append quote
  obtain ⟨rest, restEq⟩ := (literal.append behindString).exists_string
  obtain ⟨more, rfl⟩ := behindString.exists_string
  have masked := settles.lexicallyClosed more
  have stringMasked : mask (Byte.singleQuote :: content ++ [Byte.singleQuote]) =
      Byte.singleQuote :: List.replicate content.length Byte.space ++ [Byte.singleQuote] := by
    rw [mask_eq_scan]
    exact (settles none).1
  rw [withString, restEq, closed rest, ← restEq]
  exact congrArg (front.mask ++ ·) (masked.trans (congrArg (· ++ _) stringMasked))

/-- A source has the same local names whatever stands in a string of it, as long as the string keeps
its length, no style block reaches into it, and the text in front of it is closed once its style
blocks are hidden. -/
theorem ofSource_withString {front behind first second : String}
    (sameLength : (ofString first).length = (ofString second).length)
    (firstPlain : PlainContent (ofString first)) (secondPlain : PlainContent (ofString second))
    (closed : (hideStyles (ofString front)).LexicallyClosed)
    (firstApart : StylesApart (ofString front) (ofString first) (ofString behind))
    (secondApart : StylesApart (ofString front) (ofString second) (ofString behind)) :
    ofSource (withString (ofString front) (ofString first) (ofString behind)) =
      ofSource (withString (ofString front) (ofString second) (ofString behind)) := by
  have behindString := (Checked.hideStyles_eq_ok (isString_ofString behind)).2
  have masked {content : String} (plain : PlainContent (ofString content))
      (apart : StylesApart (ofString front) (ofString content) (ofString behind)) :
      (hideStyles (withString (ofString front) (ofString content) (ofString behind))).mask =
        withString (hideStyles (ofString front)).mask
          (List.replicate (ofString content).length Byte.space)
          (hideStyles (ofString behind)).mask := by
    have hidden : hideStyles (withString (ofString front) (ofString content) (ofString behind)) =
        withString (hideStyles (ofString front)) (ofString content)
          (hideStyles (ofString behind)) := by
      simp only [ofString_eq] at apart ⊢
      exact hideStyles_withString apart
    rw [hidden, mask_withString closed (isString_ofString content) behindString plain]
  rw [ofSource, ofSource, masked firstPlain firstApart, masked secondPlain secondApart,
    sameLength]

instance (content : Text) : Decidable (PlainContent content) :=
  inferInstanceAs (Decidable (∀ b ∈ content, _))

instance (front content behind : Text) : Decidable (StylesApart front content behind) :=
  inferInstanceAs (Decidable (∀ found ∈ styleBlock.search (withString front content behind), _))

/-- A tag that no closing tag follows begins no style block, and neither does a closing tag. -/
theorem ofSource_withString_tags :
    (ofString "<style> y =").length = (ofString "=</style> y").length ∧
      PlainContent (ofString "<style> y =") ∧ PlainContent (ofString "=</style> y") ∧
      (hideStyles (ofString "<style>'</style>\nconst f = () => \x7b x = ")).LexicallyClosed ∧
      StylesApart (ofString "<style>'</style>\nconst f = () => \x7b x = ")
        (ofString "<style> y =") (ofString " \x7d") ∧
      StylesApart (ofString "<style>'</style>\nconst f = () => \x7b x = ")
        (ofString "=</style> y") (ofString " \x7d") ∧
      ofSource (withString (ofString "<style>'</style>\nconst f = () => \x7b x = ")
          (ofString "<style> y =") (ofString " \x7d")) =
        ofSource (withString (ofString "<style>'</style>\nconst f = () => \x7b x = ")
          (ofString "=</style> y") (ofString " \x7d")) := by
  have sameLength : (ofString "<style> y =").length = (ofString "=</style> y").length := by
    decide +kernel
  have firstPlain : PlainContent (ofString "<style> y =") := by decide +kernel
  have secondPlain : PlainContent (ofString "=</style> y") := by decide +kernel
  have closed : (hideStyles (ofString
      "<style>'</style>\nconst f = () => \x7b x = ")).LexicallyClosed :=
    (Scanner.settles_plain (forall_mem_of_all (by decide +kernel))).lexicallyClosed
  have firstApart : StylesApart (ofString "<style>'</style>\nconst f = () => \x7b x = ")
      (ofString "<style> y =") (ofString " \x7d") := by decide +kernel
  have secondApart : StylesApart (ofString "<style>'</style>\nconst f = () => \x7b x = ")
      (ofString "=</style> y") (ofString " \x7d") := by decide +kernel
  exact ⟨sameLength, firstPlain, secondPlain, closed, firstApart, secondApart,
    ofSource_withString sameLength firstPlain secondPlain closed firstApart secondApart⟩

/-- A string that holds the tag of a style block hides the code up to the next closing tag. -/
theorem not_ofSource_withString :
    ¬∀ front behind first second : String,
      (ofString first).length = (ofString second).length →
      PlainContent (ofString first) → PlainContent (ofString second) →
      (ofString front).LexicallyClosed →
      ofSource (withString (ofString front) (ofString first) (ofString behind)) =
        ofSource (withString (ofString front) (ofString second) (ofString behind)) := by
  intro independent
  have closed : (ofString "<script>\nconst tag = ").LexicallyClosed :=
    (Scanner.settles_plain (forall_mem_of_all (by decide +kernel))).lexicallyClosed
  have same := independent "<script>\nconst tag = "
    "\nconst f = () => \x7b a = 1 \x7d\n</script>\n<style></style>" "<style>" "(style)"
    (by decide +kernel) (by decide +kernel) (by decide +kernel) closed
  have kept : (ofSource (withString (ofString "<script>\nconst tag = ") (ofString "(style)")
      (ofString "\nconst f = () => \x7b a = 1 \x7d\n</script>\n<style></style>"))).contains
        (ofString "a") = true := by decide +kernel
  have lost : (ofSource (withString (ofString "<script>\nconst tag = ") (ofString "<style>")
      (ofString "\nconst f = () => \x7b a = 1 \x7d\n</script>\n<style></style>"))).contains
        (ofString "a") = false := by decide +kernel
  rw [same, kept] at lost
  exact Bool.false_ne_true lost.symm

end LocalNames

end BareComponent
