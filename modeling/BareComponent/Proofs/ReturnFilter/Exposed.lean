import BareComponent.Proofs.Component.ImportLine
import BareComponent.Proofs.Mask.Front
import BareComponent.Proofs.ReturnFilter.Shown
import BareComponent.Proofs.Text.Pieces

/-! # The object that a `setup` function returns

The object lists names with one blank around them. A run of the filter leaves the names that are not
in the set, in the same form, and goes through what stands in front of the object and behind it as
if each stood alone.
-/

namespace BareComponent.ReturnFilter

open Text Pattern Cursor Glyph ComponentScript

section Names

/-- What an identifier is made of is no white space. -/
theorem blank_of_continues {b : UInt8} (continues : Byte.continuesIdentifier b = true) :
    CharacterClass.blank b.toNat = false := by
  have all : ∀ n < 256, Byte.continuesIdentifier (UInt8.ofNat n) = true →
      CharacterClass.blank n = false := by decide +kernel
  have here := all b.toNat b.toNat_lt
  rw [UInt8.ofNat_toNat] at here
  exact here continues

theorem plain_of_continues {b : UInt8} (continues : Byte.continuesIdentifier b = true) :
    Byte.isOpen b = false ∧ Byte.isClose b = false := by
  by_contra bracket
  rw [← Bool.or_eq_false_iff, Bool.not_eq_false] at bracket
  simp only [Byte.isOpen, Byte.isClose, Bool.or_eq_true, beq_iff_eq] at bracket
  rcases bracket with ((rfl | rfl) | rfl) | (rfl | rfl) | rfl
  all_goals exact absurd continues (by decide)

variable {name : Text} (named : name.isIdentifier = true)
include named

theorem encode_identifier : encode (ascii name) = name :=
  encode_ascii fun b member => low_of_inTarget (inTarget_of_name named b member)

theorem ascii_ne_nil : ascii name ≠ [] := by
  cases name with
  | nil => simp [isIdentifier] at named
  | cons b rest => exact List.cons_ne_nil _ _

theorem dark_identifier : ∀ c ∈ ascii name, CharacterClass.blank c.toNat = false := by
  intro c member
  obtain ⟨b, inside, rfl⟩ := List.mem_map.mp member
  rw [toNat_ofUInt8]
  exact blank_of_continues (continuesIdentifier_of_name named b inside)

theorem not_mem_identifier {b : UInt8} (outside : Byte.continuesIdentifier b = false) :
    b ∉ name := by
  intro member
  rw [continuesIdentifier_of_name named b member] at outside
  contradiction

theorem trim_identifier : trim name = name := by
  obtain ⟨front, kept, behind, split, blank, blankBehind, trimmed⟩ :=
    exists_trim_encode (ascii name)
  have dark := dark_identifier named
  have nothing {part : List Char} (inside : ∀ c ∈ part, c ∈ ascii name) (blank : Blank part) :
      part = [] := by
    refine List.eq_nil_iff_forall_not_mem.mpr fun c member => ?_
    have here := blank c member
    rw [dark c (inside c member)] at here
    contradiction
  obtain rfl : front = [] := nothing (fun c member => by simp [split, member]) blank
  obtain rfl : behind = [] := nothing (fun c member => by simp [split, member]) blankBehind
  rw [List.nil_append, List.append_nil] at split
  rwa [← split, encode_identifier named] at trimmed

/-- The key of an entry that is an identifier is the identifier. -/
theorem keyOf_identifier : keyOf name = name := by
  have colon : Byte.colon ∉ name := not_mem_identifier named (by decide)
  rw [keyOf_of_none (topLevelOffset?_eq_none colon), trim_identifier named]

end Names

section Listed

/-- The space in front of an entry. -/
def space : Glyph := ⟨' ', true⟩

/-- The glyphs of an ASCII text. -/
def word (name : Text) : List Glyph := shownOf (ascii name)

/-- Names one behind the other, with a comma and a space between neighbours. -/
def listed : List Text → List Glyph
  | [] => []
  | [name] => word name
  | name :: next :: names => word name ++ comma :: space :: listed (next :: names)

/-- A name as an entry. -/
def spaced (name : Text) : List Glyph := space :: word name

theorem blank_space : ∀ glyph ∈ [space], glyph.isBlank = true :=
  List.forall_mem_singleton.mpr (by decide)

theorem join_spaced {names : List Text} (nonempty : names ≠ []) :
    Glyph.join (names.map spaced) = space :: listed names := by
  induction names with
  | nil => exact absurd rfl nonempty
  | cons name names ih =>
    cases names with
    | nil => rfl
    | cons next names =>
      have rest := ih (List.cons_ne_nil _ _)
      rw [List.map_cons] at rest
      rw [List.map_cons, List.map_cons, Glyph.join, rest]
      rfl

theorem shown_listed (names : List Text) : Shown (listed names) := by
  induction names with
  | nil => exact fun glyph member => absurd member List.not_mem_nil
  | cons name names ih =>
    cases names with
    | nil => exact shown_shownOf _
    | cons next names =>
      exact shown_append.mpr ⟨shown_shownOf _, List.forall_mem_cons.mpr ⟨rfl,
        List.forall_mem_cons.mpr ⟨rfl, ih⟩⟩⟩

variable {names : List Text} (named : ∀ name ∈ names, name.isIdentifier = true)
include named

theorem text_listed : text (listed names) = Text.join ", " names := by
  induction names with
  | nil => rfl
  | cons name names ih =>
    obtain ⟨first, others⟩ := List.forall_mem_cons.mp named
    have here : text (word name) = name := by rw [word, text_shownOf, encode_identifier first]
    cases names with
    | nil => exact here
    | cons next names =>
      have separator (rest : List Glyph) :
          text (comma :: space :: rest) = Text.ofString ", " ++ text rest := rfl
      rw [listed, text_append, here, separator, ih others, Text.join]
      simp only [List.append_assoc]

/-- A list of names neither begins nor ends with a blank. -/
theorem listed_ends (nonempty : names ≠ []) : listed names ≠ [] ∧
    (∀ glyph ∈ (listed names).head?, glyph.isBlank = false) ∧
      ∀ glyph ∈ (listed names).reverse.head?, glyph.isBlank = false := by
  have dark {name : Text} (named : name.isIdentifier = true) :
      word name ≠ [] ∧ ∀ glyph ∈ word name, glyph.isBlank = false := by
    refine ⟨by simpa [word, shownOf] using ascii_ne_nil named, fun glyph member => ?_⟩
    obtain ⟨c, inside, rfl⟩ := List.mem_map.mp member
    exact dark_identifier named c inside
  induction names with
  | nil => exact absurd rfl nonempty
  | cons name names ih =>
    obtain ⟨first, others⟩ := List.forall_mem_cons.mp named
    obtain ⟨someWord, darkWord⟩ := dark first
    cases names with
    | nil =>
      refine ⟨someWord, fun glyph begins => darkWord glyph (List.mem_of_mem_head? begins),
        fun glyph ends => darkWord glyph ?_⟩
      exact List.mem_reverse.mp (List.mem_of_mem_head? ends)
    | cons next names =>
      obtain ⟨someRest, -, ends⟩ := ih others (List.cons_ne_nil _ _)
      refine ⟨by simp [listed], fun glyph begins => ?_, ?_⟩
      · rw [listed, List.head?_append_of_ne_nil _ someWord] at begins
        exact darkWord glyph (List.mem_of_mem_head? begins)
      · rw [listed, List.reverse_append, List.reverse_cons, List.reverse_cons, List.append_assoc,
          List.append_assoc, List.head?_append_of_ne_nil _ (by simpa using someRest)]
        exact ends

end Listed

section Object

/-- The statement that returns an object with some names. -/
def returned (exposed : List Text) : Text := Text.ofString "return " ++ exposedObject exposed

def inside (exposed : List Text) : List Glyph := [space] ++ listed exposed ++ [space]

/-- The head, the inside and the brace of the object. -/
def objectOf (exposed : List Text) : List Glyph :=
  weave (shownOf ['}']) [⟨shownOf (headOf [' ']), inside exposed⟩]

theorem shown_objectOf (exposed : List Text) : Shown (objectOf exposed) := by
  have spaces : Shown [space] := List.forall_mem_singleton.mpr rfl
  have content := shown_append.mpr ⟨shown_append.mpr ⟨spaces, shown_listed exposed⟩, spaces⟩
  exact shown_append.mpr ⟨shown_append.mpr ⟨shown_shownOf _, content⟩, shown_shownOf _⟩

variable {exposed : List Text} (named : ∀ name ∈ exposed, name.isIdentifier = true)
include named

theorem text_inside : text (inside exposed) =
    [Byte.space] ++ Text.join ", " exposed ++ [Byte.space] := by
  have blank : text [space] = [Byte.space] := rfl
  rw [inside, text_append, text_append, blank, text_listed named]

theorem text_objectOf : text (objectOf exposed) = returned exposed := by
  have front : encode (headOf [' ']) ++ [Byte.space] = Text.ofString "return \x7b " := rfl
  have behind : [Byte.space] ++ encode ['}'] = Text.ofString " \x7d" := rfl
  have opening :
      Text.ofString "return \x7b " = Text.ofString "return " ++ Text.ofString "\x7b " := rfl
  rw [objectOf, weave, weave, text_append, text_append, text_shownOf, text_shownOf,
    text_inside named, returned, exposedObject, ← behind, ← List.append_assoc, ← List.append_assoc,
    ← List.append_assoc, ← List.append_assoc, ← List.append_assoc, front, opening]

theorem mem_inside {b : UInt8} (member : b ∈ text (inside exposed)) :
    Byte.continuesIdentifier b = true ∨ b = Byte.comma ∨ b = Byte.space := by
  rw [text_inside named, List.mem_append, List.mem_append] at member
  rcases member with (blank | list) | blank
  · exact .inr (.inr (List.mem_singleton.mp blank))
  · rcases mem_join list with separator | ⟨name, member, among⟩
    · have all : ∀ b ∈ Text.ofString ", ", b = Byte.comma ∨ b = Byte.space :=
        forall_mem_of_all (by decide)
      exact .inr (all b separator)
    · exact .inl (continuesIdentifier_of_name (named name member) b among)
  · exact .inr (.inr (List.mem_singleton.mp blank))

/-- There is no bracket in the object. -/
theorem plain_inside :
    ∀ b ∈ text (inside exposed), Byte.isOpen b = false ∧ Byte.isClose b = false := by
  intro b member
  rcases mem_inside named member with continues | rfl | rfl
  · exact plain_of_continues continues
  · decide
  · decide

theorem unquoted_objectOf : Unquoted (text (objectOf exposed)) := by
  have all : ∀ b ∈ text (objectOf exposed), inTarget b = true := by
    intro b member
    rw [objectOf, weave, weave, text_append, text_append, List.mem_append,
      List.mem_append] at member
    rcases member with (front | content) | behind
    · have letters : ∀ b ∈ text (shownOf (headOf [' '])), inTarget b = true :=
        forall_mem_of_all (by decide)
      exact letters b front
    · rcases mem_inside named content with continues | rfl | rfl
      · simp [inTarget, continues]
      · decide
      · decide
    · have brace : ∀ b ∈ text (shownOf ['\x7d']), inTarget b = true := forall_mem_of_all (by decide)
      exact brace b behind
  intro b member
  have here := all b member
  exact ⟨ne_of_inTarget here (by decide), ne_of_inTarget here (by decide),
    ne_of_inTarget here (by decide), ne_of_inTarget here (by decide)⟩

/-- The object is the one literal of what returns it. -/
theorem parted_objectOf :
    Parted (shownOf ['\x7d']) [⟨shownOf (headOf [' ']), inside exposed⟩] := by
  have balanced : Balanced (encode (Glyph.characters (inside exposed))) := by
    have content := (shown_append.mp (shown_append.mp (shown_objectOf exposed)).1).2
    rw [encode_characters, content.mask_eq]
    exact nesting?_plain 0 (plain_inside named)
  have here : ClosedAt [] (headOf [' '] ++ (Glyph.characters (inside exposed) ++ ['\x7d'])) [' ']
      (Glyph.characters (inside exposed)) ['\x7d'] :=
    ⟨rfl, rfl, forall_mem_of_all (by decide), balanced, Byte.closeBrace, rfl, rfl⟩
  have absent (before : List Char) : NoneAt before ['\x7d'] := by
    intro blanks content behind there
    have spelled := there.spelled
    rw [headOf_append] at spelled
    exact absurd (List.cons.inj spelled).1 (by decide)
  have laid := Laid.literal here (.pass (absent _) (.nil _))
  have spelled : Glyph.characters
      (weave (shownOf ['\x7d']) [⟨shownOf (headOf [' ']), inside exposed⟩]) =
        headOf [' '] ++ (Glyph.characters (inside exposed) ++ ['\x7d']) := by
    simp [weave]
  have places : literalsAt 0 ([⟨shownOf (headOf [' ']), inside exposed⟩].map partOf) =
      [⟨(encode ([] ++ headOf [' '])).length, Glyph.characters (inside exposed)⟩] := by
    simp [literalsAt, partOf]
  rw [Parted, spelled, places]
  exact laid

section Entries

variable {names : NameSet} (identifiers : names.Identifiers)

omit named in
theorem mask_spaced {name : Text} (named : name.isIdentifier = true) :
    Glyph.mask (word name) = name := by
  rw [word, (shown_shownOf _).mask_eq, text_shownOf, encode_identifier named]

omit named in
theorem solid_spaced {name : Text} (named : name.isIdentifier = true) :
    Solid Byte.comma (Glyph.mask (spaced name)) ∧ keyOf (Glyph.mask (spaced name)) = name := by
  have nothing : ∀ glyph ∈ ([] : List Glyph), glyph.isBlank = true := by simp
  have commaAbsent : Byte.comma ∉ name := not_mem_identifier named (by decide)
  have plain : ∀ b ∈ name, Byte.isOpen b = false ∧ Byte.isClose b = false := fun b member =>
    plain_of_continues (continuesIdentifier_of_name named b member)
  have solid := solid_mask_padded blank_space nothing (word name)
  have key := keyOf_mask_padded blank_space nothing (word name)
  rw [List.append_nil, mask_spaced named] at solid key
  exact ⟨solid.mpr ⟨nesting?_plain 0 plain, topLevelOffset?_eq_none commaAbsent⟩,
    key.trans (keyOf_identifier named)⟩

theorem survivors_spaced : survivors names (exposed.map spaced) =
    (exposed.filter fun name => !names.contains name).map spaced := by
  rw [survivors, List.filter_map]
  refine congrArg (List.map spaced) (List.filter_congr fun name member => ?_)
  rw [Function.comp_apply, (solid_spaced (named name member)).2]

theorem entries_spaced (nonempty : exposed ≠ []) :
    Entries (space :: listed exposed) (exposed.map spaced) := by
  refine ⟨by simpa using nonempty, (join_spaced nonempty).symm, fun piece member => ?_⟩
  obtain ⟨name, inside, rfl⟩ := List.mem_map.mp member
  exact (solid_spaced (named name inside)).1

include identifiers

/-- Between the blanks of the object the names that are not in the set are kept. -/
theorem core_spaced (nonempty : exposed ≠ []) : Core names (space :: listed exposed)
    (listed (exposed.filter fun name => !names.contains name)) := by
  have keeps : ∀ name ∈ exposed.filter fun name => !names.contains name,
      Keeps names (spaced name) (spaced name) := by
    intro name member
    refine .of_unclosed identifiers fun b found => ?_
    have here := named name (List.mem_of_mem_filter member)
    have split : Glyph.mask (spaced name) = Byte.space :: Glyph.mask (word name) := rfl
    rw [split, mask_spaced here] at found
    rcases List.mem_cons.mp found with rfl | letter
    · decide
    · exact (plain_of_continues (continuesIdentifier_of_name here b letter)).2
  refine ⟨exposed.map spaced, (exposed.filter fun name => !names.contains name).map spaced,
    entries_spaced named nonempty, ?_, ?_⟩
  · rw [survivors_spaced named]
    exact List.forall₂_same.mpr (List.forall_mem_map.mpr keeps)
  · cases shape : exposed.filter fun name => !names.contains name with
    | nil => rfl
    | cons first rest =>
      have keptNamed : ∀ name ∈ first :: rest, name.isIdentifier = true := by
        intro name member
        rw [← shape] at member
        exact named name (List.mem_of_mem_filter member)
      obtain ⟨-, begins, ends⟩ := listed_ends keptNamed (List.cons_ne_nil _ _)
      rw [join_spaced (List.cons_ne_nil _ _)]
      exact ((trim_blank_append blank_space _).trans (trim_eq_self begins ends)).symm

/-- The object is left with the names that are not in the set. -/
theorem keeps_objectOf : Keeps names (objectOf exposed)
    (objectOf (exposed.filter fun name => !names.contains name)) := by
  have all := shown_objectOf exposed
  have contentAll := (shown_append.mp (shown_append.mp all).1).2
  obtain ⟨kept, keeps⟩ := exists_keeps identifiers (objectOf exposed)
  obtain ⟨others, rfl, related, -⟩ := keeps.exists_parts identifiers (parted_objectOf named) all
  cases related with
  | @cons _ next _ _ here rest =>
    cases rest
    have gap : next.gap = shownOf (headOf [' ']) := here.1.symm
    suffices content : next.content =
        inside (exposed.filter fun name => !names.contains name) by
      obtain ⟨nextGap, nextContent⟩ := next
      subst gap content
      exact keeps
    by_cases empty : exposed = []
    · subst empty
      exact here.content_of_blank identifiers contentAll rfl
    · obtain ⟨someList, begins, ends⟩ := listed_ends named empty
      have dark : weight (inside exposed) ≠ 0 := by
        have inner := weight_ne_zero someList begins
        rw [inside, weight_append, weight_append]
        omega
      obtain ⟨core, found, content⟩ := here.exists_core identifiers contentAll dark
      have nothing : ∀ glyph ∈ ([] : List Glyph), glyph.isBlank = true := by simp
      have expected : Core names ([] ++ (space :: listed exposed) ++ [space]) _ :=
        (core_spaced named identifiers empty).padded identifiers contentAll nothing blank_space
      obtain ⟨lead, trail⟩ := edges_padded blank_space blank_space someList begins ends
      rw [content, found.unique expected contentAll, inside, lead, trail, inside]

/-- A run leaves the object with the names that are not in the set. -/
theorem apply_returned : apply names (returned exposed) =
    returned (exposed.filter fun name => !names.contains name) := by
  have keptNamed : ∀ name ∈ exposed.filter fun name => !names.contains name,
      name.isIdentifier = true := fun name member => named name (List.mem_of_mem_filter member)
  rw [← text_objectOf named, ← text_objectOf keptNamed]
  exact (keeps_objectOf named identifiers).apply_eq (shown_objectOf exposed)
    (unquoted_objectOf named)

end Entries

/-- What returns the object, in characters. -/
theorem returned_eq_encode : returned exposed =
    encode (headOf [' '] ++ (Glyph.characters (inside exposed) ++ ['\x7d'])) := by
  rw [← text_objectOf named, ← (shown_objectOf exposed).mask_eq, ← encode_characters, objectOf]
  simp [weave]

/-- The head of the object is the only one in what returns it. -/
theorem headsClosed_returned : HeadsClosed (returned exposed) := by
  intro before blanks rest spelled boundary blank
  rw [returned_eq_encode named] at spelled
  have content := (shown_append.mp (shown_append.mp (shown_objectOf exposed)).1).2
  have plain : ∀ b ∈ encode (Glyph.characters (inside exposed)),
      Byte.isOpen b = false ∧ Byte.isClose b = false := by
    rw [encode_characters, content.mask_eq]
    exact plain_inside named
  have noBrace : '\x7b' ∉ Glyph.characters (inside exposed) ++ ['\x7d'] := by
    rw [List.mem_append]
    rintro (member | member)
    · have found := (mem_encode_iff (b := Byte.openBrace) rfl (by decide)).mpr member
      exact absurd (plain _ found).1 (by decide)
    · exact absurd member (by decide)
  have oneBrace : keyword ++ [' '] ++ '\x7b' :: (Glyph.characters (inside exposed) ++ ['\x7d']) =
      before ++ (keyword ++ blanks) ++ '\x7b' :: rest := by
    have same := encode_injective spelled
    simpa [headOf] using same
  obtain ⟨-, -, rfl⟩ := (List.append_cons_inj_of_notMem (by decide) noBrace).mp oneBrace
  exact ⟨_, ['\x7d'], rfl, boundary, blank, nesting?_plain 0 plain, Byte.closeBrace, rfl, rfl⟩

end Object

section Around

variable {names : NameSet} {front : Text}

/-- No word runs over the end of whole lines. -/
theorem IsLines.boundary (whole : IsLines front) {characters : List Char}
    (masked : front.mask = encode characters) : isWord characters.getLast? = false := by
  rcases whole.eq_nil_or_exists with rfl | ⟨line, rfl⟩
  · obtain rfl := eq_nil_of_encode masked.symm
    rfl
  · have lineEnd : (line ++ [Byte.newline]).mask =
        Scanner.scan Scanner.start (some Byte.newline) line ++ Byte.newline :: [] := by
      rw [mask_eq_scan, Scanner.scan_append_newline]
      rfl
    obtain ⟨first, c, rest, rfl, -, bytes, nothing⟩ :=
      encode_eq_append_cons (masked.symm.trans lineEnd) (by decide)
    obtain rfl := eq_nil_of_encode nothing
    obtain rfl : c = '\n' := encodeChar_injective (bytes.trans rfl)
    rw [List.getLast?_concat]
    decide

variable {exposed : List Text} (named : ∀ name ∈ exposed, name.isIdentifier = true)
include named

theorem mask_append_returned (behind : Text) :
    (returned exposed ++ behind).mask = returned exposed ++ behind.mask := by
  have settles := Scanner.settles_plain (unquoted_objectOf named)
  rw [text_objectOf named] at settles
  obtain ⟨scanned, ended⟩ := settles (behind.head?.or none)
  rw [mask_eq_scan, Scanner.scan_append, scanned, ended, ← mask_eq_scan]

/-- The object and what stands behind it are filtered one after the other. -/
theorem apply_returned_append {behind : Text} (string : IsString behind) :
    apply names (returned exposed ++ behind) =
      apply names (returned exposed) ++ apply names behind := by
  have masked : (returned exposed).mask = returned exposed := by
    have alone := mask_append_returned named []
    have nothing : Text.mask [] = [] := rfl
    rwa [nothing, List.append_nil] at alone
  have object := returned_eq_encode named
  have objectString : IsString (returned exposed) := ⟨_, object⟩
  have apart : (returned exposed ++ behind).mask = (returned exposed).mask ++ behind.mask := by
    rw [masked, mask_append_returned named]
  obtain ⟨rest, restEq⟩ := string.aligned.maskIsString
  have ends : (headOf [' '] ++ (Glyph.characters (inside exposed) ++ ['\x7d'])).getLast? =
      some '\x7d' := by
    rw [← List.append_assoc, List.getLast?_concat]
  have apartHeads : NoHeadOver _ rest := noHeadOver_of_brace ends
  have isSealed := HeadsClosed.sealed (object ▸ headsClosed_returned named) apartHeads
  have split := objects_append isSealed (by rw [ends]; decide)
  rw [encode_append, ← object, ← restEq] at split
  exact apply_append_of_objects objectString string apart (masked.symm ▸ split)

end Around

/-- A run leaves the object of a `setup` function with the names that are not in the set, and goes
through the lines in front of it and what stands behind it as if each stood alone. -/
theorem apply_around_returned {names : NameSet} (identifiers : names.Identifiers)
    {exposed : List Text} (named : ∀ name ∈ exposed, name.isIdentifier = true) (front : String)
    (whole : IsLines (Text.ofString front)) (closed : LexicallyClosed (Text.ofString front))
    (heads : HeadsClosed (Text.ofString front).mask) (behind : String) :
    apply names (Text.ofString front ++
        (Text.ofString "return " ++ exposedObject exposed) ++ Text.ofString behind) =
      apply names (Text.ofString front) ++
        (Text.ofString "return " ++
          exposedObject (exposed.filter fun name => !names.contains name)) ++
        apply names (Text.ofString behind) := by
  have frontString := isString_ofString front
  have behindString := isString_ofString behind
  have object := returned_eq_encode named
  have objectString : IsString (returned exposed) := ⟨_, object⟩
  have tailString := objectString.append behindString
  obtain ⟨first, firstEq⟩ := frontString.aligned.maskIsString
  obtain ⟨rest, restEq⟩ := behindString.aligned.maskIsString
  have apart : (Text.ofString front ++ (returned exposed ++ Text.ofString behind)).mask =
      (Text.ofString front).mask ++ (returned exposed ++ Text.ofString behind).mask := by
    obtain ⟨tail, tailEq⟩ := tailString.exists_string
    rw [tailEq]
    exact closed tail
  have boundary : isWord first.getLast? = false := IsLines.boundary whole firstEq
  have apartHeads : NoHeadOver first
      (headOf [' '] ++ (Glyph.characters (inside exposed) ++ ['\x7d']) ++ rest) :=
    noHeadOver_of_head boundary rfl
  have isSealed := HeadsClosed.sealed (firstEq ▸ heads) apartHeads
  have split := objects_append isSealed boundary
  rw [encode_append, encode_append _ rest, ← object, ← firstEq, ← restEq,
    ← mask_append_returned named] at split
  rw [List.append_assoc]
  change apply names (Text.ofString front ++ (returned exposed ++ Text.ofString behind)) = _
  rw [apply_append_of_objects frontString tailString apart split,
    apply_returned_append named behindString, apply_returned named identifiers,
    ← List.append_assoc]
  rfl

/-- The functions in front of the returned names return objects of their own, which lose the named
entries too. -/
theorem apply_around_returned_setup :
    (NameSet.ofList [Text.ofString "hidden"]).Identifiers ∧
      apply (NameSet.ofList [Text.ofString "hidden"])
          (Text.ofString "const f = () => \x7b\n  return \x7b hidden, a: '\x7b' \x7d\n\x7d\n" ++
            (Text.ofString "return " ++
              exposedObject [Text.ofString "f", Text.ofString "hidden", Text.ofString "g"]) ++
            Text.ofString "\n\x7d return \x7b hidden \x7d (") =
        Text.ofString "const f = () => \x7b\n  return \x7b a: '\x7b' \x7d\n\x7d\n" ++
          (Text.ofString "return " ++ exposedObject [Text.ofString "f", Text.ofString "g"]) ++
          Text.ofString "\n\x7d return \x7b  \x7d (" := by
  have identifiers : (NameSet.ofList [Text.ofString "hidden"]).Identifiers := by decide +kernel
  have named : ∀ name ∈ [Text.ofString "f", Text.ofString "hidden", Text.ofString "g"],
      name.isIdentifier = true := forall_mem_of_all (by decide)
  let front := "const f = () => \x7b\n  return \x7b hidden, a: '\x7b' \x7d\n\x7d\n"
  have whole : IsLines (Text.ofString front) := by
    have split : Text.ofString front =
        Text.ofString "const f = () => \x7b\n  return \x7b hidden, a: '\x7b' \x7d\n\x7d" ++
          [Byte.newline] := by
      decide +kernel
    rw [split]
    exact isLines_append_newline _
  have closed : LexicallyClosed (Text.ofString front) := whole.lexicallyClosed (by decide +kernel)
  have heads : HeadsClosed (Text.ofString front).mask :=
    headsClosed_of_search (isString_ofString front).aligned.maskIsString (by decide +kernel)
  have computed := apply_around_returned identifiers named front whole closed heads
    "\n\x7d return \x7b hidden \x7d ("
  have kept : [Text.ofString "f", Text.ofString "hidden", Text.ofString "g"].filter
      (fun name => !(NameSet.ofList [Text.ofString "hidden"]).contains name) =
        [Text.ofString "f", Text.ofString "g"] := by decide +kernel
  have before : apply (NameSet.ofList [Text.ofString "hidden"]) (Text.ofString front) =
      Text.ofString "const f = () => \x7b\n  return \x7b a: '\x7b' \x7d\n\x7d\n" := by
    decide +kernel
  have behind : apply (NameSet.ofList [Text.ofString "hidden"])
      (Text.ofString "\n\x7d return \x7b hidden \x7d (") =
      Text.ofString "\n\x7d return \x7b  \x7d (" := by
    decide +kernel
  rw [kept, before, behind] at computed
  exact ⟨identifiers, computed⟩

end BareComponent.ReturnFilter
