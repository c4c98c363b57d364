import BareComponent.Proofs.Checked.Cut
import BareComponent.Proofs.Mask.Aligned
import BareComponent.Proofs.ReturnFilter.Literal

/-! # Filtering never cuts a character

The filter cuts a script along its mask: behind an opening brace, in front of a closing bracket and
beside the commas between entries. All of these are bytes that the mask shows, so what is cut out is
a string with its mask in place again, and it is shorter than the text around it.
-/

namespace BareComponent.Checked

open Text Pattern ReturnFilter

def keyOf (entry masked : Text) : Checked Text := do
  let key ← cut masked ⟨0, (masked.topLevelIndexOf? Byte.colon).getD entry.length⟩
  return key.trim

/-- The entry at a span of an object, rewritten, unless its key is in a set of names. -/
def survivor (names : NameSet) (rewrite : (entry masked : Text) → Checked Text)
    (content masked : Text) (span : Span) : Checked (Option Text) := do
  let entry ← cut content span
  let hidden ← cut masked span
  let key ← keyOf entry hidden
  if names.hasKey key then return none
  else
    let rewritten ← rewrite entry hidden
    return some rewritten

/-- The inside of a return object whose remaining entries are given. -/
def assemble (content : Text) (anyDropped : Bool) (kept : List Text) : Checked Text :=
  let joined := Text.join [Byte.comma] kept
  if anyDropped then do
    let start ← minus content.length content.trimStart.length
    let leading ← cut content ⟨0, start⟩
    let trailing ← cut content ⟨content.trimEnd.length, content.length⟩
    return leading ++ joined.trim ++ trailing
  else return joined

/-- Goes through the beginnings of return objects and copies the text behind `start`, with the
inside of each object that is closed and does not begin inside the one before it rewritten. -/
def rewriteFrom (rewrite : (content masked : Text) → Checked Text) (text masked : Text)
    (start : Nat) : List (Match Unit) → Checked Text
  | [] => cut text ⟨start, text.length⟩
  | found :: rest =>
    if found.span.start < start then rewriteFrom rewrite text masked start rest
    else do
      let opening ← minus found.span.stop 1
      match ← closingOf masked opening with
      | none => rewriteFrom rewrite text masked start rest
      | some closing =>
        let copied ← cut text ⟨start, opening + 1⟩
        let content ← cut text ⟨opening + 1, closing⟩
        let hidden ← cut masked ⟨opening + 1, closing⟩
        let rewritten ← rewrite content hidden
        let behind ← rewriteFrom rewrite text masked closing rest
        return copied ++ rewritten ++ behind

mutual

def filterText (names : NameSet) : (fuel : Nat) → (text masked : Text) → Checked Text
  | 0, _, _ => .error .endless
  | fuel + 1, text, masked =>
    rewriteFrom (filterObject names fuel) text masked 0 (head.search masked)

/-- Filters the entries of a return object, given by its inside. -/
def filterObject (names : NameSet) : (fuel : Nat) → (content masked : Text) → Checked Text
  | 0, _, _ => .error .endless
  | fuel + 1, content, masked => do
    let entries := masked.topLevelPieces Byte.comma
    let kept ← collect (survivor names (filterText names fuel) content masked) entries
    assemble content (kept.length != entries.length) kept

end

/-- The script without those entries of its return objects whose keys are in a set of names. -/
def filter (names : NameSet) (script : Text) : Checked Text :=
  if names.isEmpty then return script
  else do
    let masked ← mask script
    filterText names (script.length + 1) script masked

section Places

variable {masked : Text} {start stop offset : Nat} {span : Span}

private theorem isShown_of_isClose {b : UInt8} (closes : Byte.isClose b = true) :
    Byte.IsShown b := ⟨(shown_of_isClose closes).1, (shown_of_isClose closes).2.1⟩

private theorem isShown_comma : Byte.IsShown Byte.comma := ⟨by decide, by decide⟩

private theorem isFirm_of_mem_piecesFrom {front rest : Text} {depth : Nat}
    (firm : (front ++ rest).IsFirm start) (behind : start ≤ front.length)
    (member : span ∈ piecesFrom Byte.comma depth start front.length rest) :
    (front ++ rest).IsFirm span.start ∧ (front ++ rest).IsFirm span.stop ∧
      span.start ≤ span.stop := by
  induction rest generalizing front start depth with
  | nil =>
    obtain rfl := List.mem_singleton.mp member
    exact ⟨firm, .inr (.inl (by simp)), behind⟩
  | cons b rest ih =>
    have later {start depth : Nat} (firm : (front ++ b :: rest).IsFirm start)
        (behind : start ≤ front.length + 1)
        (member : span ∈ piecesFrom Byte.comma depth start (front.length + 1) rest) :
        (front ++ b :: rest).IsFirm span.start ∧ (front ++ b :: rest).IsFirm span.stop ∧
          span.start ≤ span.stop := by
      have split : front ++ b :: rest = front ++ [b] ++ rest := by simp
      rw [split] at firm ⊢
      exact ih firm (by simpa using behind) (by simpa using member)
    rw [piecesFrom] at member
    split at member
    · exact later firm (Nat.le_succ_of_le behind) member
    · split at member
      · next here =>
        obtain ⟨rfl, -⟩ := here
        obtain ⟨stops, next⟩ := isFirm_append front rest isShown_comma
        rcases List.mem_cons.mp member with rfl | member
        · exact ⟨firm, stops, behind⟩
        · exact later next (Nat.le_refl _) member
      · exact later firm (Nat.le_succ_of_le behind) member

private theorem isFirm_of_mem_topLevelPieces
    (member : span ∈ masked.topLevelPieces Byte.comma) :
    masked.IsFirm span.start ∧ masked.IsFirm span.stop ∧ span.start ≤ span.stop :=
  @isFirm_of_mem_piecesFrom 0 span [] masked 0 (.inl rfl) (Nat.le_refl _) member

private theorem brace_of_mem_search {characters : List Char} {found : Match Unit}
    (member : found ∈ head.search (encode characters)) :
    found.span.start < found.span.stop ∧
      (encode characters)[found.span.stop - 1]? = some Byte.openBrace := by
  obtain ⟨before, after, rfl, here⟩ := exists_of_mem_search member
  obtain ⟨next, matched, span, forward⟩ := exists_of_matchAt? here
  obtain ⟨blanks, rest, rfl, -, -, rfl⟩ := mem_head.mp matched
  have split : encode (before ++ (headOf blanks ++ rest)) =
      encode (before ++ keyword ++ blanks) ++ Byte.openBrace :: encode rest := by
    rw [← List.append_assoc, encode_append _ rest, encode_headOf, List.append_assoc]
    rfl
  have stop : (Cursor.between (before ++ headOf blanks) rest).position - 1 =
      (encode (before ++ keyword ++ blanks)).length := by
    rw [Cursor.position_between, encode_headOf, List.length_append, List.length_singleton,
      Nat.add_sub_cancel]
  rw [span, split, stop]
  exact ⟨forward, by simp⟩

end Places

variable {names : NameSet} {text masked content : Text}

/-- The key of an entry is cut along whole characters of its mask. -/
theorem keyOf_eq_ok (aligned : Aligned text masked) :
    keyOf text masked = .ok (ReturnFilter.keyOf masked) := by
  have firm : masked.IsFirm ((masked.topLevelIndexOf? Byte.colon).getD text.length) := by
    cases found : masked.topLevelIndexOf? Byte.colon with
    | none => exact .inr (.inl aligned.length_eq)
    | some offset =>
      obtain ⟨piece, rest, rfl, rfl⟩ := exists_separator found
      exact (isFirm_append piece rest ⟨by decide, by decide⟩).1
  rw [keyOf, cut_eq_ok (aligned.isWhole (.inl rfl) firm (Nat.zero_le _)).2, ReturnFilter.keyOf,
    ← aligned.length_eq]
  rfl

/-- The entries that are kept are put together without a fault. -/
theorem assemble_eq_ok (string : IsString content) (anyDropped : Bool) (kept : List Text) :
    assemble content anyDropped kept = .ok (ReturnFilter.assemble content anyDropped kept) := by
  obtain ⟨characters, rfl⟩ := string
  let isBlank (c : Char) : Bool := CharacterClass.blank c.toNat
  have leads : characters.takeWhile isBlank ++ characters.dropWhile isBlank = characters :=
    List.takeWhile_append_dropWhile
  obtain ⟨behind, trails⟩ := List.rdropWhile_prefix isBlank (l := characters)
  have starts := isBoundary_encode (characters.takeWhile isBlank) (characters.dropWhile isBlank)
  have stops := isBoundary_encode (characters.rdropWhile isBlank) behind
  rw [leads] at starts
  rw [trails] at stops
  have length : (encode characters).length - (encode (characters.dropWhile isBlank)).length =
      (encode (characters.takeWhile isBlank)).length := by
    have both := congrArg (List.length ∘ encode) leads
    simp only [Function.comp_apply, encode_append, List.length_append] at both
    omega
  have shorter : (encode (characters.dropWhile isBlank)).length ≤ (encode characters).length := by
    have both := congrArg (List.length ∘ encode) leads
    simp only [Function.comp_apply, encode_append, List.length_append] at both
    omega
  have leading := (isBoundary_zero _).isWhole starts (Nat.zero_le _)
  have trailing := stops.isWhole (isBoundary_length _) stops.le_length
  cases anyDropped with
  | false => rfl
  | true =>
    rw [assemble, ReturnFilter.assemble, leadingBlanks, trailingBlanks, trimStart_encode,
      trimEnd_encode, if_pos rfl, if_pos rfl, minus_eq_ok shorter, ok_bind, length,
      cut_eq_ok leading, ok_bind, cut_eq_ok trailing, ok_bind, slice, slice, List.take_length]
    rfl

/-- Rewriting the objects of a text cuts around each of them. -/
theorem rewriteFrom_eq_ok {rewrite : (content masked : Text) → Checked Text}
    {plain : (content masked : Text) → Text} (aligned : Aligned text masked)
    (each : ∀ span : Span, masked.IsFirm span.start → masked.IsFirm span.stop →
      0 < span.start → span.start ≤ span.stop → span.stop < masked.length →
      rewrite (text.slice span) (masked.slice span) =
        .ok (plain (text.slice span) (masked.slice span)))
    {founds : List (Match Unit)} {start : Nat} (firm : masked.IsFirm start)
    (braces : ∀ found ∈ founds, found.span.start < found.span.stop ∧
      masked[found.span.stop - 1]? = some Byte.openBrace) :
    rewriteFrom rewrite text masked start founds =
      .ok (text.replaceFrom start ((closedFrom masked start founds).map fun object =>
        (object, plain (text.slice object) (masked.slice object)))) := by
  induction founds generalizing start with
  | nil =>
    have boundary := (aligned.isBoundary firm).1
    have rest := boundary.isWhole (isBoundary_length text) boundary.le_length
    rw [rewriteFrom, cut_eq_ok rest, slice, List.take_length]
    rfl
  | cons found founds ih =>
    obtain ⟨⟨forward, brace⟩, others⟩ := List.forall_mem_cons.mp braces
    rw [rewriteFrom, closedFrom]
    split
    · exact ih firm others
    · next behind =>
      rw [minus_eq_ok (Nat.one_le_of_lt forward), ok_bind, closingOf_eq_ok, ok_bind,
        Nat.sub_add_cancel (Nat.one_le_of_lt forward)]
      cases closes : masked.closingOf? (found.span.stop - 1) with
      | none => exact ih firm others
      | some closing =>
        obtain ⟨above, b, here, bracket⟩ := exists_of_closingOf? closes
        have opening : masked.IsFirm found.span.stop := by
          have next := (isFirm_of_getElem? brace ⟨by decide, by decide⟩).2
          rwa [Nat.sub_add_cancel (Nat.one_le_of_lt forward)] at next
        have closingFirm := (isFirm_of_getElem? here (isShown_of_isClose bracket)).1
        have ordered : found.span.stop ≤ closing := by omega
        obtain ⟨whole, maskWhole⟩ := aligned.isWhole opening closingFirm ordered
        have copied := (aligned.isWhole firm opening (by omega)).1
        have rewritten := each ⟨found.span.stop, closing⟩ opening closingFirm
          (Nat.zero_lt_of_lt forward) ordered (List.getElem?_eq_some_iff.mp here).1
        simp only [cut_eq_ok copied, cut_eq_ok whole, cut_eq_ok maskWhole, ok_bind, rewritten,
          ih closingFirm others]
        rfl

private theorem filterText_succ_eq_ok {fuel : Nat}
    (objects : ∀ {content masked : Text}, Aligned content masked → content.length + 1 < fuel →
      filterObject names fuel content masked =
        .ok (ReturnFilter.filterObject names fuel content masked))
    (aligned : Aligned text masked) (short : text.length < fuel + 1) :
    filterText names (fuel + 1) text masked =
      .ok (ReturnFilter.filterText names (fuel + 1) text masked) := by
  obtain ⟨characters, spelled⟩ := aligned.maskIsString
  rw [filterText, ReturnFilter.filterText]
  refine rewriteFrom_eq_ok aligned (fun span starts stops nonempty ordered below => ?_) (.inl rfl)
    fun found member => ?_
  · refine objects (aligned.slice starts stops ordered) ?_
    have inside : (text.slice span).length ≤ span.stop - span.start := by
      rw [slice, List.length_drop, List.length_take]
      omega
    have := aligned.length_eq
    omega
  · rw [spelled] at member ⊢
    exact brace_of_mem_search member

private theorem filterObject_succ_eq_ok {fuel : Nat}
    (texts : ∀ {text masked : Text}, Aligned text masked → text.length < fuel →
      filterText names fuel text masked = .ok (ReturnFilter.filterText names fuel text masked))
    (aligned : Aligned content masked) (short : content.length < fuel) :
    filterObject names (fuel + 1) content masked =
      .ok (ReturnFilter.filterObject names (fuel + 1) content masked) := by
  let stays (span : Span) : Bool := !names.hasKey (ReturnFilter.keyOf (masked.slice span))
  let plain (span : Span) : Text :=
    ReturnFilter.filterText names fuel (content.slice span) (masked.slice span)
  have each : ∀ span ∈ masked.topLevelPieces Byte.comma,
      survivor names (filterText names fuel) content masked span =
        .ok (if stays span then (some ∘ plain) span else none) := by
    intro span member
    obtain ⟨starts, stops, ordered⟩ := isFirm_of_mem_topLevelPieces member
    obtain ⟨whole, maskWhole⟩ := aligned.isWhole starts stops ordered
    have entry := aligned.slice starts stops ordered
    have inside : (content.slice span).length < fuel := by
      rw [slice, List.length_drop, List.length_take]
      omega
    rw [survivor, cut_eq_ok whole, ok_bind, cut_eq_ok maskWhole, ok_bind, keyOf_eq_ok entry,
      ok_bind]
    cases drops : names.hasKey (ReturnFilter.keyOf (masked.slice span)) with
    | true => simp [stays, drops]
    | false => simp [stays, drops, plain, texts entry inside]
  have kept : (masked.topLevelPieces Byte.comma).filterMap
      (fun span => if stays span then (some ∘ plain) span else none) =
        ((masked.topLevelPieces Byte.comma).filter stays).map plain := by
    rw [← List.filterMap_filter, List.filterMap_eq_map]
  rw [filterObject, ReturnFilter.filterObject, collect_eq_ok each, ok_bind,
    assemble_eq_ok aligned.string, kept, List.length_map]

private theorem filter_eq_ok_of_length (names : NameSet) (fuel : Nat) :
    (∀ {text masked : Text}, Aligned text masked → text.length < fuel →
      filterText names fuel text masked = .ok (ReturnFilter.filterText names fuel text masked)) ∧
    ∀ {content masked : Text}, Aligned content masked → content.length + 1 < fuel →
      filterObject names fuel content masked =
        .ok (ReturnFilter.filterObject names fuel content masked) := by
  induction fuel with
  | zero => exact ⟨fun _ short => absurd short (Nat.not_lt_zero _),
      fun _ short => absurd short (Nat.not_lt_zero _)⟩
  | succ fuel ih =>
    exact ⟨filterText_succ_eq_ok ih.2,
      fun aligned short => filterObject_succ_eq_ok ih.1 aligned (Nat.lt_of_succ_lt_succ short)⟩

/-- The filter has no fault on any string, whatever the names are. -/
theorem filter_eq_ok (names : NameSet) (string : IsString text) :
    filter names text = .ok (ReturnFilter.apply names text) := by
  rw [filter, ReturnFilter.apply]
  split
  · rfl
  · rw [mask_eq_ok string, ok_bind]
    exact (filter_eq_ok_of_length names _).1 string.aligned (Nat.lt_succ_self _)

end BareComponent.Checked
