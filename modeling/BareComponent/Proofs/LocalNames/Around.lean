import BareComponent.Proofs.FunctionBody.Heads
import BareComponent.Proofs.Mask.Front
import BareComponent.Proofs.Table

/-! # Local names in a larger source

Lines of code are put above a source, and further lines below it. If the lines above leave no
literal, no comment and no word `function` open, then each name that is local in the source is local
in the larger source, but for what is taken out of the parameter of an arrow function that ends the
source and gets the brace of a block that is never closed.
-/

namespace BareComponent

theorem NameSet.contains_ofList {names : List Text} {name : Text} :
    (NameSet.ofList names).contains name = true ↔ name ∈ names := by
  simp only [contains, Table.hasKey, ofList, Table.get?_ofList, List.lookup_isSome_iff,
    List.mem_reverse, List.mem_map, beq_iff_eq]
  grind

namespace Scanner

/-- A line end that follows a text does not matter to it. -/
theorem scan_some_newline (state : State) (text : Text) :
    scan state (some Byte.newline) text = scan state none text := by
  induction text generalizing state with
  | nil => rfl
  | cons b rest ih =>
    rw [scan, scan, ih]
    cases rest with
    | nil =>
      have slash : (some Byte.newline == some Byte.slash) = false := by decide
      have asterisk : (some Byte.newline == some Byte.asterisk) = false := by decide
      simp [shown, shows, showsCode, slash, asterisk]
    | cons c rest => rfl

end Scanner

namespace Text

/-- The lines above a newline are masked as they are alone. -/
theorem exists_mask_append_newline (text behind : Text) :
    ∃ tail, (text ++ Byte.newline :: behind).mask = text.mask ++ Byte.newline :: tail := by
  rw [mask_eq_scan, Scanner.scan_append_newline, Scanner.scan_some_newline, ← mask_eq_scan]
  exact ⟨_, rfl⟩

/-- A line end behind a text changes nothing in front of it. -/
theorem mask_append_newline (text : Text) :
    (text ++ [Byte.newline]).mask = text.mask ++ [Byte.newline] := by
  rw [mask_eq_scan, Scanner.scan_append_newline, Scanner.scan_nil, Scanner.scan_some_newline,
    ← mask_eq_scan]

/-- What has no newline and stands in some lines stands in those above or those below each
newline. -/
theorem infix_of_append_cons {α : Type} {needle front behind : List α} {c : α} (apart : c ∉ needle)
    (inside : needle <:+: front ++ c :: behind) : needle <:+: front ∨ needle <:+: behind := by
  obtain ⟨before, after, whole⟩ := inside
  rw [List.append_assoc] at whole
  rcases List.append_eq_append_iff.mp whole with ⟨more, rfl, split⟩ | ⟨more, rfl, split⟩
  · rcases List.append_eq_append_iff.mp split with ⟨part, rfl, -⟩ | ⟨part, rfl, behindEq⟩
    · exact .inl ⟨before, part, by simp⟩
    · cases part with
      | nil => exact .inl ⟨before, [], by simp⟩
      | cons d part =>
        obtain ⟨rfl, -⟩ := List.cons.inj behindEq
        simp at apart
  · cases more with
    | nil =>
      cases needle with
      | nil => exact .inl List.nil_infix
      | cons d needle =>
        obtain ⟨rfl, -⟩ := List.cons.inj split
        simp at apart
    | cons d more =>
      obtain ⟨-, rfl⟩ := List.cons.inj split
      exact .inr ⟨more, after, by simp⟩

end Text

namespace LocalNames

open Text Pattern Cursor

/-- A style block begins with its tag. -/
theorem exists_of_mem_styleBlock {characters : List Char} {found : Match Unit}
    (member : found ∈ styleBlock.search (encode characters)) :
    ∃ before rest, characters = before ++ ("<style".toList ++ rest) ∧
      found.span.start = (encode before).length := by
  obtain ⟨before, after, rfl, reads⟩ := exists_of_mem_search member
  obtain ⟨_, matched, span, -⟩ := exists_of_matchAt? reads
  obtain ⟨_, _, tag, -⟩ := mem_bind.mp matched
  obtain ⟨rest, rfl, -⟩ := mem_literal.mp (tag : _ ∈ literal (encode "<style".toList) _)
  exact ⟨before, rest, rfl, by rw [span, position_between]⟩

private theorem start_of_mem_styleBlock {above behind : List Char} {found : Match Unit}
    (apart : ¬"<style".toList <:+: above)
    (member : found ∈ styleBlock.search (encode (above ++ ['\n'] ++ behind))) :
    (encode (above ++ ['\n'])).length ≤ found.span.start := by
  obtain ⟨before, rest, split, start⟩ := exists_of_mem_styleBlock member
  rw [start]
  rcases List.append_eq_append_iff.mp split with ⟨more, rfl, -⟩ | ⟨more, linesEq, tagEq⟩
  · simp
  · by_cases nothing : more = []
    · rw [linesEq, nothing, List.append_nil]
    · exfalso
      obtain ⟨last, rfl, rfl⟩ := FunctionBody.exists_of_line_suffix linesEq nothing
      rw [List.append_assoc] at tagEq
      rcases List.append_eq_append_iff.mp tagEq with ⟨part, rfl, -⟩ | ⟨part, tag, shape⟩
      · exact apart ⟨before, part, by simp⟩
      · cases part with
        | nil => exact apart ⟨before, [], by simpa using tag⟩
        | cons c part =>
          obtain ⟨rfl, -⟩ := List.cons.inj shape
          have inside : '\n' ∈ "<style".toList := by simp [tag]
          exact absurd inside (by decide)

/-- Hiding style blocks leaves lines without their tag as they are. -/
theorem exists_hideStyles_append {above : List Char} (behind : List Char)
    (apart : ¬"<style".toList <:+: above) :
    ∃ tail, hideStyles (encode (above ++ ['\n'] ++ behind)) = encode (above ++ ['\n']) ++ tail := by
  rw [hideStyles, replace]
  cases shape : styleBlock.search (encode (above ++ ['\n'] ++ behind)) with
  | nil => exact ⟨encode behind, by simp [replaceFrom]⟩
  | cons found others =>
    have start := start_of_mem_styleBlock apart (shape ▸ List.mem_cons_self)
    obtain ⟨beyond, place⟩ := Nat.exists_eq_add_of_le start
    rw [List.map_cons, replaceFrom, slice, List.drop_zero, place, encode_append _ behind,
      List.take_length_add_append, List.append_assoc, List.append_assoc]
    exact ⟨_, rfl⟩

/-- Where no style block begins there is nothing to hide. -/
theorem hideStyles_of_search_eq_nil {source : Text} (nothing : styleBlock.search source = []) :
    hideStyles source = source := by
  rw [hideStyles, nothing, replace, List.map_nil, replaceFrom, List.drop_zero]

/-- A text without the beginning of a style block stays as it is. -/
theorem hideStyles_eq_self {characters : List Char} (apart : ¬"<style".toList <:+: characters) :
    hideStyles (encode characters) = encode characters := by
  refine hideStyles_of_search_eq_nil (List.eq_nil_iff_forall_not_mem.mpr fun found member => ?_)
  obtain ⟨before, rest, rfl, -⟩ := exists_of_mem_styleBlock member
  exact apart ⟨before, rest, by simp⟩

/-- The mask of a larger source is made of the masks of the lines above and of the source. -/
theorem exists_mask_hideStyles {front source : String} (behind : String)
    (frontApart : ¬"<style".toList <:+: front.toList)
    (sourceApart : ¬"<style".toList <:+: source.toList)
    (closed : (ofString front ++ [Byte.newline]).LexicallyClosed) :
    ∃ tail, (hideStyles (ofString front ++ Byte.newline :: ofString source ++
        Byte.newline :: ofString behind)).mask =
      (ofString front).mask ++ [Byte.newline] ++ (hideStyles (ofString source)).mask ++
        Byte.newline :: tail := by
  let above := front.toList ++ '\n' :: source.toList
  have apart : ¬"<style".toList <:+: above := fun inside =>
    (infix_of_append_cons (by decide) inside).elim frontApart sourceApart
  have newline : String.utf8EncodeChar '\n' = [Byte.newline] := rfl
  have whole : ofString front ++ Byte.newline :: ofString source ++
      Byte.newline :: ofString behind = encode (above ++ ['\n'] ++ behind.toList) := by
    simp [above, ofString_eq, newline]
  obtain ⟨tail, hidden⟩ := exists_hideStyles_append behind.toList apart
  have hiddenEq : hideStyles (ofString front ++ Byte.newline :: ofString source ++
      Byte.newline :: ofString behind) =
        ofString front ++ [Byte.newline] ++ (ofString source ++ Byte.newline :: tail) := by
    rw [whole, hidden]
    simp [above, ofString_eq, newline]
  have string : IsString (ofString source ++ Byte.newline :: tail) := by
    have both := (Checked.hideStyles_eq_ok ⟨_, whole⟩).2
    rw [hiddenEq, List.append_assoc] at both
    exact (isString_of_append_cons both (by decide)).2
  obtain ⟨below, belowEq⟩ := string.exists_string
  obtain ⟨last, masked⟩ := exists_mask_append_newline (ofString source) tail
  refine ⟨last, ?_⟩
  rw [hiddenEq, belowEq, closed below, ← belowEq, masked, mask_append_newline,
    ofString_eq source, hideStyles_eq_self sourceApart]
  simp

section Names

variable {front characters behind : List Char} {function larger : FunctionBody} {name : Text}

private theorem mem_assigned_of_continues {body other : Span}
    (whole : (encode characters).IsWhole body)
    (otherWhole : (encode (front ++ characters ++ behind)).IsWhole other)
    (continues : FunctionBody.Continues (encode characters)
      (encode (front ++ characters ++ behind)) body other)
    (member : name ∈ assigned ((encode characters).slice body)) :
    name ∈ assigned ((encode (front ++ characters ++ behind)).slice other) := by
  rcases continues with empty | ⟨tail, next, goesOn⟩
  · rw [empty] at member
    exact absurd member List.not_mem_nil
  · have string := whole.isString ⟨characters, rfl⟩
    have otherString := otherWhole.isString ⟨front ++ characters ++ behind, rfl⟩
    rw [goesOn] at otherString ⊢
    obtain ⟨piece, shape⟩ := string
    obtain ⟨all, allEq⟩ := otherString
    rw [shape] at allEq
    obtain ⟨others, -, rfl⟩ := encode_eq_encode_append allEq.symm
    exact mem_assigned_append ⟨piece, shape⟩ ⟨others, rfl⟩ next member

private theorem mem_ofMask_of_covers (inside : function ∈ FunctionBody.all (encode characters))
    (listed : larger ∈ FunctionBody.all (encode (front ++ characters ++ behind)))
    (covers : FunctionBody.Covers (encode characters) (encode (front ++ characters ++ behind))
      (encode front).length function larger)
    (member : name ∈ assigned ((encode characters).slice function.body) ++
      destructured (encode characters) function.start) :
    name ∈ ofMask (encode (front ++ characters ++ behind)) := by
  obtain ⟨begins, whole⟩ := Checked.isWhole_of_mem_all ⟨characters, rfl⟩ inside
  have largerWhole := (Checked.isWhole_of_mem_all ⟨_, rfl⟩ listed).2
  refine List.mem_flatMap.mpr ⟨larger, listed, ?_⟩
  rcases List.mem_append.mp member with isAssigned | taken
  · exact List.mem_append_left _
      (mem_assigned_of_continues whole largerWhole covers.body isAssigned)
  · refine List.mem_append_right _ ?_
    obtain ⟨before, rest, rfl, start⟩ := begins.exists_append
    rcases covers.start with same | nothing
    · rw [← start] at taken same
      rw [same]
      exact mem_destructured_around front behind taken
    · rw [nothing] at taken
      exact absurd taken List.not_mem_nil

/-- The names that the functions of a mask make local are local in the mask of a larger text. -/
theorem mem_ofMask_around {above : List Char} (apart : ¬FunctionBody.EndsInFunction above)
    (member : name ∈ ofMask (encode characters)) :
    name ∈ ofMask (encode (above ++ ['\n'] ++ characters ++ '\n' :: behind)) ∨
      ∃ position, name ∈ destructured (encode characters) position ∧
        FunctionBody.LosesBody (encode characters)
          (encode (above ++ ['\n'] ++ characters ++ '\n' :: behind))
          (encode (above ++ ['\n'])).length position := by
  obtain ⟨function, inside, named⟩ := List.mem_flatMap.mp member
  have seam : isWord (above ++ ['\n']).getLast? = false := by
    rw [List.getLast?_concat]
    rfl
  have next : BeginsLine (encode ('\n' :: behind)) := by
    rintro b ⟨⟩
    rfl
  have covered {larger : FunctionBody} (listed : larger ∈ FunctionBody.all
      (encode (above ++ ['\n'] ++ characters ++ '\n' :: behind)))
      (covers : FunctionBody.Covers (encode characters)
        (encode (above ++ ['\n'] ++ characters ++ '\n' :: behind))
        (encode (above ++ ['\n'])).length function larger) :=
    mem_ofMask_of_covers inside listed covers named
  rcases List.mem_append.mp (SourceOrder.mem_of_mem_sort inside) with found | method
  · rcases List.mem_append.mp found with word | arrow
    · obtain ⟨larger, listed, covers⟩ := FunctionBody.exists_functions_around
        (.closedBy (above ++ ['\n']) ('\n' :: behind) '(') rfl seam word
      exact .inl (covered (SourceOrder.mem_sort_of_mem (List.mem_append_left _
        (List.mem_append_left _ listed))) covers)
    · rcases FunctionBody.exists_arrows_around
        (.closedBy (above ++ ['\n']) ('\n' :: behind) '>') rfl rfl next arrow with
        ⟨larger, listed, covers⟩ | ⟨empty, loses⟩
      · exact .inl (covered (SourceOrder.mem_sort_of_mem (List.mem_append_left _
          (List.mem_append_right _ listed))) covers)
      · refine .inr ⟨function.start, ?_, loses⟩
        rw [empty] at named
        exact named
  · obtain ⟨larger, listed, covers⟩ := FunctionBody.exists_methods_around
      (.closedBy (above ++ ['\n']) ('\n' :: behind) '(') rfl rfl apart method
    exact .inl (covered (SourceOrder.mem_sort_of_mem (List.mem_append_right _ listed)) covers)

end Names

/-- A source between other lines. -/
def embedded (front source behind : Text) : Text :=
  front ++ Byte.newline :: source ++ Byte.newline :: behind

/-- What is local in a source is local where the source stands between other lines, but for what is
taken out of the parameter of an arrow function that loses its body there. -/
theorem contains_ofSource_embedded {front source : String} (behind : String) {name : Text}
    (frontApart : (ofString front).contains "<style" = false)
    (sourceApart : (ofString source).contains "<style" = false)
    (noFunction : (ofString front).mask.trim.endsWith "function" = false)
    (closed : (ofString front ++ [Byte.newline]).LexicallyClosed)
    (isLocal : (ofSource source).contains name = true) :
    (ofSource (embedded front source behind)).contains name = true ∨
      ∃ position, name ∈ destructured (ofString source).mask position ∧
        FunctionBody.LosesBody (ofString source).mask
          (hideStyles (embedded front source behind)).mask ((ofString front).length + 1)
          position := by
  have free {text : String} (apart : (ofString text).contains "<style" = false) :
      ¬"<style".toList <:+: text.toList := by
    rintro ⟨before, after, split⟩
    have inside : ofString "<style" <:+: ofString text := ⟨encode before, encode after, by
      rw [ofString_eq, ofString_eq, ← split, encode_append, encode_append]⟩
    exact Bool.false_ne_true (apart.symm.trans (contains_iff.mpr inside))
  obtain ⟨tail, masked⟩ :=
    exists_mask_hideStyles behind (free frontApart) (free sourceApart) closed
  have frontAligned := (isString_ofString front).aligned
  obtain ⟨above, aboveEq⟩ := frontAligned.maskIsString
  obtain ⟨characters, sourceEq⟩ := (isString_ofString source).aligned.maskIsString
  have plain : hideStyles (ofString source) = ofString source := by
    rw [ofString_eq, hideStyles_eq_self (free sourceApart)]
  have string : IsString (embedded front source behind) := by
    have line (text : String) : IsString (Byte.newline :: ofString text) :=
      isString_newline.append (isString_ofString text)
    exact ((isString_ofString front).append (line source)).append (line behind)
  obtain ⟨others, rfl⟩ : IsString tail := by
    have maskIsString := (Checked.hideStyles_eq_ok string).2.aligned.maskIsString
    rw [embedded, masked] at maskIsString
    exact (isString_of_append_cons maskIsString (by decide)).2
  have shape : (hideStyles (embedded front source behind)).mask =
      encode (above ++ ['\n'] ++ characters ++ '\n' :: others) := by
    have newline : String.utf8EncodeChar '\n' = [Byte.newline] := rfl
    rw [embedded, masked, plain, aboveEq, sourceEq]
    simp [newline]
  have offset : (ofString front).length + 1 = (encode (above ++ ['\n'])).length := by
    rw [frontAligned.length_eq, aboveEq, encode_append, List.length_append]
    rfl
  have apart : ¬FunctionBody.EndsInFunction above := by
    intro ends
    have word := ends.trim_endsWith
    rw [← aboveEq, noFunction] at word
    exact Bool.false_ne_true word
  rw [ofSource, NameSet.contains_ofList, plain, sourceEq] at isLocal
  rw [ofSource, NameSet.contains_ofList, sourceEq, shape, offset]
  exact mem_ofMask_around apart isLocal

/-- An arrow that ends a source, and whose block stands below the source, keeps its parameter. -/
theorem contains_ofSource_embedded_block :
    (ofString "let n = 0").contains "<style" = false ∧
      (ofString "(\x7b b \x7d) =>").contains "<style" = false ∧
      (ofString "let n = 0").mask.trim.endsWith "function" = false ∧
      (ofString "let n = 0" ++ [Byte.newline]).LexicallyClosed ∧
      (ofSource "(\x7b b \x7d) =>").contains "b" = true ∧
      (ofSource (embedded "let n = 0" "(\x7b b \x7d) =>" "\x7b n = b \x7d")).contains "b" =
        true := by
  have frontApart : (ofString "let n = 0").contains "<style" = false := by decide +kernel
  have sourceApart : (ofString "(\x7b b \x7d) =>").contains "<style" = false := by decide +kernel
  have noFunction : (ofString "let n = 0").mask.trim.endsWith "function" = false := by
    decide +kernel
  have closed : (ofString "let n = 0" ++ [Byte.newline]).LexicallyClosed :=
    (isLines_append_newline _).lexicallyClosed (by decide +kernel)
  have isLocal : (ofSource "(\x7b b \x7d) =>").contains "b" = true := by decide +kernel
  refine ⟨frontApart, sourceApart, noFunction, closed, isLocal, ?_⟩
  refine (contains_ofSource_embedded "\x7b n = b \x7d" frontApart sourceApart noFunction closed
    isLocal).resolve_right ?_
  have bodies : ∀ position < 10,
      startsWith ((ofString "(\x7b b \x7d) =>").mask.drop position) "=>" = true →
        (FunctionBody.ofArrow? (hideStyles (embedded "let n = 0" "(\x7b b \x7d) =>"
          "\x7b n = b \x7d")).mask (position + 10)).isSome = true := by decide +kernel
  rintro ⟨position, -, ⟨blanks, arrow, -⟩, lost⟩
  have starts := startsWith_iff.mpr ⟨blanks, arrow⟩
  have length : (ofString "(\x7b b \x7d) =>").mask.length = 10 := by decide +kernel
  have inside : position < 10 := by
    by_contra beyond
    rw [List.drop_eq_nil_of_le (length.trans_le (Nat.le_of_not_lt beyond))] at arrow
    exact absurd (List.append_eq_nil_iff.mp arrow.symm).1 (by decide)
  have offset : (ofString "let n = 0").length + 1 = 10 := by decide +kernel
  have found := bodies position inside starts
  rw [← offset, FunctionBody.ofArrow?_eq_none_iff.mpr lost] at found
  exact Bool.false_ne_true found

/-- An arrow that ends a source, and behind which a brace stands that is never closed, loses its
parameter. -/
theorem not_contains_ofSource_embedded :
    ¬∀ (front source behind : String) (name : Text),
      (ofString front).contains "<style" = false → (ofString source).contains "<style" = false →
      (ofString front).mask.trim.endsWith "function" = false →
      (ofString front ++ [Byte.newline]).LexicallyClosed →
      (ofSource source).contains name = true →
      (ofSource (embedded front source behind)).contains name = true := by
  intro kept
  have closed : (ofString "" ++ [Byte.newline]).LexicallyClosed :=
    (isLines_append_newline _).lexicallyClosed (by decide +kernel)
  have lost : (ofSource (embedded (ofString "") (ofString "(\x7b a \x7d) =>")
      (ofString "\x7b"))).contains (ofString "a") = false := by decide +kernel
  have stays := kept "" "(\x7b a \x7d) =>" "\x7b" (ofString "a") (by decide +kernel)
    (by decide +kernel) (by decide +kernel) closed (by decide +kernel)
  exact Bool.false_ne_true (lost.symm.trans stays)

end LocalNames

end BareComponent
