import BareComponent.Proofs.Mask.Front
import BareComponent.Proofs.ReturnFilter.Sequence

/-! # What stands behind the literals of a script

A return literal ends at a closing bracket, so none reaches into a tail whose mask shows no such
bracket. Filtering a script with such a tail filters what is in front of the tail and copies the
tail.
-/

namespace BareComponent.ReturnFilter

open Text Pattern Cursor Glyph

variable {names : NameSet} {text masked tail behind : Text}

/-- A text without closing brackets has no literal. -/
theorem objects_unclosed (string : IsString behind)
    (unclosed : ∀ b ∈ behind, Byte.isClose b = false) : objects behind = [] := by
  obtain ⟨characters, rfl⟩ := string
  rw [(laid_unclosed unclosed).objects, List.map_nil]

/-- A tail without closing brackets adds no literal. -/
theorem objects_append_unclosed (string : IsString masked) (tailString : IsString behind)
    (unclosed : ∀ b ∈ behind, Byte.isClose b = false) :
    objects (masked ++ behind) =
      objects masked ++ (objects behind).map (Span.shift · masked.length) := by
  rw [objects_unclosed tailString unclosed, List.map_nil, List.append_nil]
  obtain ⟨characters, rfl⟩ := string
  obtain ⟨others, rfl⟩ := tailString
  obtain ⟨literals, laid, found⟩ := exists_laid characters
  rw [found, ← encode_append, (laid.append_unclosed unclosed).objects]

/-- A text without literals stays as it is. -/
theorem filterText_of_objects (absent : objects behind = []) (fuel : Nat) :
    filterText names fuel tail behind = tail := by
  cases fuel with
  | zero => rw [filterText]
  | succ fuel =>
    rw [filterText, absent]
    rfl

/-- A script without return objects is left alone. -/
theorem apply_of_objects (absent : objects tail.mask = []) : apply names tail = tail := by
  rw [apply, filterText_of_objects absent]
  exact ite_self tail

/-- A tail without closing brackets is copied, whatever stands in front of it. -/
theorem filterText_append_unclosed (string : IsString masked) (tailString : IsString behind)
    (unclosed : ∀ b ∈ behind, Byte.isClose b = false) (same : text.length = masked.length)
    (fuel : Nat) :
    filterText names fuel (text ++ tail) (masked ++ behind) =
      filterText names fuel text masked ++ tail := by
  rw [filterText_append string same (objects_append_unclosed string tailString unclosed),
    filterText_of_objects (objects_unclosed tailString unclosed)]

/-- A tail that is masked by itself and shows no closing bracket is copied. -/
theorem apply_append {script : Text} (string : IsString script) (tailString : IsString tail)
    (apart : (script ++ tail).mask = script.mask ++ tail.mask)
    (unclosed : ∀ b ∈ tail.mask, Byte.isClose b = false) :
    apply names (script ++ tail) = apply names script ++ tail := by
  have maskIsString := tailString.aligned.maskIsString
  rw [apply_append_of_objects string tailString apart
    (objects_append_unclosed string.aligned.maskIsString maskIsString unclosed),
    apply_of_objects (objects_unclosed maskIsString unclosed)]

/-- A scan shows no closing brackets that are not in the text, whatever state it starts in. -/
theorem unclosed_scan (unclosed : ∀ b ∈ text, Byte.isClose b = false) (state : Scanner.State)
    (next : Option UInt8) : ∀ b ∈ Scanner.scan state next text, Byte.isClose b = false := by
  intro b member
  by_contra closes
  rw [Bool.not_eq_false] at closes
  have inside := Scanner.mem_of_mem_scan member (shown_of_isClose closes).2.1
  rw [unclosed b inside] at closes
  contradiction

/-- A tail without closing brackets is copied behind whole lines, in whatever state these leave the
scanner. What is left of the lines are whole lines again. -/
theorem exists_apply_append {script : Text} (string : IsString script) (tailString : IsString tail)
    (whole : IsLines script) (unclosed : ∀ b ∈ tail, Byte.isClose b = false) :
    ∃ kept, IsLines kept ∧ apply names (script ++ tail) = kept ++ tail := by
  let behind := Scanner.scan (Scanner.after Scanner.start none script) none tail
  have masked : (script ++ tail).mask = script.mask ++ behind :=
    Scanner.mask_append_of_isLines whole tail
  have behindUnclosed : ∀ b ∈ behind, Byte.isClose b = false := unclosed_scan unclosed _ _
  have maskIsString := (string.append tailString).aligned.maskIsString
  rw [apply]
  split
  · exact ⟨script, whole, rfl⟩
  rw [masked] at maskIsString ⊢
  rcases whole.eq_nil_or_exists with rfl | ⟨front, rfl⟩
  · refine ⟨[], .nil, ?_⟩
    have behindString : IsString behind := maskIsString
    rw [filterText_append_unclosed string.aligned.maskIsString behindString behindUnclosed
      (mask_length []).symm, filterText]
    rfl
  · have lineEnd : (front ++ [Byte.newline]).mask =
        Scanner.scan Scanner.start (some Byte.newline) front ++ [Byte.newline] := by
      rw [mask_eq_scan, Scanner.scan_append_newline]
      rfl
    rw [lineEnd, List.append_assoc, List.singleton_append] at maskIsString
    obtain ⟨frontString, behindString⟩ := isString_of_append_cons maskIsString (by decide)
    have newlineString : IsString (Byte.newline :: behind) :=
      isString_newline.append behindString
    have newlineUnclosed : ∀ b ∈ Byte.newline :: behind, Byte.isClose b = false :=
      List.forall_mem_cons.mpr ⟨by decide, behindUnclosed⟩
    rw [lineEnd, List.append_assoc, List.append_assoc, List.singleton_append,
      List.singleton_append, filterText_append_unclosed frontString newlineString newlineUnclosed
        (Scanner.scan_length ..).symm, List.append_cons]
    exact ⟨_, isLines_append_newline _, rfl⟩

end BareComponent.ReturnFilter
