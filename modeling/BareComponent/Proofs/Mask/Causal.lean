import BareComponent.Proofs.Mask.Layout

/-! # What a mask owes to what follows

The scanner looks one byte ahead, in code for the second byte of a comment's beginning, and inside
literals for the second byte of a delimiter. Inside a literal a byte is shown or hidden whatever
comes next; in code only a slash waits for the next byte. So the mask of a text is fixed before
anything is read behind it, but for a slash at its very end.
-/

namespace BareComponent

namespace Scanner

/-- Whether what comes next makes a comment begin with a slash of code. -/
def OpensComment (next : Option UInt8) : Prop := next = some Byte.slash ∨ next = some Byte.asterisk

instance (next : Option UInt8) : Decidable (OpensComment next) :=
  inferInstanceAs (Decidable (_ ∨ _))

private theorem shown_slash (braces : List Nat) (next : Option UInt8) :
    shown ⟨.code, false, braces⟩ Byte.slash next =
      if OpensComment next then Byte.space else Byte.slash := by
  have visible : shows ⟨.code, false, braces⟩ Byte.slash next = decide ¬OpensComment next := by
    simp +decide [shows, showsCode, OpensComment, Bool.beq_eq_decide_eq]
  have hidden : Byte.blanked Byte.slash = Byte.space := rfl
  simp only [shown, visible, hidden, decide_eq_true_eq, ite_not]

/-- Only a slash is shown as a slash. -/
theorem eq_slash_of_shown {state : State} {b : UInt8} {next : Option UInt8}
    (here : shown state b next = Byte.slash) : b = Byte.slash :=
  (masks_shown state b next).elim (fun same => same.symm.trans here)
    fun ⟨_, blank⟩ => absurd (blank.symm.trans here) (by decide)

private theorem shown_of_other {state : State} {b : UInt8}
    (other : ¬(b = Byte.slash ∧ state.claimed = false ∧ state.mode = .code))
    (next : Option UInt8) :
    shown state b next = shown state b none ∧ shown state b none ≠ Byte.slash := by
  rcases state with ⟨mode, claimed, braces⟩
  by_cases slash : b = Byte.slash
  · subst slash
    have hidden (next : Option UInt8) : shows ⟨mode, claimed, braces⟩ Byte.slash next = false := by
      cases claimed with
      | true => rfl
      | false =>
        cases mode with
        | code => simp at other
        | quoted quote => cases quote <;> rfl
        | lineComment => rfl
        | blockComment => rfl
        | template => rfl
    simp +decide [shown, hidden]
  · have same : shows ⟨mode, claimed, braces⟩ b next = shows ⟨mode, claimed, braces⟩ b none := by
      cases mode with
      | code => simp [shows, showsCode, beq_eq_false_iff_ne.mpr slash]
      | _ => rfl
    exact ⟨by rw [shown, shown, same], mt eq_slash_of_shown slash⟩

/-- What comes next matters to what is shown of a byte exactly if the byte is a slash of code and
begins a comment with it. -/
theorem shown_eq_iff (state : State) (b : UInt8) (next : Option UInt8) :
    shown state b next = shown state b none ↔
      ¬(shown state b none = Byte.slash ∧ OpensComment next) := by
  by_cases here : b = Byte.slash ∧ state.claimed = false ∧ state.mode = .code
  · rcases state with ⟨mode, claimed, braces⟩
    obtain ⟨rfl, rfl, rfl⟩ := here
    have alone : ¬OpensComment none := by decide
    rw [shown_slash, shown_slash, if_neg alone]
    by_cases comment : OpensComment next
    · simp +decide [comment]
    · simp [comment]
  · obtain ⟨same, other⟩ := shown_of_other here next
    simp [same, other]

/-- A scan shows of its last byte what it shows of it alone, in the state that the others leave. -/
theorem scan_concat (state : State) (next : Option UInt8) (front : Text) (b : UInt8) :
    scan state next (front ++ [b]) =
      scan state (some b) front ++ [shown (after state (some b) front) b next] := by
  rw [scan_append]
  rfl

end Scanner

namespace Text

open Scanner

private theorem mask_concat_append (front : Text) (b : UInt8) (second : Text) :
    ∃ masked state, masked.length = front.length ∧
      (front ++ [b]).mask = masked ++ [shown state b none] ∧
      ((front ++ [b]) ++ second).mask.take (front.length + 1) =
        masked ++ [shown state b second.head?] := by
  refine ⟨scan start (some b) front, after start (some b) front, scan_length .., ?_, ?_⟩
  · rw [mask_eq_scan, scan_concat]
  · have length : (scan start second.head? (front ++ [b])).length = front.length + 1 := by simp
    rw [mask_eq_scan, scan_append, Option.or_none, ← length, List.take_left, scan_concat]

/-- The mask of a text that goes on shows what the mask of the text shows, but in the place of a
slash at the end; and there too, unless the slash is one of code and what follows makes a comment
begin with it. -/
theorem mask_append_causal (first second : Text) :
    (∀ offset < first.length,
      (offset + 1 = first.length → first[offset]? ≠ some Byte.slash) →
        (first ++ second).mask[offset]? = first.mask[offset]?) ∧
    ((first ++ second).mask.take first.length = first.mask ↔
      ¬(first.mask.getLast? = some Byte.slash ∧ OpensComment second.head?)) := by
  rcases List.eq_nil_or_concat' first with rfl | ⟨front, b, rfl⟩
  · exact ⟨fun offset inside => absurd inside (Nat.not_lt_zero offset), by simp [mask_eq_scan]⟩
  · obtain ⟨masked, state, length, alone, longer⟩ := mask_concat_append front b second
    have bytes : (front ++ [b]).length = front.length + 1 := List.length_append
    rw [bytes]
    refine ⟨fun offset inside settled => ?_, ?_⟩
    · rw [← List.getElem?_take_of_lt inside, longer, alone]
      rcases Nat.lt_succ_iff_lt_or_eq.mp inside with within | rfl
      · rw [List.getElem?_append_left (length ▸ within),
          List.getElem?_append_left (length ▸ within)]
      · have other : b ≠ Byte.slash := by simpa using settled rfl
        have same : shown state b second.head? = shown state b none :=
          (shown_eq_iff state b _).mpr fun comment => other (eq_slash_of_shown comment.1)
        rw [same]
    · rw [longer, alone, List.append_cancel_left_eq, List.getLast?_concat, Option.some_inj,
        ← shown_eq_iff, List.cons.injEq, and_iff_left rfl]

/-- In the code of an open interpolation a slash in the middle is settled, and the one at the end is
shown until a line comment begins with it. -/
theorem mask_append_causal_interpolation :
    let first : Text := "`a$\x7b '\x7d' / b /"
    let second : Text := "/ c`\n\x7d d`"
    9 < first.length ∧ (9 + 1 = first.length → first[9]? ≠ some Byte.slash) ∧
      first[9]? = some Byte.slash ∧ (first ++ second).mask[9]? = first.mask[9]? ∧
      first.mask.getLast? = some Byte.slash ∧ OpensComment second.head? ∧
      (first ++ second).mask.take first.length ≠ first.mask := by
  intro first second
  obtain ⟨settled, last⟩ := mask_append_causal first second
  have inside : 9 < first.length := by decide
  have middle : 9 + 1 = first.length → first[9]? ≠ some Byte.slash := by decide
  have shownLast : first.mask.getLast? = some Byte.slash := by decide +kernel
  have comment : OpensComment second.head? := by decide
  exact ⟨inside, middle, rfl, settled 9 inside middle, shownLast, comment,
    fun same => last.mp same ⟨shownLast, comment⟩⟩

end Text

end BareComponent
