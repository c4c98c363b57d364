import BareComponent.Proofs.Text.Replace

/-! # Where a tag occurs

A tag begins with a character that it has nowhere else. So it does not reach over a place where that
character stands, nor over one where a character stands that it does not have, and what occurs in a
text that is cut there occurs in one of its parts.
-/

namespace BareComponent.Text

section Lists

variable {α : Type} {a b : α} {tail front behind : List α}

/-- What does not have an element ends in front of it. -/
theorem prefix_append_cons_iff (outside : a ∉ tail) :
    tail <+: front ++ a :: behind ↔ tail <+: front := by
  constructor
  · rintro ⟨rest, split⟩
    rcases List.append_eq_append_iff.mp split with ⟨more, rfl, -⟩ | ⟨more, rfl, others⟩
    · exact List.prefix_append tail more
    · cases more with
      | nil => exact (List.append_nil front).symm ▸ List.prefix_rfl
      | cons c more =>
        obtain ⟨rfl, -⟩ := List.cons.inj others
        exact absurd (List.mem_append_right front List.mem_cons_self) outside
  · exact fun begins => begins.trans (List.prefix_append front _)

/-- A tag occurs on one side of an element that may stand only where it begins. -/
theorem cons_infix_append_cons_iff (outside : a ∉ tail) :
    b :: tail <:+: front ++ a :: behind ↔ b :: tail <:+: front ∨ b :: tail <:+: a :: behind := by
  induction front with
  | nil => simp
  | cons c front ih =>
    have begins : b :: tail <+: c :: (front ++ a :: behind) ↔ b :: tail <+: c :: front := by
      rw [List.cons_prefix_cons, List.cons_prefix_cons, prefix_append_cons_iff outside]
    rw [List.cons_append, List.infix_cons_iff, begins, ih, ← or_assoc, ← List.infix_cons_iff]

/-- A tag occurs behind what does not have its first element. -/
theorem cons_infix_append_iff (outside : b ∉ front) :
    b :: tail <:+: front ++ behind ↔ b :: tail <:+: behind := by
  induction front with
  | nil => rfl
  | cons c front ih =>
    rw [List.cons_append, List.infix_cons_iff, List.cons_prefix_cons,
      ih (List.not_mem_of_not_mem_cons outside)]
    simp [List.ne_of_not_mem_cons outside]

end Lists

section Search

variable {b : UInt8} {tail front behind : Text}

/-- A tag is found first behind a text in which it does not occur. -/
theorem indexOf?_eq_length (once : b ∉ tail) (absent : ¬b :: tail <:+: front) (behind : Text) :
    indexOf? (front ++ (b :: tail ++ behind)) (b :: tail) = some front.length := by
  induction front with
  | nil =>
    have begins : startsWith (b :: tail ++ behind) (b :: tail) = true :=
      startsWith_iff.mpr ⟨behind, rfl⟩
    rw [List.cons_append] at begins
    rw [List.nil_append, List.cons_append, indexOf?, if_pos begins]
    rfl
  | cons c front ih =>
    rw [List.infix_cons_iff, not_or] at absent
    have elsewhere : ¬startsWith (c :: front ++ (b :: tail ++ behind)) (b :: tail) = true := by
      refine mt startsWith_iff_prefix.mp ?_
      rw [List.cons_append, List.cons_append, List.cons_prefix_cons,
        prefix_append_cons_iff once, ← List.cons_prefix_cons]
      exact absent.1
    rw [List.cons_append] at elsewhere ⊢
    rw [indexOf?, if_neg elsewhere, ih absent.2]
    rfl

theorem lastIndexOf?_eq_none_iff {text needle : Text} :
    lastIndexOf? text needle = none ↔ ¬needle <:+: text := by
  induction text with
  | nil => by_cases nothing : needle = [] <;> simp [lastIndexOf?, nothing]
  | cons c rest ih =>
    rw [lastIndexOf?, List.infix_cons_iff, not_or, ← ih, ← startsWith_iff_prefix]
    cases lastIndexOf? rest needle with
    | none => simp
    | some offset => simp

/-- A tag is found last in front of a text in which it does not occur. -/
theorem lastIndexOf?_eq_length (once : b ∉ tail) (front : Text) (absent : ¬b :: tail <:+: behind) :
    lastIndexOf? (front ++ (b :: tail ++ behind)) (b :: tail) = some front.length := by
  induction front with
  | nil =>
    have begins : startsWith (b :: (tail ++ behind)) (b :: tail) = true :=
      startsWith_iff.mpr ⟨behind, rfl⟩
    have nothing : lastIndexOf? (tail ++ behind) (b :: tail) = none := by
      rwa [lastIndexOf?_eq_none_iff, cons_infix_append_iff once]
    rw [List.nil_append, List.cons_append, lastIndexOf?, nothing]
    simp only [if_pos begins, List.length_nil]
  | cons c front ih =>
    rw [List.cons_append, lastIndexOf?, ih]
    rfl

/-- A string occurs in another as characters. -/
theorem encode_infix_iff {needle characters : List Char} :
    encode needle <:+: encode characters ↔ needle <:+: characters := by
  constructor
  · rintro ⟨front, behind, split⟩
    rcases eq_or_ne needle [] with rfl | nonempty
    · exact List.nil_infix
    · obtain ⟨first, second, rfl, -, -⟩ := encode_eq_append_encode nonempty split.symm
      exact ⟨first, second, rfl⟩
  · rintro ⟨front, behind, rfl⟩
    exact ⟨encode front, encode behind, by rw [encode_append, encode_append]⟩

end Search

end BareComponent.Text
