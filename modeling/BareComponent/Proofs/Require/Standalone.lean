import BareComponent.Proofs.Require.Line

/-! # Standalone require lines

A require line is standalone when nothing but a binding stands in front of its call. The search for
require lines does not look at what stands there, so a line whose call ends a larger expression or a
destructuring declaration is removed as well. Only scripts without such a line lose nothing else.
-/

namespace BareComponent

namespace RequireLine

open Pattern Text

/-- Whether these characters are a name as a require site spells it. -/
def IsName : List Char → Prop
  | [] => False
  | c :: rest => CharacterClass.ofByte Byte.startsIdentifier c.toNat = true ∧
      ∀ d ∈ rest, CharacterClass.wordOrDollar d.toNat = true

theorem ne_nil_of_name {name : List Char} (named : IsName name) : name ≠ [] := by
  rintro rfl
  exact named

theorem wordOrDollar_of_name {name : List Char} (named : IsName name) :
    ∀ c ∈ name, CharacterClass.wordOrDollar c.toNat = true := by
  cases name with
  | nil => exact named.elim
  | cons c others =>
    exact List.forall_mem_cons.mpr ⟨CharacterClass.wordOrDollar_of_starts named.1, named.2⟩

/-- No character of a name is blank. -/
theorem dark_of_name {name : List Char} (named : IsName name) :
    ∀ c ∈ name, CharacterClass.blank c.toNat = false := by
  intro c member
  rw [← Bool.not_eq_true]
  intro blank
  have word := wordOrDollar_of_name named c member
  rw [CharacterClass.wordOrDollar_of_blank blank] at word
  contradiction

/-- No blank ends a name. -/
theorem dark_getLast?_of_name {name : List Char} (named : IsName name) (front : List Char) :
    ∀ c ∈ (front ++ name).getLast?, CharacterClass.blank c.toNat = false := by
  intro c last
  rw [List.getLast?_append_of_ne_nil _ (ne_nil_of_name named)] at last
  exact dark_of_name named c (List.mem_of_getLast? last)

/-- What a standalone require line has in front of its call. -/
inductive Lead : List Char → Prop
  | nothing {indent : List Char} (blank : Blank indent) : Lead indent
  | binding {indent name before behind : List Char} (indentBlank : Blank indent)
      (named : IsName name) (beforeBlank : Blank before) (behindBlank : Blank behind) :
      Lead (indent ++ name ++ before ++ '=' :: behind)
  | declaration {indent gap name before behind : List Char} (keyword : String)
      (declares : keyword ∈ ["var", "const", "let"]) (indentBlank : Blank indent)
      (gapBlank : Blank gap) (someGap : gap ≠ []) (named : IsName name)
      (beforeBlank : Blank before) (behindBlank : Blank behind) :
      Lead (indent ++ keyword.toList ++ gap ++ name ++ before ++ '=' :: behind)

/-- Whether a masked line consists of one call and what a standalone call has around it. -/
def Standalone (line : Text) : Prop :=
  ∃ (lead : List Char) (call : Call), line = Text.encode (lead ++ call.spelled) ∧ Lead lead

/-- A line has only one call that it ends in, read from its end. -/
theorem front_unique {front other : List Char} {call next : Call}
    (same : front ++ call.spelled = other ++ next.spelled) : front = other := by
  have quoteNoGap (quote : Quote) : ¬(quote.character = ' ' ∨ quote.character = '\t') := by
    cases quote <;> decide
  let named (front : List Char) (call : Call) := front ++ Call.opening ++ call.inner
  let quoted (front : List Char) (call : Call) :=
    named front call ++ call.quote.character :: call.name
  have shape (front : List Char) (call : Call) : front ++ call.spelled =
      quoted front call ++ call.quote.character :: call.outer ++ ')' :: call.closing.spelled := by
    simp [Call.spelled, quoted, named]
  rw [shape, shape] at same
  obtain ⟨same, -, -⟩ := append_cons_inj_of_not (· ∈ [' ', '\t', ';', '\r', '\n']) same
    (by decide) (by decide) call.closing.mem_spelled next.closing.mem_spelled
  obtain ⟨same, quotes, -⟩ := append_cons_inj_of_not (fun c => c = ' ' ∨ c = '\t') same
    (quoteNoGap _) (quoteNoGap _) call.outerValid next.outerValid
  obtain ⟨same, -, -⟩ := append_cons_inj_of_not (· ≠ call.quote.character) same
    (by simp) (by simp [quotes]) (fun c inside => by rintro rfl; exact call.nameValid.1 inside)
    (fun c inside => by rw [quotes]; rintro rfl; exact next.nameValid.1 inside)
  have opening : Call.opening = "require".toList ++ ['('] := rfl
  have paren (front : List Char) (call : Call) :
      named front call = front ++ "require".toList ++ '(' :: call.inner := by
    simp only [named, opening, List.append_assoc, List.singleton_append]
  rw [paren, paren] at same
  obtain ⟨same, -, -⟩ := append_cons_inj_of_not (fun c => c = ' ' ∨ c = '\t') same
    (by decide) (by decide) call.innerValid next.innerValid
  exact List.append_cancel_right same

theorem standalone_iff {front : List Char} {call : Call} :
    Standalone (Text.encode (front ++ call.spelled)) ↔ Lead front := by
  constructor
  · rintro ⟨lead, next, same, leads⟩
    rw [front_unique (Text.encode_injective same)]
    exact leads
  · exact fun leads => ⟨front, call, rfl, leads⟩

def removedLines (script : Text) : List ScriptLine :=
  (ScriptLine.all script).filter (isRequireLine ·.mask)

theorem mem_removedLines {script : String} {line : ScriptLine} :
    line ∈ removedLines script ↔ line ∈ ScriptLine.all script ∧
      ∃ (front : List Char) (call : Call), line.mask = Text.encode (front ++ call.spelled) ∧
        isWord front.getLast? = false := by
  rw [removedLines, List.mem_filter]
  refine and_congr_right fun member => ?_
  have masked : line.mask ∈ (Text.mask script).lines := by
    rw [← ScriptLine.map_mask_all]
    exact List.mem_map_of_mem member
  exact isRequireLine_iff masked

/-- Stripping takes out the lines that end in a call, and only standalone require lines are among
them when and only when no other line of the script has a call at its end. -/
theorem strip_only_standalone_iff (script : String) :
    strip script = (keptLines script).flatMap ScriptLine.text ∧
    ((∀ line ∈ removedLines script, Standalone line.mask) ↔
      ∀ line ∈ ScriptLine.all script, ∀ (front : List Char) (call : Call),
        line.mask = Text.encode (front ++ call.spelled) → isWord front.getLast? = false →
          Lead front) := by
  refine ⟨strip_eq script, ?_⟩
  constructor
  · intro standalone line member front call shape boundary
    have removed := standalone line (mem_removedLines.mpr ⟨member, front, call, shape, boundary⟩)
    rw [shape] at removed
    exact standalone_iff.mp removed
  · intro leads line removed
    obtain ⟨member, front, call, shape, boundary⟩ := mem_removedLines.mp removed
    rw [shape]
    exact standalone_iff.mpr (leads line member front call shape boundary)

/-- Only white space stands behind the equals sign of a binding. -/
theorem Lead.blank_or_assigns {lead : List Char} (leads : Lead lead) :
    Blank lead ∨ ∃ front behind, lead = front ++ '=' :: behind ∧ Blank behind := by
  cases leads with
  | nothing blank => exact .inl blank
  | binding _ _ _ behindBlank => exact .inr ⟨_, _, rfl, behindBlank⟩
  | declaration _ _ _ _ _ _ _ behindBlank => exact .inr ⟨_, _, rfl, behindBlank⟩

/-- The last operand of an expression is taken for a standalone call. -/
theorem strip_tears_expression :
    ¬∀ line ∈ removedLines "const x = a || require('y')\nfoo", Standalone line.mask := by
  intro standalone
  let line : ScriptLine := ⟨Scanner.start, "const x = a || require('y')\n"⟩
  let closing : Closing := ⟨[], none, false, true, by simp [Gap], by simp⟩
  let call : Call := ⟨[], .single, [' '], [], closing, by simp [Gap], by decide, by simp [Gap]⟩
  have removed : line ∈ removedLines "const x = a || require('y')\nfoo" := by decide +kernel
  have masked : line.mask = Text.encode ("const x = a || ".toList ++ call.spelled) := by
    decide +kernel
  have leads := standalone line removed
  rw [masked, standalone_iff] at leads
  have ends : "const x = a || ".toList = "const x = a |".toList ++ '|' :: [' '] := by
    decide +kernel
  generalize "const x = a |".toList = front at ends
  rw [ends] at leads
  have bar : ¬CharacterClass.blank '|'.toNat = true := by decide
  have equals : ¬CharacterClass.blank '='.toNat = true := by decide
  rcases leads.blank_or_assigns with blank | ⟨other, behind, split, blank⟩
  · exact bar (blank '|' (by simp))
  · have space : Blank [' '] := fun c member => by
      obtain rfl := List.mem_singleton.mp member
      decide
    have cut := append_cons_inj_of_not (fun c => CharacterClass.blank c.toNat = true) split
    obtain ⟨-, same, -⟩ := cut bar equals space blank
    exact absurd same (by decide)

end RequireLine

end BareComponent
