import BareComponent.Proofs.FunctionBody.Heads

/-! # The word that a name ends

The search for methods reads a name from the leftmost character of a word at which a name may begin,
so what stands in front of that name ends in no name. A word is cut into its name and what stands in
front of the name in one way.
-/

namespace BareComponent.FunctionBody

open Cursor Pattern Text RequireLine

variable {front name above head first second gap blanks rest : List Char}

theorem isName_of_append (named : IsName (first ++ second)) (nonempty : first ≠ []) :
    IsName first := by
  obtain ⟨c, first, rfl⟩ := List.exists_cons_of_ne_nil nonempty
  exact ⟨named.1, fun d member => named.2 d (List.mem_append_left _ member)⟩

theorem isName_append (named : IsName first) (other : IsName second) : IsName (first ++ second) := by
  cases first with
  | nil => exact other
  | cons c first =>
    exact ⟨named.1, List.forall_mem_append.mpr ⟨named.2, wordOrDollar_of_name other⟩⟩

/-- Whether no name ends where some characters end. -/
def Nameless (characters : List Char) : Prop :=
  ∀ front name, characters = front ++ name → ¬IsName name

/-- No name ends where no word ends. -/
theorem nameless_of_getLast?
    (dark : ∀ c ∈ above.getLast?, CharacterClass.wordOrDollar c.toNat = false) :
    Nameless above := by
  rintro front name rfl named
  obtain ⟨c, last⟩ : ∃ c, name.getLast? = some c := by
    cases name with
    | nil => exact named.elim
    | cons c name => exact ⟨_, List.getLast?_cons⟩
  have continues := wordOrDollar_of_name named c (List.mem_of_getLast? last)
  rw [dark c (by simp [List.getLast?_append, last])] at continues
  contradiction

/-- No name goes on from one text without names into another. -/
theorem Nameless.append (nameless : Nameless first) (others : Nameless second) :
    Nameless (first ++ second) := by
  intro front name split named
  rcases List.append_eq_append_iff.mp split with ⟨more, rfl, later⟩ | ⟨more, rfl, rfl⟩
  · exact others more name later named
  · rcases eq_or_ne more [] with rfl | nonempty
    · exact others [] second rfl named
    · exact nameless front more rfl (isName_of_append named nonempty)

/-- A name can be made longer in front until no name ends where it begins. -/
theorem exists_word (named : IsName name) (front : List Char) :
    ∃ above more, front = above ++ more ∧ IsName (more ++ name) ∧ Nameless above := by
  induction size : front.length using Nat.strongRecOn generalizing front name with
  | ind size ih =>
    subst size
    by_cases nameless : Nameless front
    · exact ⟨front, [], by simp, named, nameless⟩
    · obtain ⟨before, word, rfl, wordNamed⟩ : ∃ before word, front = before ++ word ∧
          IsName word := by
        simpa [Nameless] using nameless
      have shorter : before.length < (before ++ word).length := by
        cases word with
        | nil => exact wordNamed.elim
        | cons c word => simp
      obtain ⟨above, more, rfl, longer, nameless⟩ :=
        ih before.length shorter (isName_append wordNamed named) before rfl
      exact ⟨above, more ++ word, by simp, by simpa using longer, nameless⟩

/-- A word is cut in front of its name in one way. -/
theorem word_unique (same : above ++ head = front ++ name) (named : IsName head)
    (otherNamed : IsName name) (nameless : Nameless above) (otherNameless : Nameless front) :
    above = front ∧ head = name := by
  rcases List.append_eq_append_iff.mp same with ⟨more, rfl, rfl⟩ | ⟨more, rfl, rfl⟩
  · rcases eq_or_ne more [] with rfl | nonempty
    · simp
    · exact absurd (isName_of_append named nonempty) (otherNameless above more rfl)
  · rcases eq_or_ne more [] with rfl | nonempty
    · simp
    · exact absurd (isName_of_append otherNamed nonempty) (nameless front more rfl)

section NameUpTo

variable {c : Char} (outside : CharacterClass.wordOrDollar c.toNat = false)
  (dark : CharacterClass.blank c.toNat = false)
include outside dark

private theorem leftmost_nameUpTo_iff {frame : Frame} (closing : frame.closing = some c)
    (named : IsName name) (blank : Blank gap) (rest : List Char) :
    Leftmost frame (nameUpTo c) [] above (name ++ gap ++ [c] ++ rest) ↔ Nameless above := by
  have reads := reads_nameUpTo outside dark
  constructor
  · rintro leftmost front word rfl wordNamed
    have nonempty := ne_nil_of_name wordNamed
    have apart : frame.Avoids word := Frame.forall_closing closing fun member => by
      rw [wordOrDollar_of_name wordNamed c member] at outside
      contradiction
    have fails := reads.matchAt?_eq_none_iff.mp (leftmost front word rfl nonempty apart)
    exact fails (word ++ name ++ gap ++ [c]) rest _ (by simp) (by simp)
      ⟨word ++ name, gap, rfl, isName_append wordNamed named, blank, rfl⟩
  · rintro nameless first second rfl nonempty apart
    refine reads.matchAt?_eq_none_iff.mpr ?_
    rintro _ behind _ split - ⟨word, blanks, rfl, wordNamed, blanksBlank, -⟩
    obtain ⟨rfl, -⟩ := eq_of_append_nameUpTo outside dark split (apart c closing) named blank
      wordNamed blanksBlank
    exact nameless first second rfl (isName_of_append wordNamed nonempty)

/-- A search finds the names in front of a character, each as long as it can be. -/
theorem mem_search_nameUpTo_iff {characters : List Char} {found : Match Span} :
    found ∈ (nameUpTo c).search (encode characters) ↔ ∃ above name gap rest,
      characters = above ++ (name ++ gap ++ [c] ++ rest) ∧ IsName name ∧ Blank gap ∧
      Nameless above ∧ found = ⟨⟨(encode above).length,
        (encode (above ++ (name ++ gap ++ [c]))).length⟩,
        ⟨(encode above).length, (encode (above ++ name)).length⟩⟩ := by
  have outer : Outer (Frame.closedBy [] [] c) _ (nameUpTo c) (nameUpTo c) :=
    outer_nameUpTo rfl outside dark
  have reads := reads_nameUpTo outside dark
  constructor
  · intro member
    obtain ⟨above, _, rfl, here, leftmost⟩ := outer.exists_of_mem_search member
    obtain ⟨_, rest, rfl, -, ⟨name, gap, rfl, named, blank, value⟩, span⟩ := (reads _ _ _).mp here
    obtain ⟨_, _⟩ := found
    obtain rfl := value
    obtain rfl := span
    exact ⟨above, name, gap, rest, rfl, named, blank,
      (leftmost_nameUpTo_iff outside dark rfl named blank rest).mp leftmost, rfl⟩
  · rintro ⟨above, name, gap, rest, rfl, named, blank, nameless, rfl⟩
    exact outer.mem_search
      (reads.matchAt?_eq_some (by simp) ⟨name, gap, rfl, named, blank, rfl⟩ rest)
      ((leftmost_nameUpTo_iff outside dark rfl named blank rest).mpr nameless)

end NameUpTo

/-- The search for methods finds the names in front of parentheses, each as long as it can be. -/
theorem mem_search_methodHead_iff {characters : List Char} {found : Match Span} :
    found ∈ methodHead.search (encode characters) ↔ ∃ above name gap rest,
      characters = above ++ (name ++ gap ++ ['('] ++ rest) ∧ IsName name ∧ Blank gap ∧
      Nameless above ∧ found = ⟨⟨(encode above).length,
        (encode (above ++ (name ++ gap ++ ['(']))).length⟩,
        ⟨(encode above).length, (encode (above ++ name)).length⟩⟩ :=
  mem_search_nameUpTo_iff (by decide) (by decide)

/-- Where the word `function` opens parameters, it or an earlier one is found for them. -/
theorem exists_mem_search_functionHead {before passed : List Char}
    (opens : OpensFunction before passed) (rest : List Char) :
    ∃ found ∈ functionHead.search (encode (before ++ (passed ++ rest))),
      found.span.stop = (encode (before ++ passed)).length := by
  have outer : Outer (Frame.closedBy [] [] '(') id functionHead functionHead :=
    outer_functionHead rfl rfl
  have nonempty : passed ≠ [] := by
    obtain ⟨-, opening, rfl⟩ := opens
    exact List.append_ne_nil_of_right_ne_nil _ (List.cons_ne_nil _ _)
  have here : matchAt? functionHead (between before (passed ++ rest)) = some ⟨_, ()⟩ :=
    reads_functionHead.matchAt?_eq_some nonempty opens rest
  obtain ⟨first, second, other, rfl, avoids, earlier, inside⟩ := outer.exists_leftmost here
  exact ⟨other, inside, outer.stop_eq avoids here earlier⟩

end BareComponent.FunctionBody
