import OscAddressing.Proofs.Pattern.Reading
import OscAddressing.Tree.Name

/-!
# Texts that can name a node

Whether a text can name a node is decided by reading it as a pattern segment. It can be told from
its characters: `isValid_iff_characters`. A closing character does no harm, and an opening one does
none as long as nothing behind it closes it, so the two kinds of brackets may also cross each other.
Where closing characters are reserved, an opening one never does any harm.

A name is read as plain text (`Token.PlainText`), so as a pattern it accepts itself and no other
name.
-/

namespace OscAddressing

namespace Name

/-- **A name may be registered** when it is not empty, has no separator, reads as itself, and has no
reserved character if naming is strict. -/
theorem isValid_iff {strict : Bool} {name : Text} :
    isValid strict name = true ↔ name ≠ [] ∧ separator ∉ name ∧
      (Component.ofText name).literal? = some name ∧
      (strict = true → ∀ c ∈ name, isReserved c = false) := by
  rw [isValid, fault?]
  split
  case isTrue hempty => simp [List.isEmpty_iff.1 hempty]
  case isFalse hempty =>
    split
    case isTrue hseparator => simp [hseparator]
    case isFalse hseparator =>
      split
      case isTrue hliteral => simp [hliteral]
      case isFalse hliteral =>
        have hname : name ≠ [] := by simpa using hempty
        rw [ne_eq, not_not] at hliteral
        split
        case isTrue hreserved =>
          simp only [Bool.and_eq_true, List.any_eq_true] at hreserved
          obtain ⟨hstrict, c, hc, hreserved⟩ := hreserved
          refine iff_of_false (by simp) fun h ↦ ?_
          exact Bool.false_ne_true ((h.2.2.2 hstrict c hc).symm.trans hreserved)
        case isFalse hreserved =>
          refine iff_of_true rfl ⟨hname, hseparator, hliteral, fun hstrict c hc ↦ ?_⟩
          rw [Bool.not_eq_true, Bool.and_eq_false_iff] at hreserved
          rcases hreserved with hreserved | hreserved
          · exact absurd hstrict (by simp [hreserved])
          · simpa using List.any_eq_false.1 hreserved c hc

/-- **A path is refused unless it has names, and only valid ones.** -/
theorem refusal?_eq_none_iff {strict : Bool} {path : Path} :
    refusal? strict path = none ↔ path ≠ [] ∧ ∀ name ∈ path, isValid strict name = true := by
  cases path with
  | nil => simp [refusal?]
  | cons first rest => simp [refusal?, isValid]

/-! ### The characters of a name -/

variable {name : Text}

/-- **A name, if naming is not strict**, is plain text to its end. -/
theorem isValid_false_iff :
    isValid false name = true ↔
      name ≠ [] ∧ separator ∉ name ∧ Token.PlainText name [] := by
  rw [isValid_iff, Component.literal?_eq_some_iff]
  show _ ∧ _ ∧ Pattern.scan .longest name = [.literal name] ∧ _ ↔ _
  rw [Pattern.scan_eq_literal_iff]
  constructor
  · rintro ⟨hne, hseparator, ⟨-, -, hplain⟩, -⟩
    exact ⟨hne, hseparator, hplain⟩
  · rintro ⟨hne, hseparator, hplain⟩
    exact ⟨hne, hseparator, ⟨rfl, hne, hplain⟩, nofun⟩

/-- Strict naming only adds that no character is reserved. -/
theorem isValid_true_iff :
    isValid true name = true ↔ isValid false name = true ∧ ∀ c ∈ name, isReserved c = false := by
  simp only [isValid_iff, forall_const, Bool.false_eq_true, false_implies, and_true, and_assoc]

theorem isReserved_eq_false_iff {c : Char} :
    isReserved c = false ↔ c ≠ ' ' ∧ c ≠ '#' ∧ c ≠ '}' ∧ c ≠ ']' := by
  simp [isReserved, and_assoc]

/-- **As a pattern, a name is one literal**, with whatever options it is read. -/
theorem tokens_of_isValid (h : isValid false name = true) :
    (Component.ofText name).tokens = [.literal name] :=
  Component.literal?_eq_some_iff.1 (isValid_iff.1 h).2.2.1

/-- **Which texts can name a node.** If naming is not strict, these are the texts that are not
empty, have none of the characters `/`, `*` and `?`, and no opening character that is closed
somewhere behind it. If naming is strict, they are the texts that are not empty and have none of
seven characters. As a pattern, with whatever options it is read, a name accepts itself only. -/
theorem isValid_iff_characters :
    (∀ name, isValid false name = true ↔
      name ≠ [] ∧ '/' ∉ name ∧ '*' ∉ name ∧ '?' ∉ name ∧
        (∀ before after, name = before ++ '[' :: after → ']' ∉ after) ∧
        ∀ before after, name = before ++ '{' :: after → '}' ∉ after) ∧
    (∀ name, isValid true name = true ↔
      name ≠ [] ∧ ∀ c ∈ ['/', '*', '?', ' ', '#', '}', ']'], c ∉ name) ∧
    ∀ name, isValid false name = true →
      (∀ candidate, (Component.ofText name).accepts candidate = true ↔ candidate = name) ∧
      ∀ options, ∃ component, Component.ofTextWith options name = .ok component ∧
        ∀ candidate, component.accepts candidate = true ↔ candidate = name := by
  refine ⟨fun name ↦ ?_, fun name ↦ ?_, fun name hvalid ↦ ⟨fun candidate ↦ ?_, fun options ↦ ?_⟩⟩
  · rw [isValid_false_iff]
    constructor
    · rintro ⟨hne, hseparator, hstar, hquestion, hbracket, hbrace⟩
      simp only [Token.Unclosed, List.append_nil] at hbracket hbrace
      exact ⟨hne, hseparator, hstar, hquestion, hbracket, hbrace⟩
    · rintro ⟨hne, hseparator, hstar, hquestion, hbracket, hbrace⟩
      refine ⟨hne, hseparator, hstar, hquestion, ?_, ?_⟩
      · simpa only [Token.Unclosed, List.append_nil] using hbracket
      · simpa only [Token.Unclosed, List.append_nil] using hbrace
  · rw [isValid_true_iff, isValid_false_iff]
    simp only [isReserved_eq_false_iff, List.forall_mem_cons, List.not_mem_nil, false_implies,
      forall_const, and_true]
    constructor
    · rintro ⟨⟨hne, hseparator, hplain⟩, hreserved⟩
      exact ⟨hne, hseparator, hplain.star, hplain.question, fun h ↦ (hreserved _ h).1 rfl,
        fun h ↦ (hreserved _ h).2.1 rfl, fun h ↦ (hreserved _ h).2.2.1 rfl,
        fun h ↦ (hreserved _ h).2.2.2 rfl⟩
    · rintro ⟨hne, hseparator, hstar, hquestion, hspace, hhash, hbrace, hbracket⟩
      -- Nothing is closed, since there is nothing that closes.
      have hunclosed : ∀ {opening closing : Char}, closing ∉ name →
          Token.Unclosed opening closing name [] := by
        intro opening closing hclosing before after hsplit hmem
        rw [List.append_nil] at hmem
        exact hclosing (hsplit ▸ List.mem_append_right _ (List.mem_cons_of_mem _ hmem))
      refine ⟨⟨hne, hseparator, hstar, hquestion, hunclosed hbracket, hunclosed hbrace⟩,
        fun c hc ↦ ⟨?_, ?_, ?_, ?_⟩⟩ <;> (rintro rfl; contradiction)
  · rw [Component.accepts, tokens_of_isValid hvalid]
    exact decide_eq_true_iff.trans eq_comm
  · have hliteral : (Component.ofText name).isLiteral = true := by
      rw [Component.isLiteral, tokens_of_isValid hvalid]
      rfl
    obtain ⟨component, hread, haccepts⟩ := Component.exists_ofTextWith hliteral options
    exact ⟨component, hread, fun candidate ↦ by rw [haccepts, decide_eq_true_iff]⟩

/-- Closing characters before opening ones do no harm, if naming is not strict. -/
theorem isValid_iff_characters_unclosed :
    let name := ['}', 'a', ']', '{', '[']
    isValid false name = true ∧ isValid true name = false ∧
      (∀ candidate, (Component.ofText name).accepts candidate = true ↔ candidate = name) ∧
      ∃ component, Component.ofTextWith ⟨.reject, .declared⟩ name = .ok component ∧
        ∀ candidate, component.accepts candidate = true ↔ candidate = name := by
  intro name
  have hvalid : isValid false name = true := by decide +kernel
  obtain ⟨haccepts, hoptions⟩ := isValid_iff_characters.2.2 name hvalid
  exact ⟨hvalid, by decide +kernel, haccepts, hoptions ⟨.reject, .declared⟩⟩

-- The bracket closes behind the brace, though the brace does not close at all.
example : isValid false ['[', '{', ']'] = false := by decide +kernel

end Name

end OscAddressing
