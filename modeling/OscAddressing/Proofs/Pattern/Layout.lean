import OscAddressing.Pattern.Component
import OscAddressing.Proofs.Pattern.Groups
import OscAddressing.Proofs.Pattern.Scan

/-!
# The text of a segment, token by token

A token list is a reading of a segment when the segment can be cut into slices, one for each token,
such that every token is written as its slice (`Token.Written`) and neighbours could not have been
joined (`Token.Apart`). How plain text is written depends on what follows it: an opening character
in it has no closing one behind it, to the end of the segment.

A segment has exactly one reading, and the scanner finds it: `exists_laidOut` says that its tokens
are one, and `LaidOut.scan_flatten` that any other is the same. The first goes along the recursion
of the scanner, the second along the slices; where the two meet is the group at the front of a text
(`leadingGroup?_eq_some_iff`).
-/

namespace OscAddressing

open Pattern

variable {order : AlternativeOrder}

namespace Token

/-! ### How a token is written -/

/-- No opening character in `text` has a closing one behind it, if `text` goes on with `rest`. -/
def Unclosed (opening closing : Char) (text rest : Text) : Prop :=
  ∀ before after, text = before ++ opening :: after → closing ∉ after ++ rest

theorem unclosed_cons_iff {opening closing c : Char} {text rest : Text} :
    Unclosed opening closing (c :: text) rest ↔
      (c = opening → closing ∉ text ++ rest) ∧ Unclosed opening closing text rest := by
  constructor
  · intro h
    refine ⟨?_, fun before after hsplit ↦ h (c :: before) after (by rw [hsplit, List.cons_append])⟩
    rintro rfl
    exact h [] text rfl
  · rintro ⟨hfirst, h⟩ before after hsplit
    cases before with
    | nil =>
      obtain ⟨rfl, rfl⟩ := List.cons.inj hsplit
      exact hfirst rfl
    | cons d before => exact h before after (List.cons.inj hsplit).2

/-- `text` is read as plain text, if it goes on with `rest`. -/
structure PlainText (text rest : Text) : Prop where
  star : '*' ∉ text
  question : '?' ∉ text
  bracket : Unclosed '[' ']' text rest
  brace : Unclosed '{' '}' text rest

theorem plainText_nil (rest : Text) : PlainText [] rest :=
  ⟨List.not_mem_nil, List.not_mem_nil, fun _ _ h ↦ by simp at h, fun _ _ h ↦ by simp at h⟩

/-- **Plain text can be told character by character**: the scanner does not take the first one for
anything else, and the others are plain text. -/
theorem plainText_cons_iff {c : Char} {text rest : Text} :
    PlainText (c :: text) rest ↔
      c ≠ '*' ∧ c ≠ '?' ∧ leadingGroup? order (c :: (text ++ rest)) = none ∧
        PlainText text rest := by
  rw [leadingGroup?_eq_none_iff]
  constructor
  · rintro ⟨hstar, hquestion, hbracket, hbrace⟩
    rw [List.mem_cons, not_or] at hstar hquestion
    rw [unclosed_cons_iff] at hbracket hbrace
    exact ⟨Ne.symm hstar.1, Ne.symm hquestion.1, ⟨hbracket.1, hbrace.1⟩,
      hstar.2, hquestion.2, hbracket.2, hbrace.2⟩
  · rintro ⟨hstar, hquestion, ⟨hbracket, hbrace⟩, h⟩
    refine ⟨?_, ?_, unclosed_cons_iff.2 ⟨hbracket, h.bracket⟩,
      unclosed_cons_iff.2 ⟨hbrace, h.brace⟩⟩
    · exact List.not_mem_cons_of_ne_of_not_mem (Ne.symm hstar) h.star
    · exact List.not_mem_cons_of_ne_of_not_mem (Ne.symm hquestion) h.question

/-- **How a token is written**: `slice` is its text, in a segment that goes on with `rest`. -/
def Written (order : AlternativeOrder) (slice rest : Text) : Token → Prop
  | literal text => slice = text ∧ text ≠ [] ∧ PlainText text rest
  | anyRun => slice ≠ [] ∧ ∀ c ∈ slice, c = '*'
  | anyChar => slice = ['?']
  | charSet exclusion groups =>
    ∃ content, slice = '[' :: ((if exclusion then ['!'] else []) ++ content ++ [']']) ∧
      ']' ∉ content ∧ (exclusion = false → content.head? ≠ some '!') ∧
      groups.flatMap CharGroup.render = content ∧ CharGroup.Spread groups
  | oneOf alternatives =>
    ∃ content, slice = '{' :: (content ++ ['}']) ∧ '}' ∉ content ∧
      ∃ pieces distinct, pieces ≠ [] ∧ (∀ piece ∈ pieces, ',' ∉ piece) ∧
        [','].intercalate pieces = content ∧ Firsts pieces distinct ∧
        Tried distinct alternatives order

/-- **Tokens that may be neighbours**: two of plain text would be one, and so would two `*`. -/
def Apart (token next : Token) : Prop :=
  (token.isLiteral = true → next.isLiteral = false) ∧ (token = anyRun → next ≠ anyRun)

/-- Is the token written between brackets or braces? -/
def isGroup : Token → Bool
  | charSet _ _ => true
  | oneOf _ => true
  | _ => false

theorem apart_of_isGroup {group next : Token} (h : group.isGroup = true) : group.Apart next := by
  cases group <;> simp_all [isGroup, Apart, isLiteral]

end Token

namespace Pattern

open Token

/-- **A reading of a segment**: slices of it, one for each token. -/
inductive LaidOut (order : AlternativeOrder) : List Token → List Text → Prop
  | nil : LaidOut order [] []
  | cons {token : Token} {tokens : List Token} {slice : Text} {slices : List Text} :
      token.Written order slice slices.flatten → (∀ next ∈ tokens.head?, token.Apart next) →
        LaidOut order tokens slices → LaidOut order (token :: tokens) (slice :: slices)

/-! ### Groups -/

/-- A text has a given part up to the first closing character and a given part behind it. -/
theorem cut?_append {closing : Char} {content after : Text} (h : closing ∉ content) :
    Text.cut? closing (content ++ [closing] ++ after) = some (content, after) := by
  rw [Text.cut?_eq_some_iff, List.append_assoc]
  exact ⟨rfl, h⟩

/-- **The group at the front of a text** is the one that is written there. -/
theorem leadingGroup?_eq_some_iff {t after : Text} {group : Token} :
    leadingGroup? order t = some (group, after) ↔
      group.isGroup = true ∧ ∃ slice, t = slice ++ after ∧ group.Written order slice after := by
  constructor
  · intro h
    rw [leadingGroup?.eq_def] at h
    split at h
    case h_1 rest =>
      obtain ⟨⟨written, after'⟩, hcut, heq⟩ := Option.map_eq_some_iff.1 h
      obtain ⟨rfl, rfl⟩ := Prod.mk.inj heq
      obtain ⟨rfl, hclosing⟩ := Text.cut?_eq_some_iff.1 hcut
      obtain ⟨exclusion, groups, htoken⟩ := exists_charSetOf written
      obtain ⟨content, rfl, hmark, hcontent⟩ := charSetOf_eq_iff.1 htoken
      rw [htoken]
      refine ⟨rfl, '[' :: ((if exclusion then ['!'] else []) ++ content ++ [']']), by simp,
        content, rfl, ?_, hmark, hcontent⟩
      exact fun hmem ↦ hclosing (List.mem_append_right _ hmem)
    case h_2 rest =>
      obtain ⟨⟨content, after'⟩, hcut, heq⟩ := Option.map_eq_some_iff.1 h
      obtain ⟨rfl, rfl⟩ := Prod.mk.inj heq
      obtain ⟨rfl, hclosing⟩ := Text.cut?_eq_some_iff.1 hcut
      refine ⟨rfl, '{' :: (content ++ ['}']), by simp, content, rfl, hclosing, ?_⟩
      exact alternativesOf_eq_iff.1 rfl
    case h_3 => simp at h
  · rintro ⟨hgroup, slice, rfl, hwritten⟩
    cases group with
    | charSet exclusion groups =>
      obtain ⟨content, rfl, hclosing, hmark, hcontent⟩ := hwritten
      have hwhole : ']' ∉ (if exclusion then ['!'] else []) ++ content := by
        cases exclusion <;> simpa using hclosing
      rw [List.cons_append, leadingGroup?, cut?_append hwhole, Option.map_some]
      exact congrArg (fun token ↦ some (token, after))
        (charSetOf_eq_iff.2 ⟨content, rfl, hmark, hcontent⟩)
    | oneOf alternatives =>
      obtain ⟨content, rfl, hclosing, hcontent⟩ := hwritten
      rw [List.cons_append, leadingGroup?, cut?_append hclosing, Option.map_some]
      exact congrArg (fun alternatives ↦ some (oneOf alternatives, after))
        (alternativesOf_eq_iff.2 hcontent)
    | literal text => simp [isGroup] at hgroup
    | anyRun => simp [isGroup] at hgroup
    | anyChar => simp [isGroup] at hgroup

/-! ### The tokens of a segment are a reading of it -/

theorem LaidOut.pushChar {c : Char} {tokens : List Token} {slices : List Text}
    (h : LaidOut order tokens slices) (hstar : c ≠ '*') (hquestion : c ≠ '?')
    (hgroup : leadingGroup? order (c :: slices.flatten) = none) :
    ∃ slices', slices'.flatten = c :: slices.flatten ∧
      LaidOut order (Pattern.pushChar c tokens) slices' := by
  by_cases hnext : ∀ next ∈ tokens.head?, next.isLiteral = false
  · have hplain : PlainText [c] slices.flatten :=
      plainText_cons_iff.2 ⟨hstar, hquestion, hgroup, plainText_nil _⟩
    rw [pushChar_of_apart hnext]
    exact ⟨[c] :: slices, rfl, .cons ⟨rfl, List.cons_ne_nil _ _, hplain⟩
      (fun next hmem ↦ ⟨fun _ ↦ hnext next hmem, nofun⟩) h⟩
  · -- The literal that follows gets the character, and its slice does.
    cases h with
    | nil => exact absurd (fun _ h ↦ nomatch h) hnext
    | @cons token tokens slice slices hwritten hnext' h =>
      cases token with
      | literal text =>
        obtain ⟨rfl, -, hplain⟩ := hwritten
        have hplain' : PlainText (c :: slice) slices.flatten :=
          plainText_cons_iff.2 ⟨hstar, hquestion, hgroup, hplain⟩
        exact ⟨(c :: slice) :: slices, rfl, .cons ⟨rfl, List.cons_ne_nil _ _, hplain'⟩
          (fun next hmem ↦ ⟨fun _ ↦ (hnext' next hmem).1 rfl, nofun⟩) h⟩
      | _ => exact absurd (by simp [isLiteral]) hnext

theorem LaidOut.pushRun {tokens : List Token} {slices : List Text}
    (h : LaidOut order tokens slices) :
    ∃ slices', slices'.flatten = '*' :: slices.flatten ∧
      LaidOut order (Pattern.pushRun tokens) slices' := by
  by_cases hnext : tokens.head? = some .anyRun
  · -- The run that follows gets longer.
    cases h with
    | nil => simp at hnext
    | @cons token tokens slice slices hwritten hnext' h =>
      obtain rfl : token = .anyRun := Option.some.inj hnext
      exact ⟨('*' :: slice) :: slices, rfl,
        .cons ⟨List.cons_ne_nil _ _, List.forall_mem_cons.2 ⟨rfl, hwritten.2⟩⟩ hnext' h⟩
  · rw [pushRun_of_apart hnext]
    refine ⟨['*'] :: slices, rfl, .cons ⟨List.cons_ne_nil _ _, by simp⟩ ?_ h⟩
    rintro next hmem
    exact ⟨nofun, fun _ heq ↦ hnext (heq ▸ hmem)⟩

/-- **The tokens of a segment are a reading of it.** -/
theorem exists_laidOut (order : AlternativeOrder) (segment : Text) :
    ∃ slices, slices.flatten = segment ∧ LaidOut order (scan order segment) slices := by
  induction segment using segment_induction order with
  | nil => exact ⟨[], rfl, scan_nil order ▸ .nil⟩
  | star rest ih =>
    obtain ⟨slices, rfl, h⟩ := ih
    rw [scan_star]
    exact h.pushRun
  | question rest ih =>
    obtain ⟨slices, rfl, h⟩ := ih
    rw [scan_question]
    exact ⟨['?'] :: slices, rfl, .cons rfl (fun _ _ ↦ ⟨nofun, nofun⟩) h⟩
  | group t group after hgroup ih =>
    obtain ⟨slices, rfl, h⟩ := ih
    obtain ⟨hkind, slice, hslice, hwritten⟩ := leadingGroup?_eq_some_iff.1 hgroup
    rw [scan_of_leadingGroup? hgroup]
    exact ⟨slice :: slices, hslice.symm,
      .cons hwritten (fun _ _ ↦ apart_of_isGroup hkind) h⟩
  | char c rest hstar hquestion hgroup ih =>
    obtain ⟨slices, rfl, h⟩ := ih
    rw [scan_char hstar hquestion hgroup]
    exact h.pushChar hstar hquestion hgroup

/-! ### A segment has no other reading -/

/-- **Plain text is read as one literal**, unless another follows. -/
theorem scan_plainText {text rest : Text} (hne : text ≠ []) (h : PlainText text rest)
    (hnext : ∀ next ∈ (scan order rest).head?, next.isLiteral = false) :
    scan order (text ++ rest) = .literal text :: scan order rest := by
  induction text with
  | nil => exact absurd rfl hne
  | cons c text ih =>
    obtain ⟨hstar, hquestion, hgroup, h⟩ := plainText_cons_iff.1 h
    rw [List.cons_append, scan_char hstar hquestion hgroup]
    by_cases hnil : text = []
    · subst hnil
      rw [List.nil_append, pushChar_of_apart hnext]
    · rw [ih hnil h]
      rfl

theorem scan_run {run rest : Text} (hne : run ≠ []) (h : ∀ c ∈ run, c = '*')
    (hnext : (scan order rest).head? ≠ some .anyRun) :
    scan order (run ++ rest) = .anyRun :: scan order rest := by
  induction run with
  | nil => exact absurd rfl hne
  | cons c run ih =>
    obtain ⟨rfl, hrun⟩ := List.forall_mem_cons.1 h
    rw [List.cons_append, scan_star]
    by_cases hnil : run = []
    · subst hnil
      rw [List.nil_append, pushRun_of_apart hnext]
    · rw [ih hnil hrun]
      rfl

/-- **Any reading of a segment is the one that the scanner finds.** -/
theorem LaidOut.scan_flatten {tokens : List Token} {slices : List Text}
    (h : LaidOut order tokens slices) : scan order slices.flatten = tokens := by
  induction h with
  | nil => exact scan_nil order
  | @cons token tokens slice slices hwritten hnext _ ih =>
    rw [List.flatten_cons]
    cases token with
    | literal text =>
      obtain ⟨rfl, hne, hplain⟩ := hwritten
      rw [scan_plainText hne hplain (by rw [ih]; exact fun next hmem ↦ (hnext next hmem).1 rfl), ih]
    | anyRun =>
      rw [scan_run hwritten.1 hwritten.2 (by rw [ih]; exact fun hmem ↦ (hnext _ hmem).2 rfl rfl),
        ih]
    | anyChar =>
      obtain rfl : slice = ['?'] := hwritten
      show scan order ('?' :: slices.flatten) = _
      rw [scan_question, ih]
    | charSet exclusion groups =>
      rw [scan_of_leadingGroup? (leadingGroup?_eq_some_iff.2 ⟨rfl, slice, rfl, hwritten⟩), ih]
    | oneOf alternatives =>
      rw [scan_of_leadingGroup? (leadingGroup?_eq_some_iff.2 ⟨rfl, slice, rfl, hwritten⟩), ih]

/-! ### Segments without pattern syntax -/

/-- **One literal is read from plain text only**, and it is the whole segment. -/
theorem scan_eq_literal_iff {segment text : Text} :
    scan order segment = [.literal text] ↔ segment = text ∧ text ≠ [] ∧ PlainText text [] := by
  constructor
  · intro h
    obtain ⟨slices, rfl, hlaid⟩ := exists_laidOut order segment
    rw [h] at hlaid
    obtain @⟨⟩ | @⟨_, _, slice, _, ⟨rfl, hne, hplain⟩, _, ⟨⟩⟩ := hlaid
    exact ⟨List.append_nil slice, hne, hplain⟩
  · rintro ⟨rfl, hne, hplain⟩
    have hscan : scan order (segment ++ []) = .literal segment :: scan order [] :=
      scan_plainText hne hplain (by simp)
    rwa [List.append_nil, scan_nil] at hscan

/-- **A segment without pattern syntax** is empty or one literal. -/
theorem scan_of_all_isLiteral {segment : Text}
    (h : (scan order segment).all Token.isLiteral = true) :
    segment = [] ∨ scan order segment = [.literal segment] := by
  obtain ⟨slices, rfl, hlaid⟩ := exists_laidOut order segment
  generalize scan order slices.flatten = tokens at h hlaid
  cases hlaid with
  | nil => exact .inl rfl
  | @cons token tokens slice slices hwritten hnext hlaid =>
    rw [List.all_cons, Bool.and_eq_true] at h
    cases token with
    | literal text =>
      -- A second token would be a literal too.
      cases hlaid with
      | nil =>
        obtain ⟨rfl, -⟩ := hwritten
        exact .inr (by simp)
      | @cons next tokens _ _ _ _ _ =>
        have hliteral := (hnext next rfl).1 rfl
        simp [hliteral] at h
    | _ => exact absurd h.1 Bool.false_ne_true

/-- Reading a segment with options is scanning it, unless a backward range is refused. -/
theorem eq_of_ofTextWith {options : PatternOptions} {segment : Text} {component : Component}
    (h : Component.ofTextWith options segment = .ok component) :
    component = ⟨segment, scan options.alternativeOrder segment⟩ := by
  rw [Component.ofTextWith] at h
  split at h
  · exact absurd h (by simp)
  · exact (Except.ok.inj h).symm

/-- **The tokens of a segment are its text, slice by slice**, in either order of alternatives. The
slices make up the segment, each is how its token is written, with nothing in plain text that could
have been read otherwise, and no two neighbours could have been one. No other token list has such
slices. The tokens of a component are those of its segment, in the order that the options say. -/
theorem laidOut_segment (segment : Text) :
    (∀ order, ∃ slices, slices.flatten = segment ∧ LaidOut order (scan order segment) slices) ∧
      (∀ order tokens slices, LaidOut order tokens slices → slices.flatten = segment →
        tokens = scan order segment) ∧
      Component.ofText segment = ⟨segment, scan .longest segment⟩ ∧
      ∀ options component, Component.ofTextWith options segment = .ok component →
        component = ⟨segment, scan options.alternativeOrder segment⟩ := by
  refine ⟨fun order ↦ exists_laidOut order segment, ?_, rfl, fun _ _ ↦ eq_of_ofTextWith⟩
  rintro order tokens slices h rfl
  exact h.scan_flatten.symm

-- The bracket closes before the brace does, so the brace stands for itself on both sides.
example : scan .declared ['[', 'a', '-', 'c', '{', ']', 'd', '}', '*', '*', '{', 'e', ',', ',', 'e',
    '}'] = [.charSet false [.range 'a' 'c', .single '{'], .literal ['d', '}'], .anyRun,
      .oneOf [['e'], []]] := by
  decide +kernel

end Pattern

end OscAddressing
