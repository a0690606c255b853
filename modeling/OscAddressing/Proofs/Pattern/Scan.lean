import OscAddressing.Pattern.Scan

/-!
# What the scanner carries along

A scanner that has come somewhere has tokens, plain text that is not a token yet, and a backward
range or none. What becomes of them is told by the tokens of what is left of the segment:
`tokens_read` says that these are joined to what the scanner has (`Scanner.complete`), and
`reversed?_read` that the range is kept or, if there is none, is the first among these tokens. So
the range that is left at the end of a segment is the first backward range of its tokens
(`reversed?_through`), wherever the scanner has been in between.

Hence the tokens of a segment can be told from the right as well, where nothing has to be carried
along: `scan_star`, `scan_question`, `scan_of_leadingGroup?` and `scan_char`. A `*` and a character
of plain text may join the token that follows (`pushRun`, `pushChar`); anything else is a token of
its own. Later modules use these four equations and never look at a scanner.
-/

namespace OscAddressing.Pattern

/-! ### Joining with what follows -/

/-- Put a character of plain text before tokens. -/
def pushChar (c : Char) : List Token → List Token
  | .literal text :: tokens => .literal (c :: text) :: tokens
  | tokens => .literal [c] :: tokens

/-- Put a `*` before tokens. -/
def pushRun : List Token → List Token
  | .anyRun :: tokens => .anyRun :: tokens
  | tokens => .anyRun :: tokens

/-- A character of plain text is a literal of its own, if no literal follows. -/
theorem pushChar_of_apart {c : Char} {tokens : List Token}
    (h : ∀ next ∈ tokens.head?, next.isLiteral = false) :
    pushChar c tokens = .literal [c] :: tokens := by
  cases tokens with
  | nil => rfl
  | cons token tokens =>
    cases token with
    | literal text => exact absurd (h (.literal text) rfl) (by simp [Token.isLiteral])
    | _ => rfl

/-- A `*` is a token of its own, if no other follows. -/
theorem pushRun_of_apart {tokens : List Token} (h : tokens.head? ≠ some .anyRun) :
    pushRun tokens = .anyRun :: tokens := by
  cases tokens with
  | nil => rfl
  | cons token tokens =>
    cases token with
    | anyRun => exact absurd rfl h
    | _ => rfl

theorem head?_pushRun (tokens : List Token) : (pushRun tokens).head? = some .anyRun := by
  rw [pushRun.eq_def]
  split <;> rfl

theorem pushRun_pushRun (tokens : List Token) : pushRun (pushRun tokens) = pushRun tokens := by
  by_cases h : tokens.head? = some .anyRun
  · obtain ⟨rest, rfl⟩ := List.head?_eq_some_iff.1 h
    rfl
  · rw [pushRun_of_apart h]
    rfl

theorem exists_pushChar_eq (c : Char) (tokens : List Token) :
    ∃ text rest, pushChar c tokens = .literal text :: rest := by
  rw [pushChar.eq_def]
  split <;> exact ⟨_, _, rfl⟩

/-- Plain text is a literal of its own, if no literal follows. -/
theorem foldr_pushChar_of_apart {text : Text} {tokens : List Token} (hne : text ≠ [])
    (h : ∀ next ∈ tokens.head?, next.isLiteral = false) :
    text.foldr pushChar tokens = .literal text :: tokens := by
  induction text with
  | nil => exact absurd rfl hne
  | cons c text ih =>
    rw [List.foldr_cons]
    by_cases hnil : text = []
    · subst hnil
      exact pushChar_of_apart h
    · rw [ih hnil]
      rfl

namespace Scanner

/-- The tokens of a segment, if a scanner has come so far and what is left has these tokens. -/
def complete (scanner : Scanner) (following : List Token) : List Token :=
  if scanner.literal = [] then
    if scanner.tokens.getLast? = some .anyRun then scanner.tokens.dropLast ++ pushRun following
    else scanner.tokens ++ following
  else scanner.tokens ++ scanner.literal.foldr pushChar following

variable {scanner : Scanner} {following : List Token}

theorem complete_start (following : List Token) : complete {} following = following := rfl

theorem literal_flush (scanner : Scanner) : scanner.flush.literal = [] := by
  rw [flush]
  split
  case isTrue h => exact List.isEmpty_iff.1 h
  case isFalse => rfl

/-- What follows is just added, unless it begins with plain text or a `*`. -/
theorem complete_of_apart
    (h : ∀ next ∈ following.head?, next.isLiteral = false ∧ next ≠ .anyRun) :
    scanner.complete following = scanner.flush.tokens ++ following := by
  have hrun : following.head? ≠ some .anyRun := fun hhead ↦ (h _ hhead).2 rfl
  by_cases hliteral : scanner.literal = []
  · rw [complete, if_pos hliteral, flush, if_pos (List.isEmpty_iff.2 hliteral)]
    split
    case isTrue hlast =>
      obtain ⟨before, htokens⟩ := List.getLast?_eq_some_iff.1 hlast
      rw [htokens, List.dropLast_concat, pushRun_of_apart hrun, List.append_assoc]
      rfl
    case isFalse => rfl
  · rw [complete, if_neg hliteral, flush, if_neg (mt List.isEmpty_iff.1 hliteral),
      foldr_pushChar_of_apart hliteral fun next hnext ↦ (h next hnext).1, List.append_assoc]
    rfl

theorem complete_nil : scanner.complete [] = scanner.flush.tokens := by
  have hapart : ∀ next ∈ ([] : List Token).head?, next.isLiteral = false ∧ next ≠ .anyRun :=
    fun _ hnext ↦ absurd hnext (by simp)
  rw [complete_of_apart hapart, List.append_nil]

/-- It makes no difference when the plain text is made a token, if a `*` follows. -/
theorem complete_flush_pushRun :
    scanner.flush.complete (pushRun following) = scanner.complete (pushRun following) := by
  by_cases hliteral : scanner.literal = []
  · rw [flush, if_pos (List.isEmpty_iff.2 hliteral)]
  · have hapart : ∀ next ∈ (pushRun following).head?, next.isLiteral = false := by
      rw [head?_pushRun]
      rintro _ ⟨⟩
      rfl
    rw [flush, if_neg (mt List.isEmpty_iff.1 hliteral), complete, complete, if_pos rfl,
      if_neg hliteral, if_neg (by simp), foldr_pushChar_of_apart hliteral hapart,
      List.append_assoc]
    rfl

theorem complete_addRun :
    scanner.addRun.complete following = scanner.complete (pushRun following) := by
  have hliteral := literal_flush scanner
  rw [← complete_flush_pushRun, addRun]
  by_cases hlast : scanner.flush.tokens.getLast? = some .anyRun
  · rw [if_pos hlast, complete, complete, if_pos hliteral, if_pos hlast, if_pos hliteral,
      if_pos hlast, pushRun_pushRun]
  · rw [if_neg hlast, complete, complete, if_pos hliteral, if_pos hliteral,
      if_pos (List.getLast?_concat ..), if_neg hlast, List.dropLast_concat]

theorem complete_add {token : Token} (hliteral : token.isLiteral = false)
    (hrun : token ≠ .anyRun) :
    (scanner.add token).complete following = scanner.complete (token :: following) := by
  have hbehind : scanner.complete (token :: following) =
      scanner.flush.tokens ++ token :: following := by
    refine complete_of_apart fun next hnext ↦ ?_
    obtain rfl : token = next := Option.some.inj hnext
    exact ⟨hliteral, hrun⟩
  have hlast : ¬(scanner.flush.tokens ++ [token]).getLast? = some .anyRun := by
    rw [List.getLast?_concat]
    exact fun h ↦ hrun (Option.some.inj h)
  rw [hbehind, add, complete, if_pos (literal_flush scanner), if_neg hlast, List.append_assoc]
  rfl

theorem complete_anyChar :
    (scanner.add .anyChar).complete following = scanner.complete (.anyChar :: following) :=
  complete_add rfl nofun

theorem complete_addChar {c : Char} :
    (scanner.addChar c).complete following = scanner.complete (pushChar c following) := by
  rw [addChar, complete, if_neg (by simp), List.foldr_append, List.foldr_cons, List.foldr_nil,
    complete]
  by_cases hliteral : scanner.literal = []
  · rw [if_pos hliteral, hliteral]
    split
    case isTrue hlast =>
      obtain ⟨before, htokens⟩ := List.getLast?_eq_some_iff.1 hlast
      obtain ⟨text, rest, hpush⟩ := exists_pushChar_eq c following
      rw [htokens, hpush, List.dropLast_concat, List.append_assoc]
      rfl
    case isFalse => rfl
  · rw [if_neg hliteral]

/-! ### One step -/

variable {order : AlternativeOrder}

theorem read_nil : read order scanner [] = scanner.flush := by
  rw [read]

theorem read_star {rest : Text} :
    read order scanner ('*' :: rest) = read order scanner.addRun rest := by
  rw [read]

theorem read_question {rest : Text} :
    read order scanner ('?' :: rest) = read order (scanner.add .anyChar) rest := by
  rw [read]

theorem read_group {t after : Text} {group : Token}
    (h : leadingGroup? order t = some (group, after)) :
    read order scanner t = read order (scanner.add group) after := by
  cases t with
  | nil => simp [leadingGroup?] at h
  | cons c rest =>
    have hstar : c ≠ '*' := by rintro rfl; simp [leadingGroup?] at h
    have hquestion : c ≠ '?' := by rintro rfl; simp [leadingGroup?] at h
    rw [read]
    · split
      case h_1 group' after' h' =>
        obtain ⟨rfl, rfl⟩ := Prod.mk.inj (Option.some.inj (h.symm.trans h'))
        rfl
      case h_2 h' => exact absurd (h.symm.trans h') (by simp)
    · exact hstar
    · exact hquestion

theorem read_char {c : Char} {rest : Text} (hstar : c ≠ '*') (hquestion : c ≠ '?')
    (h : leadingGroup? order (c :: rest) = none) :
    read order scanner (c :: rest) = read order (scanner.addChar c) rest := by
  rw [read]
  · split
    case h_1 h' => exact absurd (h.symm.trans h') (by simp)
    case h_2 => rfl
  · exact hstar
  · exact hquestion

end Scanner

/-! ### The whole segment -/

/-- A group is neither plain text nor a `*`. -/
theorem apart_of_leadingGroup? {order : AlternativeOrder} {t after : Text} {group : Token}
    (h : leadingGroup? order t = some (group, after)) :
    group.isLiteral = false ∧ group ≠ .anyRun := by
  rw [leadingGroup?.eq_def] at h
  split at h
  case h_1 rest =>
    obtain ⟨⟨content, _⟩, -, heq⟩ := Option.map_eq_some_iff.1 h
    obtain ⟨rfl, -⟩ := Prod.mk.inj heq
    rw [charSetOf.eq_def]
    split <;> exact ⟨rfl, nofun⟩
  case h_2 rest =>
    obtain ⟨_, -, heq⟩ := Option.map_eq_some_iff.1 h
    obtain ⟨rfl, -⟩ := Prod.mk.inj heq
    exact ⟨rfl, nofun⟩
  case h_3 => simp at h

/-- **Induction along a segment**, part by part as the scanner goes. -/
@[elab_as_elim]
theorem segment_induction (order : AlternativeOrder) {P : Text → Prop} (nil : P [])
    (star : ∀ rest, P rest → P ('*' :: rest)) (question : ∀ rest, P rest → P ('?' :: rest))
    (group : ∀ t group after, leadingGroup? order t = some (group, after) → P after → P t)
    (char : ∀ c rest, c ≠ '*' → c ≠ '?' → leadingGroup? order (c :: rest) = none → P rest →
      P (c :: rest)) (segment : Text) : P segment := by
  fun_induction Scanner.read order {} segment with
  | case1 => exact nil
  | case2 _ rest ih => exact star rest ih
  | case3 _ rest ih => exact question rest ih
  | case4 _ c rest _ _ token after hgroup ih => exact group _ token after hgroup ih
  | case5 _ c rest hstar hquestion hgroup ih => exact char c rest hstar hquestion hgroup ih

/-- **What a scanner has at the end** are its tokens, joined with those of what was left. -/
theorem tokens_read (order : AlternativeOrder) (segment : Text) (scanner : Scanner) :
    (scanner.read order segment).tokens = scanner.complete (scan order segment) := by
  -- The tokens of what is left are the same for every scanner, so they are those of a fresh one.
  have hexists : ∃ tokens, ∀ scanner : Scanner,
      (scanner.read order segment).tokens = scanner.complete tokens := by
    induction segment using segment_induction order with
    | nil => exact ⟨[], fun scanner ↦ by rw [Scanner.read_nil, Scanner.complete_nil]⟩
    | star rest ih =>
      obtain ⟨tokens, ih⟩ := ih
      exact ⟨pushRun tokens, fun scanner ↦ by rw [Scanner.read_star, ih, Scanner.complete_addRun]⟩
    | question rest ih =>
      obtain ⟨tokens, ih⟩ := ih
      exact ⟨.anyChar :: tokens, fun scanner ↦ by
        rw [Scanner.read_question, ih, Scanner.complete_anyChar]⟩
    | group t group after hgroup ih =>
      obtain ⟨tokens, ih⟩ := ih
      obtain ⟨hliteral, hrun⟩ := apart_of_leadingGroup? hgroup
      exact ⟨group :: tokens, fun scanner ↦ by
        rw [Scanner.read_group hgroup, ih, Scanner.complete_add hliteral hrun]⟩
    | char c rest hstar hquestion hgroup ih =>
      obtain ⟨tokens, ih⟩ := ih
      exact ⟨pushChar c tokens, fun scanner ↦ by
        rw [Scanner.read_char hstar hquestion hgroup, ih, Scanner.complete_addChar]⟩
  obtain ⟨tokens, htokens⟩ := hexists
  rw [scan, Scanner.through, htokens, htokens, Scanner.complete_start]

@[simp] theorem scan_nil (order : AlternativeOrder) : scan order [] = [] := by
  rw [scan, Scanner.through, Scanner.read_nil]
  rfl

@[simp] theorem scan_star (order : AlternativeOrder) (rest : Text) :
    scan order ('*' :: rest) = pushRun (scan order rest) := by
  rw [scan, Scanner.through, Scanner.read_star, tokens_read, Scanner.complete_addRun,
    Scanner.complete_start]

@[simp] theorem scan_question (order : AlternativeOrder) (rest : Text) :
    scan order ('?' :: rest) = .anyChar :: scan order rest := by
  rw [scan, Scanner.through, Scanner.read_question, tokens_read, Scanner.complete_anyChar,
    Scanner.complete_start]

/-- **A group is one token.** -/
theorem scan_of_leadingGroup? {order : AlternativeOrder} {t after : Text} {group : Token}
    (h : leadingGroup? order t = some (group, after)) :
    scan order t = group :: scan order after := by
  obtain ⟨hliteral, hrun⟩ := apart_of_leadingGroup? h
  rw [scan, Scanner.through, Scanner.read_group h, tokens_read, Scanner.complete_add hliteral hrun,
    Scanner.complete_start]

/-- **Any other character is plain text.** -/
theorem scan_char {order : AlternativeOrder} {c : Char} {rest : Text} (hstar : c ≠ '*')
    (hquestion : c ≠ '?') (h : leadingGroup? order (c :: rest) = none) :
    scan order (c :: rest) = pushChar c (scan order rest) := by
  rw [scan, Scanner.through, Scanner.read_char hstar hquestion h, tokens_read,
    Scanner.complete_addChar, Scanner.complete_start]

/-! ### The first backward range -/

/-- The first backward range among tokens, from left to right. -/
def firstReversed? (tokens : List Token) : Option (Char × Char) :=
  tokens.findSome? Token.reversed?

theorem firstReversed?_cons (token : Token) (tokens : List Token) :
    firstReversed? (token :: tokens) = token.reversed?.or (firstReversed? tokens) := by
  rw [firstReversed?, List.findSome?_cons]
  cases token.reversed? <;> rfl

theorem firstReversed?_pushRun (tokens : List Token) :
    firstReversed? (pushRun tokens) = firstReversed? tokens := by
  rw [pushRun.eq_def]
  split <;> rfl

theorem firstReversed?_pushChar (c : Char) (tokens : List Token) :
    firstReversed? (pushChar c tokens) = firstReversed? tokens := by
  rw [pushChar.eq_def]
  split <;> rfl

namespace Scanner

variable {scanner : Scanner}

theorem reversed?_flush : scanner.flush.reversed? = scanner.reversed? := by
  rw [flush]
  split <;> rfl

theorem reversed?_addRun : scanner.addRun.reversed? = scanner.reversed? := by
  rw [addRun]
  split <;> exact reversed?_flush

theorem reversed?_add (token : Token) :
    (scanner.add token).reversed? = scanner.reversed?.or token.reversed? := by
  rw [add, reversed?_flush]

end Scanner

/-- **The backward range that a scanner has at the end** is the one that it had, or else the first
among the tokens of what was left. -/
theorem reversed?_read (order : AlternativeOrder) (segment : Text) (scanner : Scanner) :
    (scanner.read order segment).reversed? =
      scanner.reversed?.or (firstReversed? (scan order segment)) := by
  induction segment using segment_induction order generalizing scanner with
  | nil =>
    rw [Scanner.read_nil, Scanner.reversed?_flush, scan_nil]
    exact (Option.or_none ..).symm
  | star rest ih =>
    rw [Scanner.read_star, ih, Scanner.reversed?_addRun, scan_star, firstReversed?_pushRun]
  | question rest ih =>
    rw [Scanner.read_question, ih, Scanner.reversed?_add, scan_question, firstReversed?_cons,
      Option.or_assoc]
  | group t group after hgroup ih =>
    rw [Scanner.read_group hgroup, ih, Scanner.reversed?_add, scan_of_leadingGroup? hgroup,
      firstReversed?_cons, Option.or_assoc]
  | char c rest hstar hquestion hgroup ih =>
    rw [Scanner.read_char hstar hquestion hgroup, ih, scan_char hstar hquestion hgroup,
      firstReversed?_pushChar]
    rfl

/-- **The backward range that is left at the end of a segment** is the first among its tokens. -/
theorem reversed?_through (order : AlternativeOrder) (segment : Text) :
    (Scanner.through order segment).reversed? = firstReversed? (scan order segment) := by
  rw [Scanner.through, reversed?_read, Option.none_or]

end OscAddressing.Pattern
