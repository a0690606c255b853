import Mathlib.Data.List.Nodup
import OscAddressing.Proofs.Pattern.Layout

/-!
# The normal form of a segment

Written out again, the tokens of a segment give a text with every run of `*` shortened to one, no
alternative repeated and the alternatives in the order in which they are tried. Reading this text
gives the same tokens: `normalForm_segment`. So it is a normal form, and it matches the same names.

That the shorter text is read in the same way is not seen from the scanner. It is seen from the
slices of a reading (`LaidOut.render`): writing a token out again takes the place of its slice. A
written token has no character but commas that its slice did not have (`Written.mem_of_mem_render`),
so what was plain text, because nothing behind it closed a group, still is.
-/

namespace OscAddressing

open Pattern Token

variable {order : AlternativeOrder}

/-! ### Alternatives that are written again -/

namespace Pattern

/-- What is kept of a list are its elements, each once. -/
theorem Firsts.nodup {pieces distinct : List Text} (h : Firsts pieces distinct) :
    distinct.Nodup ∧ ∀ piece, piece ∈ distinct ↔ piece ∈ pieces := by
  induction h with
  | nil => exact ⟨.nil, fun _ ↦ .rfl⟩
  | repeated _ hmem ih =>
    refine ⟨ih.1, fun piece ↦ ?_⟩
    rw [ih.2, List.mem_append, List.mem_singleton]
    exact ⟨.inl, Or.rec id fun heq ↦ heq ▸ hmem⟩
  | kept _ hmem ih =>
    refine ⟨?_, fun piece ↦ by rw [List.mem_append, List.mem_append, ih.2]⟩
    rw [List.nodup_middle, List.append_nil, List.nodup_cons, ih.2]
    exact ⟨hmem, ih.1⟩

/-- Of a list without repetitions everything is kept. -/
theorem firsts_self {pieces : List Text} (h : pieces.Nodup) : Firsts pieces pieces := by
  induction pieces using List.reverseRecOn with
  | nil => exact .nil
  | append_singleton pieces piece ih =>
    rw [List.nodup_middle, List.append_nil, List.nodup_cons] at h
    exact .kept (ih h.2) h.1

/-- The order in which alternatives are tried has all of them. -/
theorem Tried.perm {given tried : List Text} (h : Tried given tried order) :
    List.Perm tried given := by
  cases order with
  | declared => exact .of_eq h
  | longest => exact longestFirst_iff.1 h ▸ List.mergeSort_perm _ _

/-- Alternatives in the order in which they are tried stay in this order. -/
theorem Tried.self {given tried : List Text} (h : Tried given tried order) :
    Tried tried tried order := by
  cases order with
  | declared => rfl
  | longest => exact ⟨h.descending, fun _ ↦ rfl⟩

end Pattern

namespace Token

/-! ### Tokens that are written again -/

/-- What writes a character set is its text. -/
theorem render_charSet (exclusion : Bool) (groups : List CharGroup) :
    (charSet exclusion groups).render = '[' :: ((if exclusion then ['!'] else []) ++
      groups.flatMap CharGroup.render ++ [']']) := by
  simp [render]

theorem render_oneOf (alternatives : List Text) :
    (oneOf alternatives).render = '{' :: ([','].intercalate alternatives ++ ['}']) := rfl

/-- The texts between braces are those that are tried. -/
theorem mem_of_mem_alternatives {pieces distinct alternatives : List Text}
    (hfirsts : Firsts pieces distinct) (htried : Tried distinct alternatives order) {t : Text} :
    t ∈ alternatives ↔ t ∈ pieces :=
  htried.perm.mem_iff.trans (hfirsts.nodup.2 t)

/-- **A token that is written out again has the characters of its slice**, commas apart. -/
theorem Written.mem_of_mem_render {token : Token} {slice rest : Text}
    (h : token.Written order slice rest) {c : Char} (hcomma : c ≠ ',') (hc : c ∈ token.render) :
    c ∈ slice := by
  cases token with
  | literal text =>
    obtain ⟨rfl, -⟩ := h
    exact hc
  | anyRun =>
    obtain ⟨first, run, rfl⟩ := List.exists_cons_of_ne_nil h.1
    obtain rfl := List.mem_singleton.1 hc
    rw [h.2 first (List.mem_cons_self ..)]
    exact List.mem_cons_self ..
  | anyChar =>
    obtain rfl : slice = ['?'] := h
    exact hc
  | charSet exclusion groups =>
    obtain ⟨content, rfl, -, -, rfl, -⟩ := h
    rwa [render_charSet] at hc
  | oneOf alternatives =>
    obtain ⟨content, rfl, -, pieces, distinct, -, -, rfl, hfirsts, htried⟩ := h
    rw [render_oneOf, List.mem_cons, List.mem_append] at hc
    rw [List.mem_cons, List.mem_append]
    refine hc.imp_right (Or.imp_left fun hc ↦ ?_)
    obtain ⟨t, ht, hc⟩ := (Text.mem_intercalate hc).resolve_left hcomma
    exact Text.mem_intercalate_of_mem ((mem_of_mem_alternatives hfirsts htried).1 ht) hc

/-- Nothing that was not closed gets closed when fewer closing characters follow. -/
theorem Unclosed.mono {opening closing : Char} {text rest rest' : Text}
    (h : Unclosed opening closing text rest) (hrest : closing ∈ rest' → closing ∈ rest) :
    Unclosed opening closing text rest' := by
  intro before after hsplit hmem
  refine h before after hsplit ?_
  rw [List.mem_append] at hmem ⊢
  exact hmem.imp_right hrest

theorem PlainText.mono {text rest rest' : Text} (h : PlainText text rest)
    (hrest : ∀ c ≠ ',', c ∈ rest' → c ∈ rest) : PlainText text rest' where
  star := h.star
  question := h.question
  bracket := h.bracket.mono (hrest ']' (by decide))
  brace := h.brace.mono (hrest '}' (by decide))

/-- **What is written out again is a way to write the token**, also if what follows has lost
characters. -/
theorem Written.render {token : Token} {slice rest rest' : Text}
    (h : token.Written order slice rest) (hrest : ∀ c ≠ ',', c ∈ rest' → c ∈ rest) :
    token.Written order token.render rest' := by
  cases token with
  | literal text => exact ⟨rfl, h.2.1, h.2.2.mono hrest⟩
  | anyRun => exact ⟨List.cons_ne_nil _ _, List.forall_mem_singleton.2 rfl⟩
  | anyChar => rfl
  | charSet exclusion groups =>
    obtain ⟨content, -, hclosing, hmark, rfl, hspread⟩ := h
    exact ⟨_, render_charSet exclusion groups, hclosing, hmark, rfl, hspread⟩
  | oneOf alternatives =>
    obtain ⟨content, -, hclosing, pieces, distinct, hne, hcomma, rfl, hfirsts, htried⟩ := h
    have hmem : ∀ t, t ∈ alternatives ↔ t ∈ pieces :=
      fun t ↦ mem_of_mem_alternatives hfirsts htried
    have hnodup : alternatives.Nodup := htried.perm.nodup_iff.2 hfirsts.nodup.1
    refine ⟨_, render_oneOf alternatives, fun hc ↦ hclosing ?_, alternatives, alternatives, ?_,
      fun t ht ↦ hcomma t ((hmem t).1 ht), rfl, firsts_self hnodup, htried.self⟩
    · obtain ⟨t, ht, hc⟩ := (Text.mem_intercalate hc).resolve_left (by decide)
      exact Text.mem_intercalate_of_mem ((hmem t).1 ht) hc
    · obtain ⟨t, ht⟩ := List.exists_mem_of_ne_nil pieces hne
      exact List.ne_nil_of_mem ((hmem t).2 ht)

/-- **The slice of a token has nothing to spare**: it is no run of two or more `*`, and it repeats
no alternative. -/
def Terse (slice : Text) : Token → Prop
  | anyRun => slice.length < 2
  | oneOf _ => ∀ content, slice = '{' :: (content ++ ['}']) → (content.splitOn ',').Nodup
  | _ => True

/-- **A token whose slice has nothing to spare is written as its slice**, with alternatives in the
order written. -/
theorem Written.render_eq {token : Token} {slice rest : Text}
    (h : token.Written .declared slice rest) (hterse : token.Terse slice) :
    token.render = slice := by
  cases token with
  | literal text => exact h.1.symm
  | anyRun =>
    obtain ⟨first, run, rfl⟩ := List.exists_cons_of_ne_nil h.1
    have hlength : run.length + 1 < 2 := hterse
    obtain rfl : run = [] := List.eq_nil_of_length_eq_zero (by omega)
    exact congrArg (fun c ↦ [c]) (h.2 first (List.mem_singleton_self _)).symm
  | anyChar => exact h.symm
  | charSet exclusion groups =>
    obtain ⟨content, rfl, -, -, rfl, -⟩ := h
    exact render_charSet exclusion groups
  | oneOf alternatives =>
    obtain ⟨content, rfl, -, pieces, distinct, hne, hcomma, rfl, hfirsts, htried⟩ := h
    obtain rfl : alternatives = distinct := htried
    have hnodup := hterse _ rfl
    rw [Text.splitOn_eq_iff.2 ⟨hne, hcomma, rfl⟩] at hnodup
    obtain rfl : pieces = alternatives :=
      (firsts_iff.1 (firsts_self hnodup)).symm.trans (firsts_iff.1 hfirsts)
    exact render_oneOf pieces

end Token

namespace Pattern

/-! ### Segments that are written again -/

/-- The text of tokens. -/
def render (tokens : List Token) : Text := tokens.flatMap Token.render

theorem flatten_map_render (tokens : List Token) :
    (tokens.map Token.render).flatten = render tokens :=
  List.flatMap_def.symm

/-- Tokens that are written out again have the characters of their slices, commas apart. -/
theorem LaidOut.mem_of_mem_render {tokens : List Token} {slices : List Text}
    (h : LaidOut order tokens slices) {c : Char} (hcomma : c ≠ ',') (hc : c ∈ render tokens) :
    c ∈ slices.flatten := by
  induction h with
  | nil => exact hc
  | cons hwritten _ _ ih =>
    rw [render, List.flatMap_cons, List.mem_append] at hc
    rw [List.flatten_cons, List.mem_append]
    exact hc.imp (hwritten.mem_of_mem_render hcomma) ih

/-- **Tokens that are written out again are laid out again.** -/
theorem LaidOut.render {tokens : List Token} {slices : List Text}
    (h : LaidOut order tokens slices) : LaidOut order tokens (tokens.map Token.render) := by
  induction h with
  | nil => exact .nil
  | cons hwritten hnext h ih =>
    refine .cons (hwritten.render fun c hcomma hc ↦ ?_) hnext ih
    rw [flatten_map_render] at hc
    exact h.mem_of_mem_render hcomma hc

/-- **What is read from the tokens of a segment, written out, are the tokens.** -/
theorem scan_render_scan (order : AlternativeOrder) (segment : Text) :
    scan order (render (scan order segment)) = scan order segment := by
  obtain ⟨slices, -, h⟩ := exists_laidOut order segment
  rw [← flatten_map_render, h.render.scan_flatten]

/-- **Slices that have nothing to spare** are what is written out. -/
theorem LaidOut.render_eq {tokens : List Token} {slices : List Text}
    (h : LaidOut .declared tokens slices)
    (hterse : ∀ pair ∈ tokens.zip slices, pair.1.Terse pair.2) :
    Pattern.render tokens = slices.flatten := by
  induction h with
  | nil => rfl
  | cons hwritten _ _ ih =>
    rw [List.zip_cons_cons, List.forall_mem_cons] at hterse
    rw [Pattern.render, List.flatMap_cons, List.flatten_cons, hwritten.render_eq hterse.1]
    exact congrArg _ (ih hterse.2)

/-- What a segment is read as depends on its tokens only, the text kept apart. -/
theorem map_ofTextWith {α : Type*} (options : PatternOptions) {segment segment' : Text}
    (h : scan options.alternativeOrder segment = scan options.alternativeOrder segment')
    (f : List Token → α) :
    (Component.ofTextWith options segment).map (fun component ↦ f component.tokens) =
      (Component.ofTextWith options segment').map fun component ↦ f component.tokens := by
  have htokens : ∀ segment, (Scanner.through options.alternativeOrder segment).tokens =
      scan options.alternativeOrder segment := fun _ ↦ rfl
  simp only [Component.ofTextWith, reversed?_through, htokens, h]
  split <;> rfl

/-- **The tokens of a segment, written out, are a normal form of it.** In either order of
alternatives they are read as the same tokens. In the order written, they are the segment itself, if
its slices have nothing to spare: no run of two or more `*`, and no brace group that repeats an
alternative. With whatever options a segment is read, its normal form is refused with the same error
or accepts the same names. -/
theorem normalForm_segment (segment : Text) :
    (∀ order, scan order (render (scan order segment)) = scan order segment) ∧
      (∀ slices, LaidOut .declared (scan .declared segment) slices → slices.flatten = segment →
        (∀ pair ∈ (scan .declared segment).zip slices, pair.1.Terse pair.2) →
          render (scan .declared segment) = segment) ∧
      (∀ name, (Component.ofText (render (scan .longest segment))).accepts name =
        (Component.ofText segment).accepts name) ∧
      ∀ options name,
        (Component.ofTextWith options (render (scan options.alternativeOrder segment))).map
            (fun component ↦ component.accepts name) =
          (Component.ofTextWith options segment).map fun component ↦ component.accepts name := by
  refine ⟨fun order ↦ scan_render_scan order segment, fun slices h hslices hterse ↦ ?_,
    fun name ↦ ?_, fun options name ↦ ?_⟩
  · rw [h.render_eq hterse, hslices]
  · rw [Component.accepts, Component.accepts, Component.ofText, Component.ofText,
      scan_render_scan]
  · exact map_ofTextWith options (scan_render_scan _ segment) fun tokens ↦ matchesWhole tokens name

/-- An empty alternative and a dash in brackets are nothing to spare. -/
theorem normalForm_segment_braces :
    let braces := ['{', 'b', ',', ',', 'a', 'b', '}']
    let segment := "a".toList ++ braces ++ "[!x-z]*".toList
    let slices := ["a".toList, braces, "[!x-z]".toList, "*".toList]
    LaidOut .declared (scan .declared segment) slices ∧ slices.flatten = segment ∧
      (∀ pair ∈ (scan .declared segment).zip slices, pair.1.Terse pair.2) ∧
      render (scan .declared segment) = segment := by
  intro braces segment slices
  have hscan : scan .declared segment = [.literal ['a'], .oneOf [['b'], [], ['a', 'b']],
      .charSet true [.range 'x' 'z'], .anyRun] := by decide +kernel
  have hrender : (scan .declared segment).map Token.render = slices := by decide +kernel
  have hflatten : slices.flatten = segment := by decide
  obtain ⟨_, -, h⟩ := exists_laidOut .declared segment
  have hlaid : LaidOut .declared (scan .declared segment) slices := hrender ▸ h.render
  have hbraces : ∀ content, braces = '{' :: (content ++ ['}']) →
      (content.splitOn ',').Nodup := by
    intro content heq
    obtain rfl : ['b', ',', ',', 'a', 'b'] = content :=
      List.append_cancel_right (List.cons.inj heq).2
    decide
  have hterse : ∀ pair ∈ (scan .declared segment).zip slices, pair.1.Terse pair.2 := by
    rw [hscan]
    simpa [slices, Terse] using hbraces
  exact ⟨hlaid, hflatten, hterse,
    (normalForm_segment segment).2.1 slices hlaid hflatten hterse⟩

-- Runs and repetitions go; a closing character outside of a group stays plain text.
example : render (scan .declared ['*', '*', '{', 'b', ',', 'c', ',', 'b', '}', '}', '[', 'd']) =
    ['*', '{', 'b', ',', 'c', '}', '}', '[', 'd'] := by
  decide +kernel

end Pattern

end OscAddressing
