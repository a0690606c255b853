import Mathlib.Data.List.Infix
import OscAddressing.Proofs.Matching.Pieces

/-!
# Stepping a matcher

A matcher is asked, advanced and reset in any order, and on texts that need not have anything to do
with each other (`Matcher.Step`, `Matcher.run`). Two things are known of it nevertheless.

On one text a `*` tries the byte lengths of all leading pieces, each once and the shorter ones
first, and is exhausted after the last. This is read off its state after `k` advances
(`run_reset_replicate`): it stands behind the first `k` characters, and is exhausted when there are
fewer. `Matcher.tried` is the loop that a search makes of it.

On changing texts the position of a `*` can be anything. It only grows, for an advance either goes
on by one character or leaves the position alone and exhausts the matcher (`advance_eq`). The
answers of any other matcher depend on its token alone.
-/

namespace OscAddressing

namespace Text

/-! ### Character boundaries -/

/-- The byte position `n` is a character boundary of `t`: a leading piece ends there. -/
def IsBoundary (t : Text) (n : Nat) : Prop := ∃ piece, piece <+: t ∧ byteLength piece = n

/-- The character boundaries of a text, from its beginning to its end. -/
def boundaries (t : Text) : List Nat := t.inits.map byteLength

theorem mem_boundaries_iff {t : Text} {n : Nat} : n ∈ t.boundaries ↔ t.IsBoundary n := by
  simp only [boundaries, IsBoundary, List.mem_map, List.mem_inits]

theorem length_boundaries (t : Text) : t.boundaries.length = t.length + 1 := by
  rw [boundaries, List.length_map, List.length_inits]

/-- Behind a character, the boundaries are those of what follows it. -/
theorem boundaries_cons (c : Char) (t : Text) :
    boundaries (c :: t) = 0 :: t.boundaries.map (c.utf8Size + ·) := by
  simp [boundaries, Function.comp_def]

theorem pairwise_boundaries (t : Text) : t.boundaries.Pairwise (· < ·) := by
  induction t with
  | nil => simp [boundaries]
  | cons c t ih =>
    rw [boundaries_cons, List.pairwise_cons, List.pairwise_map]
    constructor
    · intro n hn
      obtain ⟨k, -, rfl⟩ := List.mem_map.1 hn
      have := c.utf8Size_pos
      omega
    · exact ih.imp fun h ↦ Nat.add_lt_add_left h _

theorem isBoundary_iff_dropBytes? {t : Text} {n : Nat} :
    t.IsBoundary n ↔ ∃ rest, t.dropBytes? n = some rest := by
  simp only [dropBytes?_eq_some_iff, IsBoundary]
  constructor
  · rintro ⟨piece, ⟨rest, rfl⟩, hlength⟩
    exact ⟨rest, piece, rfl, hlength⟩
  · rintro ⟨rest, piece, rfl, hlength⟩
    exact ⟨piece, List.prefix_append .., hlength⟩

/-- No boundary lies beyond the text. -/
theorem IsBoundary.le_byteLength {t : Text} {n : Nat} (h : t.IsBoundary n) : n ≤ t.byteLength := by
  obtain ⟨piece, ⟨rest, rfl⟩, rfl⟩ := h
  rw [byteLength_append]
  exact Nat.le_add_right ..

end Text

namespace Matcher

/-! ### Scripts -/

/-- One use of a matcher. -/
inductive Step
  | ask (t : Text)
  | advance (t : Text)
  | reset
  deriving DecidableEq

/-- The matcher after one use. -/
def step (m : Matcher) : Step → Matcher
  | .ask _ => m
  | .advance t => m.advance t
  | .reset => m.reset

/-- The matcher after all uses of a script. -/
def run (m : Matcher) (script : List Step) : Matcher := script.foldl step m

variable {m : Matcher} {t : Text}

@[simp] theorem run_nil (m : Matcher) : m.run [] = m := rfl

@[simp] theorem run_cons (m : Matcher) (s : Step) (script : List Step) :
    m.run (s :: script) = (m.step s).run script := rfl

@[simp] theorem run_append (m : Matcher) (script later : List Step) :
    m.run (script ++ later) = (m.run script).run later := List.foldl_append ..

theorem token_step (m : Matcher) (s : Step) : (m.step s).token = m.token := by
  cases s with
  | ask t => rfl
  | advance t => exact m.token_advance t
  | reset => rfl

theorem token_run (m : Matcher) (script : List Step) : (m.run script).token = m.token := by
  induction script generalizing m with
  | nil => rfl
  | cons s script ih => rw [run_cons, ih, token_step]

/-! ### One advance -/

/-- **An advance goes on or gives up**: a `*` in front of a character goes on behind it; otherwise
the matcher is exhausted, and its position is left alone. -/
theorem advance_eq (m : Matcher) (t : Text) :
    (∃ c rest, t.dropBytes? m.position = some (c :: rest) ∧
      m.advance t = { m with position := m.position + c.utf8Size }) ∨
    m.advance t = { m with exhausted := true } := by
  unfold advance
  split
  case h_1 c rest _ hdrop => exact .inl ⟨c, rest, hdrop, rfl⟩
  case h_2 => exact .inr rfl

/-- A `*` that does not stand at a character boundary of the text stays where it is. -/
theorem advance_of_not_isBoundary (h : ¬ t.IsBoundary m.position) :
    m.advance t = { m with exhausted := true } := by
  obtain ⟨c, rest, hdrop, -⟩ | heq := advance_eq m t
  · exact absurd (Text.isBoundary_iff_dropBytes?.2 ⟨_, hdrop⟩) h
  · exact heq

/-! ### One text -/

/-- **The state of a `*` after a reset and `k` advances on one text.** -/
theorem run_reset_replicate (hrun : m.token = .anyRun) (t : Text) (k : Nat) :
    m.run (.reset :: List.replicate k (.advance t)) =
      ⟨.anyRun, Text.byteLength (t.take k), decide (t.length < k)⟩ := by
  induction k with
  | zero => simp [step, reset, hrun]
  | succ k ih =>
    rw [List.replicate_succ', ← List.cons_append, run_append, ih]
    exact advance_take t k

/-- The candidates that a matcher tries on a text before it is exhausted, up to a limit. -/
def tried (t : Text) : Nat → Matcher → List (Option Nat)
  | 0, _ => []
  | limit + 1, m =>
    m.matches? t :: if (m.advance t).exhausted then [] else tried t limit (m.advance t)

/-- Behind a piece of the text, a `*` has still to try the pieces that go on from there. -/
theorem tried_anyRun {limit : Nat} (piece rest : Text) (h : rest.length < limit) :
    tried (piece ++ rest) limit ⟨.anyRun, piece.byteLength, false⟩ =
      rest.boundaries.map fun n ↦ some (piece.byteLength + n) := by
  induction rest generalizing piece limit with
  | nil =>
    obtain ⟨limit, rfl⟩ := Nat.exists_eq_add_of_lt h
    have hend := exhausted_advance_at_end piece false
    simp [tried, matches?, Text.boundaries, hend]
  | cons c rest ih =>
    obtain ⟨limit, rfl⟩ : ∃ limit', limit = limit' + 1 := ⟨limit - 1, by omega⟩
    have hih := ih (piece ++ [c]) (Nat.lt_of_succ_lt_succ h)
    rw [List.append_assoc, List.singleton_append] at hih
    rw [tried, advance_anyRun, if_neg Bool.false_ne_true, hih, Text.boundaries_cons]
    simp [matches?, Function.comp_def, Nat.add_assoc]

/-! ### Any texts -/

/-- **Exhaustion lasts, and the position does not go back**, until the next reset. -/
theorem run_of_reset_notMem {script : List Step} (m : Matcher) (h : .reset ∉ script) :
    (m.exhausted = true → (m.run script).exhausted = true) ∧
      m.position ≤ (m.run script).position := by
  induction script generalizing m with
  | nil => exact ⟨id, le_rfl⟩
  | cons s script ih =>
    obtain ⟨hne, hrest⟩ := not_or.1 (mt List.mem_cons.2 h)
    obtain ⟨hexhausted, hposition⟩ := ih (m.step s) hrest
    suffices hstep : (m.exhausted = true → (m.step s).exhausted = true) ∧
        m.position ≤ (m.step s).position from
      ⟨fun hm ↦ hexhausted (hstep.1 hm), hstep.2.trans hposition⟩
    cases s with
    | ask t => exact ⟨id, le_rfl⟩
    | advance t =>
      obtain ⟨c, rest, -, heq⟩ | heq := advance_eq m t
      · rw [step, heq]
        exact ⟨id, Nat.le_add_right ..⟩
      · rw [step, heq]
        exact ⟨fun _ ↦ rfl, le_rfl⟩
    | reset => exact absurd rfl hne

/-- **Stepping.** After a reset and `k` advances on one text, a `*` answers with the byte length of
the first `k` characters, and is exhausted when the text has fewer than `k`: it tries the character
boundaries of the text, all of them, once each and in increasing order.

Whatever the texts are, exhaustion lasts until the next reset, and until then the position of a
`*` does not go back; it stays where it is when it lies beyond the text or inside a character. A
reset leaves no trace of what was before. The answers of any other matcher do not depend on the
steps before, and are character boundaries of the text that it is asked about. -/
theorem stepping (m : Matcher) :
    (m.token = .anyRun → ∀ t : Text,
      (∀ k, (m.run (.reset :: List.replicate k (.advance t))).matches? t =
          some (Text.byteLength (t.take k)) ∧
        ((m.run (.reset :: List.replicate k (.advance t))).exhausted = true ↔ t.length < k)) ∧
      (∀ limit, t.length < limit → tried t limit m.reset = t.boundaries.map some) ∧
      (∀ n, n ∈ t.boundaries ↔ t.IsBoundary n) ∧ t.boundaries.length = t.length + 1 ∧
      t.boundaries.Pairwise (· < ·)) ∧
    (∀ script, .reset ∉ script →
      (m.exhausted = true → (m.run script).exhausted = true) ∧
      m.position ≤ (m.run script).position) ∧
    (∀ t : Text, t.byteLength < m.position ∨ ¬ t.IsBoundary m.position →
      (m.advance t).position = m.position) ∧
    (∀ script, m.run (script ++ [.reset]) = { token := m.token }) ∧
    (m.token ≠ .anyRun → ∀ script t, (m.run script).matches? t = m.matches? t ∧
      ∀ n, (m.run script).matches? t = some n → t.IsBoundary n) := by
  refine ⟨fun hrun t ↦ ⟨fun k ↦ ?_, fun limit hlimit ↦ ?_, fun n ↦ Text.mem_boundaries_iff,
    Text.length_boundaries t, Text.pairwise_boundaries t⟩, fun script ↦ m.run_of_reset_notMem,
    fun t hoff ↦ ?_, fun script ↦ ?_, fun hne script t ↦ ?_⟩
  · have hle : Text.IsBoundary t (Text.byteLength (t.take k)) := ⟨_, List.take_prefix k t, rfl⟩
    rw [run_reset_replicate hrun, decide_eq_true_iff]
    exact ⟨if_pos hle.le_byteLength, Iff.rfl⟩
  · have htried := tried_anyRun [] t hlimit
    simpa [reset, hrun] using htried
  · have hnot : ¬ t.IsBoundary m.position := by
      obtain hbeyond | hnot := hoff
      · exact fun h ↦ absurd h.le_byteLength (Nat.not_le.2 hbeyond)
      · exact hnot
    rw [advance_of_not_isBoundary hnot]
  · rw [run_append, run_cons, run_nil, step, reset, token_run]
  · have htoken : (m.run script).token = m.token := m.token_run script
    have hne' : (m.run script).token ≠ .anyRun := htoken ▸ hne
    refine ⟨matches?_congr hne' hne (fun piece rest ↦ by rw [htoken]) t, fun n hn ↦ ?_⟩
    obtain ⟨piece, rest, rfl, -, hlength⟩ := (matches?_eq_some_iff hne').1 hn
    exact ⟨piece, List.prefix_append .., hlength⟩

/-- A `*` on `"é!"`, of three bytes; one that stands inside the `é`, and one that stands behind the
text; and a set on changing texts. -/
theorem stepping_two_bytes :
    let run : Matcher := { token := .anyRun, position := 1, exhausted := true }
    let set : Matcher := { token := .charSet true [.single 'a'] }
    tried "é!".toList 3 run.reset = [some 0, some 2, some 3] ∧
      (run.run [.reset, .advance "é!".toList, .advance "é!".toList]).exhausted = false ∧
      (run.run [.reset, .advance "é!".toList, .advance "é!".toList,
        .advance "é!".toList]).exhausted = true ∧
      (run.run [.advance "ab".toList, .ask "".toList]).exhausted = true ∧
      1 ≤ (run.run [.advance "ab".toList, .ask "".toList]).position ∧
      (run.advance "é!".toList).position = 1 ∧ (run.advance []).position = 1 ∧
      (set.run [.advance "a".toList, .reset, .advance []]).matches? "é!".toList = some 2 ∧
      Text.IsBoundary "é!".toList 2 := by
  intro run set
  obtain ⟨hfixed, hany, hstays, -, -⟩ := stepping run
  obtain ⟨hstate, htried, -⟩ := hfixed rfl "é!".toList
  obtain ⟨hexhausted, hposition⟩ := hany [.advance "ab".toList, .ask "".toList] (by decide)
  obtain ⟨hsame, hboundary⟩ := (stepping set).2.2.2.2 (by decide)
    [.advance "a".toList, .reset, .advance []] "é!".toList
  have hanswer := hsame.trans (show set.matches? "é!".toList = some 2 by decide)
  have hoff : ¬ Text.IsBoundary "é!".toList 1 := by
    rw [← Text.mem_boundaries_iff]
    decide
  exact ⟨htried 3 (by decide), Bool.eq_false_iff.2 (mt (hstate 2).2.1 (by decide)),
    (hstate 3).2.2 (by decide), hexhausted rfl, hposition, hstays _ (.inr hoff),
    hstays [] (.inl (by decide)), hanswer, hboundary 2 hanswer⟩

end Matcher

end OscAddressing
