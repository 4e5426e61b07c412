import ShaderMinifier.Proofs.Grammar.Progress

/-
  Two runs of parsers side by side. A `Comparison` says which inputs count as alike and for which
  causes the first run may give up where the second one goes on; one parser `Follows` another if on
  alike inputs it gives the same value and leaves alike inputs, or rejects its input in the same
  way, or gives up for such a cause. Every combinator keeps this; a loop does because its rounds
  read something in both runs. What is asked of the inputs is that they look alike to the parsers
  of lexemes (`Lexical`).
-/

namespace ShaderMinifier

open ShaderMinifier.Parser

/-- How two runs are compared: which inputs count as alike, and for which causes the first run may
fail though the second does not. `Follows` is stated for any `Comparison`. -/
structure Comparison where
  /-- Inputs that count as alike, at which the two runs of `Follows` start. -/
  Alike : List Char → List Char → Prop
  /-- Causes for which the first run may give up, such as `tooDeep` where it has less room. -/
  Excused : Cause → Prop

namespace Comparison

variable {C : Comparison} {α β : Type} {p q p' q' : Parser α} {f g : α → Parser β}

/-- The first reply is what the second one lets expect: the same kind and value with `Alike` rests,
or a failure with an `Excused` cause. Where the input is at fault is left open. -/
inductive Answers (C : Comparison) : Reply α → Reply α → Prop
  | matched (v : α) {s t : List Char} (h : C.Alike s t) : Answers C (.matched v s) (.matched v t)
  | mismatch (f g : Fault) : Answers C (.mismatch f) (.mismatch g)
  | failure (f g : Fault) : Answers C (.failure f) (.failure g)
  | excused {f : Fault} (h : C.Excused f.cause) (reply : Reply α) : Answers C (.failure f) reply

/-- On `Alike` inputs the first parser `Answers` as the second one does. -/
def Follows (C : Comparison) (p q : Parser α) : Prop :=
  ∀ s t, C.Alike s t → C.Answers (p s) (q t)

/-- One parser `Follows` another, and both read something (`Takes`), which is what their loops
need. -/
structure Twins (C : Comparison) (p q : Parser α) : Prop where
  follows : C.Follows p q
  left : Takes p
  right : Takes q

/-! ## Combinators -/

namespace Answers

variable {s t : List Char}

theorem bind (h : C.Answers (p s) (q t)) (hf : ∀ v, C.Follows (f v) (g v)) :
    C.Answers ((p >>= f) s) ((q >>= g) t) := by
  show C.Answers (Parser.bind p f s) (Parser.bind q g t)
  unfold Parser.bind
  generalize p s = left, q t = right at h ⊢
  cases h with
  | matched v hrest => exact hf v _ _ hrest
  | mismatch => exact .mismatch _ _
  | failure => exact .failure _ _
  | excused hcause => exact .excused hcause _

/-- The second alternatives of `orElse` matter only where the first do not match. -/
theorem orElse (h : C.Answers (p s) (q t))
    (h' : ∀ fault, p s = .mismatch fault → C.Answers (p' s) (q' t)) :
    C.Answers (orElse p p' s) (orElse q q' t) := by
  unfold Parser.orElse
  generalize p s = left, q t = right at h h' ⊢
  cases h with
  | matched v hrest => exact .matched v hrest
  | failure => exact .failure _ _
  | excused hcause => exact .excused hcause _
  | mismatch =>
    have hsecond := h' _ rfl
    generalize p' s = left, q' t = right at hsecond ⊢
    cases hsecond with
    | matched v hrest => exact .matched v hrest
    | mismatch => exact .mismatch _ _
    | failure => exact .failure _ _
    | excused hcause => exact .excused hcause _

end Answers

namespace Follows

theorem pure (v : α) : C.Follows (pure v) (pure v) := fun _ _ h => .matched v h

theorem bind (hp : C.Follows p q) (hf : ∀ v, C.Follows (f v) (g v)) :
    C.Follows (p >>= f) (q >>= g) := fun s t hst => (hp s t hst).bind hf

/-- A place is kept by `here` for a fault that may be found later. The places of the two runs
differ, so the rest must follow for any two. -/
theorem here_bind {f g : List Char → Parser β} (h : ∀ s t, C.Alike s t → C.Follows (f s) (g t)) :
    C.Follows (here >>= f) (here >>= g) := fun s t hst => h s t hst s t hst

theorem fail (cause : Cause) : C.Follows (fail cause : Parser α) (Parser.fail cause) :=
  fun _ _ _ => .failure _ _

theorem failAt (s t : List Char) (cause : Cause) :
    C.Follows (failAt s cause : Parser α) (Parser.failAt t cause) := fun _ _ _ => .failure _ _

theorem mismatch (cause : Cause) :
    C.Follows (mismatch cause : Parser α) (Parser.mismatch cause) := fun _ _ _ => .mismatch _ _

theorem mismatchAt (s t : List Char) (cause : Cause) :
    C.Follows (mismatchAt s cause : Parser α) (Parser.mismatchAt t cause) :=
  fun _ _ _ => .mismatch _ _

theorem commit (h : C.Follows p q) : C.Follows (commit p) (commit q) := by
  intro s t hst
  have hreply := h s t hst
  unfold Parser.commit
  generalize p s = left, q t = right at hreply ⊢
  cases hreply with
  | matched v hrest => exact .matched v hrest
  | mismatch => exact .failure _ _
  | failure => exact .failure _ _
  | excused hcause => exact .excused hcause _

theorem orElse (hp : C.Follows p q) (hp' : C.Follows p' q') :
    C.Follows (orElse p p') (orElse q q') :=
  fun s t hst => (hp s t hst).orElse fun _ _ => hp' s t hst

theorem optional (h : C.Follows p q) : C.Follows (optional p) (optional q) := by
  intro s t hst
  have hreply := h s t hst
  unfold Parser.optional
  generalize p s = left, q t = right at hreply ⊢
  cases hreply with
  | matched v hrest => exact .matched _ hrest
  | mismatch => exact .matched _ hst
  | failure => exact .failure _ _
  | excused hcause => exact .excused hcause _

/-- A look ahead must not hide that the first run gives up, so `lookingAt` needs parsers that never
fail. -/
theorem lookingAt (h : C.Follows p q) (hfirm : ∀ s fault, p s ≠ .failure fault) :
    C.Follows (lookingAt p) (lookingAt q) := by
  intro s t hst
  have hreply := h s t hst
  have hleft := hfirm s
  unfold Parser.lookingAt
  generalize p s = left, q t = right at hreply hleft ⊢
  cases hreply with
  | matched => exact .matched _ hst
  | mismatch => exact .matched _ hst
  | failure => exact .matched _ hst
  | excused => exact absurd rfl (hleft _)

end Follows

namespace Twins

theorem bind (h : C.Twins p q) (hf : ∀ v, C.Follows (f v) (g v)) (hl : ∀ v, Keeps (f v))
    (hr : ∀ v, Keeps (g v)) : C.Twins (p >>= f) (q >>= g) :=
  ⟨h.follows.bind hf, h.left.bind hl, h.right.bind hr⟩

theorem many (h : C.Twins p q) : C.Follows (many p) (many q) := by
  intro s
  -- each round leaves less of the first input
  induction hn : s.length using Nat.strong_induction_on generalizing s with
  | _ n ih =>
    subst hn
    intro t hst
    have hreply := h.follows s t hst
    have hleft := h.left s
    rw [h.left.many_eq, h.right.many_eq]
    generalize p s = left, q t = right at hreply hleft ⊢
    cases hreply with
    | matched v hrest =>
      have hothers := ih _ (hleft _ _ rfl).2 _ rfl _ hrest
      dsimp only
      generalize Parser.many p _ = left, Parser.many q _ = right at hothers ⊢
      cases hothers with
      | matched vs hlast => exact .matched _ hlast
      | mismatch => exact .mismatch _ _
      | failure => exact .failure _ _
      | excused hcause => exact .excused hcause _
    | mismatch => exact .matched _ hst
    | failure => exact .failure _ _
    | excused hcause => exact .excused hcause _

theorem many1 (h : C.Twins p q) : C.Follows (many1 p) (many1 q) :=
  h.follows.bind fun _ => h.many.bind fun _ => .pure _

theorem sepBy1 {separator separator' : Parser β} (hs : C.Twins separator separator')
    (h : C.Twins p q) : C.Follows (sepBy1 separator p) (sepBy1 separator' q) :=
  h.follows.bind fun _ =>
    (hs.bind (fun _ => h.follows) (fun _ => h.left.keeps) fun _ => h.right.keeps).many.bind
      fun _ => .pure _

theorem commaList {separator separator' : Parser β} (hs : C.Twins separator separator')
    (h : C.Twins p q) : C.Follows (commaList separator p) (commaList separator' q) :=
  h.follows.bind fun _ =>
    (hs.bind (fun _ => h.follows.commit) (fun _ => h.left.keeps.commit)
      fun _ => h.right.keeps.commit).many.bind fun _ => .pure _

end Twins

/-! ## Lexemes -/

/-- No lexeme at either head, or the same one with `Alike` inputs behind it and its blanks. -/
def SameHead (C : Comparison) (x y : Option (String × List Char)) : Prop :=
  (x = none ∧ y = none) ∨ ∃ text rest rest', x = some (text, rest) ∧ y = some (text, rest') ∧
    C.Alike (Blank.skip rest) (Blank.skip rest')

/-- A point at the head with no word behind it, as in a number that starts with its point.
`Symbol.atHead?` sees the point, but no rule can go on from it. -/
def BarePoint (s : List Char) : Prop :=
  ∃ rest, Symbol.atHead? s = some (".", rest) ∧ Word.atHead? (Blank.skip rest) = none

theorem barePoint_digit {d : Char} (hd : d.isDigit = true) (tail : List Char) :
    BarePoint ('.' :: d :: tail) := by
  refine ⟨d :: tail, Symbol.atHead?_append (t := ".") (by decide) fun c _ =>
    Symbol.grows_eq_false_of_maximal (by decide) c, ?_⟩
  rw [Blank.skip_of_after?_eq_none (after?_digit hd tail)]
  exact wordAtHead_eq_none (Word.isStart_eq_false_of_isDigit hd) _

/-- `Alike` inputs look alike to the parsers of lexemes. The two may go separate ways behind a
`BarePoint`, which nothing that is read can start with. -/
structure Lexical (C : Comparison) : Prop where
  wordHead : ∀ {s t}, C.Alike s t → C.SameHead (Word.atHead? s) (Word.atHead? t)
  symbolHead : ∀ {s t}, C.Alike s t →
    C.SameHead (Symbol.atHead? s) (Symbol.atHead? t) ∨ BarePoint s ∧ BarePoint t
  float : C.Follows floatLiteral floatLiteral
  /-- An integer is looked for only where `floatLiteral` does not match. -/
  int : ∀ {s t fault}, C.Alike s t → floatLiteral s = .mismatch fault →
    C.Answers (intLiteral s) (intLiteral t)
  hash : ∀ {s t}, C.Alike s t → (s.head? = some '#' ↔ t.head? = some '#')

namespace Lexical

theorem number (hC : C.Lexical) {p q : Parser Expr} (h : C.Follows p q) :
    C.Follows
      (orElse (do return .float (← floatLiteral)) (orElse (do return .int (← intLiteral)) p))
      (orElse (do return .float (← floatLiteral)) (orElse (do return .int (← intLiteral)) q)) := by
  intro s t hst
  refine ((hC.float s t hst).bind fun _ => .pure _).orElse fun fault hfault => ?_
  have hfloat : floatLiteral s = .mismatch fault := by
    cases hs : floatLiteral s with
    | matched v rest =>
      rw [bind_of_matched hs] at hfault
      cases hfault
    | mismatch f =>
      rw [bind_of_mismatch hs] at hfault
      rw [Reply.mismatch.inj hfault]
    | failure f =>
      rw [bind_of_failure hs] at hfault
      cases hfault
  exact ((hC.int hst hfloat).bind fun _ => .pure _).orElse fun _ _ => h s t hst

theorem symbolWhere (hC : C.Lexical) {choose : String → Option α} (hpoint : choose "." = none) :
    C.Follows (symbolWhere choose) (symbolWhere choose) := by
  intro s t hst
  unfold Parser.symbolWhere
  rcases hC.symbolHead hst with (⟨hs, ht⟩ | ⟨text, rest, rest', hs, ht, hrest⟩) |
    ⟨⟨rest, hs, -⟩, rest', ht, -⟩
  · simp only [hs, ht]
    exact .mismatch _ _
  · cases hv : choose text with
    | none =>
      simp only [hs, ht, hv]
      exact .mismatch _ _
    | some v =>
      simp only [hs, ht, hv]
      exact .matched v hrest
  · simp only [hs, ht, hpoint]
    exact .mismatch _ _

theorem symbol (hC : C.Lexical) {text : String} (hpoint : text ≠ ".") :
    C.Follows (Parser.symbol text) (Parser.symbol text) := by
  intro s t hst
  unfold Parser.symbol
  rcases hC.symbolHead hst with (⟨hs, ht⟩ | ⟨found, rest, rest', hs, ht, hrest⟩) |
    ⟨⟨rest, hs, -⟩, rest', ht, -⟩
  · simp only [hs, ht]
    exact .mismatch _ _
  · simp only [hs, ht]
    split
    · exact .matched _ hrest
    · exact .mismatch _ _
  · simp only [hs, ht, hpoint.symm, if_false]
    exact .mismatch _ _

theorem lookingAt_symbol (hC : C.Lexical) {text : String} (hpoint : text ≠ ".") :
    C.Follows (lookingAt (Parser.symbol text)) (lookingAt (Parser.symbol text)) := by
  refine (hC.symbol hpoint).lookingAt fun s fault h => ?_
  unfold Parser.symbol at h
  split at h
  · split at h <;> cases h
  · cases h

theorem lookingAt_symbolWhere (hC : C.Lexical) {choose : String → Option α}
    (hpoint : choose "." = none) :
    C.Follows (lookingAt (Parser.symbolWhere choose)) (lookingAt (Parser.symbolWhere choose)) := by
  refine (hC.symbolWhere hpoint).lookingAt fun s fault h => ?_
  unfold Parser.symbolWhere at h
  split at h
  · split at h <;> cases h
  · cases h

/-- Any symbol at all by `symbolWhere some`. A `BarePoint` leads nowhere, so both runs have to
answer alike behind it. -/
theorem symbolWhere_some_bind (hC : C.Lexical) {f g : String → Parser β}
    (hf : ∀ token, C.Follows (f token) (g token))
    (hpoint : ∀ s t, Word.atHead? s = none → Word.atHead? t = none →
      C.Answers (f "." s) (g "." t)) :
    C.Follows (Parser.symbolWhere some >>= f) (Parser.symbolWhere some >>= g) := by
  have hsome : ∀ {s : List Char} {text rest}, Symbol.atHead? s = some (text, rest) →
      Parser.symbolWhere some s = .matched text (Blank.skip rest) := by
    intro s text rest h
    simp only [Parser.symbolWhere, h]
  have hnone : ∀ {s : List Char}, Symbol.atHead? s = none →
      Parser.symbolWhere some s = .mismatch ⟨s, .unexpected⟩ := by
    intro s h
    simp only [Parser.symbolWhere, h]
  intro s t hst
  rcases hC.symbolHead hst with (⟨hs, ht⟩ | ⟨text, rest, rest', hs, ht, hrest⟩) |
    ⟨⟨rest, hs, hword⟩, rest', ht, hword'⟩
  · rw [bind_of_mismatch (hnone hs), bind_of_mismatch (hnone ht)]
    exact .mismatch _ _
  · rw [bind_of_matched (hsome hs), bind_of_matched (hsome ht)]
    exact hf text _ _ hrest
  · rw [bind_of_matched (hsome hs), bind_of_matched (hsome ht)]
    exact hpoint _ _ hword hword'

theorem wordWhere (hC : C.Lexical) (choose : String → Option α) :
    C.Follows (wordWhere choose) (wordWhere choose) := by
  intro s t hst
  unfold Parser.wordWhere
  rcases hC.wordHead hst with ⟨hs, ht⟩ | ⟨text, rest, rest', hs, ht, hrest⟩
  · simp only [hs, ht]
    exact .mismatch _ _
  · cases hv : choose text with
    | none =>
      simp only [hs, ht, hv]
      exact .mismatch _ _
    | some v =>
      simp only [hs, ht, hv]
      exact .matched v hrest

theorem keyword (hC : C.Lexical) (word : String) :
    C.Follows (Parser.keyword word) (Parser.keyword word) := by
  intro s t hst
  unfold Parser.keyword
  rcases hC.wordHead hst with ⟨hs, ht⟩ | ⟨text, rest, rest', hs, ht, hrest⟩
  · simp only [hs, ht]
    exact .mismatch _ _
  · simp only [hs, ht]
    split
    · exact .matched _ hrest
    · exact .mismatch _ _

theorem lookingAt_keyword (hC : C.Lexical) (word : String) :
    C.Follows (lookingAt (Parser.keyword word)) (lookingAt (Parser.keyword word)) := by
  refine (hC.keyword word).lookingAt fun s fault h => ?_
  unfold Parser.keyword at h
  split at h
  · split at h <;> cases h
  · cases h

theorem nextWord (hC : C.Lexical) : C.Follows nextWord nextWord := by
  intro s t hst
  unfold Parser.nextWord
  rcases hC.wordHead hst with ⟨hs, ht⟩ | ⟨text, rest, rest', hs, ht, -⟩
  · rw [hs, ht]
    exact .matched _ hst
  · rw [hs, ht]
    exact .matched _ hst

theorem declaredName (hC : C.Lexical) : C.Follows declaredName declaredName := by
  refine hC.nextWord.bind fun word => ?_
  cases word with
  | none => exact .mismatch _
  | some word =>
    dsimp only
    split
    · exact .fail _
    · split
      · exact .fail _
      · exact hC.wordWhere _

end Lexical

end Comparison

end ShaderMinifier
