import Mathlib.Logic.Relation
import ShaderMinifier.Item.Parser
import ShaderMinifier.Proofs.Grammar.Progress

/-
  When reading comes to an end. The loops of the reader are bounded by their input, so that they
  are functions; that they would end without the bound is another matter, and it rests on progress.
  `LoopEnds` says it of one loop: its rounds shorten what is left, and where it stops its body does
  not match. A `Script` says how a parser is put together from others, and `Script.Reads` is the
  reading by that script, in which a loop goes on for as long as its body matches. Every script
  comes to one reply on every input, that of its parser (`Script.reads_iff`).
-/

namespace ShaderMinifier

/-! ## Steps through a text -/

section Steps

variable {next? : List Char → Option (List Char)} {input rest last : List Char}

/-- Each step of `next?` leads to a shorter end of the text. -/
def Shortens (next? : List Char → Option (List Char)) : Prop :=
  ∀ input rest, next? input = some rest → rest <:+ input ∧ rest.length < input.length

/-- Going on from `input` for as long as `next?` has a step, one stops at `last`. No bound on the
steps is part of it. -/
def StopsAt (next? : List Char → Option (List Char)) (input last : List Char) : Prop :=
  Relation.ReflTransGen (fun text rest => next? text = some rest) input last ∧ next? last = none

theorem StopsAt.refl (h : next? input = none) : StopsAt next? input input := ⟨.refl, h⟩

theorem StopsAt.step (h : next? input = some rest) (hrest : StopsAt next? rest last) :
    StopsAt next? input last := ⟨.head h hrest.1, hrest.2⟩

end Steps

namespace Blank

theorem shortens_after? : Shortens after? := fun _ _ => after?_suffix

theorem stopsAt_skipUpTo {gas input : List Char} (h : input.length ≤ gas.length) :
    StopsAt after? input (skipUpTo gas input) := by
  induction gas generalizing input with
  | nil =>
    obtain rfl : input = [] := List.length_eq_zero_iff.1 (by simpa using h)
    exact .refl rfl
  | cons c gas ih =>
    rw [skipUpTo]
    split
    · next rest hrest =>
      have hlt := (after?_suffix hrest).2
      rw [List.length_cons] at h
      exact .step hrest (ih (by omega))
    · next hnone => exact .refl hnone

theorem stopsAt_skip (input : List Char) : StopsAt after? input (skip input) :=
  stopsAt_skipUpTo le_rfl

end Blank

namespace Parser

variable {α β : Type} {p q : Parser α}

/-! ## One loop -/

/-- The loop with this body ends by itself. Every round leaves a shorter end of what was left, and
`many` stops, after as many `Steps` as there are, where its body does not match or fails. -/
structure LoopEnds (p : Parser α) : Prop where
  shortens : Takes p
  stops : ∀ input, ∃ values last, Steps p input values last ∧
    ((∃ fault, p last = .mismatch fault ∧ many p input = .matched values last) ∨
      ∃ fault, p last = .failure fault ∧ many p input = .failure fault)

theorem Takes.loopEnds (h : Takes p) : LoopEnds p := by
  refine ⟨h, fun input => ?_⟩
  induction hn : input.length using Nat.strong_induction_on generalizing input with
  | _ n ih =>
    subst hn
    cases hp : p input with
    | matched v rest =>
      have hlt := (h _ _ _ hp).2
      obtain ⟨values, last, hsteps, ⟨fault, hlast, hmany⟩ | ⟨fault, hlast, hmany⟩⟩ :=
        ih _ hlt rest rfl
      · refine ⟨v :: values, last, .cons hp hlt hsteps, .inl ⟨fault, hlast, ?_⟩⟩
        simp only [h.many_eq input, hp, hmany]
      · refine ⟨v :: values, last, .cons hp hlt hsteps, .inr ⟨fault, hlast, ?_⟩⟩
        simp only [h.many_eq input, hp, hmany]
    | mismatch fault =>
      refine ⟨[], input, .nil, .inl ⟨fault, hp, ?_⟩⟩
      simp only [h.many_eq input, hp]
    | failure fault =>
      refine ⟨[], input, .nil, .inr ⟨fault, hp, ?_⟩⟩
      simp only [h.many_eq input, hp]

theorem Takes.many_ne_mismatch (h : Takes p) {input : List Char} {fault : Fault} :
    many p input ≠ .mismatch fault := by
  intro hmany
  obtain ⟨_, _, -, ⟨_, -, hreply⟩ | ⟨_, -, hreply⟩⟩ := h.loopEnds.stops input
  · cases hmany.symm.trans hreply
  · cases hmany.symm.trans hreply

/-! ## Replies that are passed on -/

section Replies

variable {input : List Char} {reply : Reply α} {fault : Fault}

theorem commit_of_ne_mismatch (hp : p input = reply) (h : ∀ fault, reply ≠ .mismatch fault) :
    commit p input = reply := by
  cases reply with
  | matched v rest => exact commit_of_matched hp
  | mismatch fault => exact absurd rfl (h fault)
  | failure fault => simp only [commit, hp]

theorem orElse_of_ne_mismatch (hp : p input = reply) (h : ∀ fault, reply ≠ .mismatch fault) :
    orElse p q input = reply := by
  cases reply with
  | matched v rest => exact orElse_of_matched hp
  | mismatch fault => exact absurd rfl (h fault)
  | failure fault => simp only [orElse, hp]

theorem orElse_of_mismatch_of_ne_mismatch (hp : p input = .mismatch fault) (hq : q input = reply)
    (h : ∀ fault, reply ≠ .mismatch fault) : orElse p q input = reply := by
  cases reply with
  | matched v rest => exact orElse_of_mismatch hp hq
  | mismatch fault => exact absurd rfl (h fault)
  | failure fault => simp only [orElse, hp, hq]

theorem lookingAt_of_ne_matched (hp : p input = reply) (h : ∀ v rest, reply ≠ .matched v rest) :
    lookingAt p input = .matched false input := by
  cases reply with
  | matched v rest => exact absurd rfl (h v rest)
  | mismatch fault => exact lookingAt_of_mismatch hp
  | failure fault => simp only [lookingAt, hp]

end Replies

/-! ## Scripts -/

/-- The parsers that call no other parser, the leaves of a `Script`. -/
inductive Leaf : {α : Type} → Parser α → Prop
  | pure {α : Type} (value : α) : Leaf (pure value)
  | here : Leaf here
  | fail {α : Type} (cause : Cause) : Leaf (fail cause : Parser α)
  | failAt {α : Type} (place : List Char) (cause : Cause) : Leaf (failAt place cause : Parser α)
  | mismatch {α : Type} (cause : Cause) : Leaf (mismatch cause : Parser α)
  | mismatchAt {α : Type} (place : List Char) (cause : Cause) :
    Leaf (mismatchAt place cause : Parser α)
  | blank : Leaf blank
  | symbol (text : String) : Leaf (symbol text)
  | symbolWhere {α : Type} (choose : String → Option α) : Leaf (symbolWhere choose)
  | keyword (word : String) : Leaf (keyword word)
  | nextWord : Leaf nextWord
  | wordWhere {α : Type} (choose : String → Option α) : Leaf (wordWhere choose)
  | floatLiteral : Leaf floatLiteral
  | intLiteral : Leaf intLiteral
  | directiveName : Leaf directiveName
  | directiveValue : Leaf directiveValue
  | nextMarker : Leaf nextMarker

/-- How a parser is put together from others by `bind`, `orElse`, `many` and so on. The body of a
loop must take something (`Takes`). -/
inductive Script : {α : Type} → Parser α → Type 1
  | leaf {α : Type} {p : Parser α} (h : Leaf p) : Script p
  | bind {α β : Type} {p : Parser α} {f : α → Parser β} (s : Script p) (t : ∀ v, Script (f v)) :
    Script (p >>= f)
  | commit {α : Type} {p : Parser α} (s : Script p) : Script (commit p)
  | orElse {α : Type} {p q : Parser α} (s : Script p) (t : Script q) : Script (orElse p q)
  | optional {α : Type} {p : Parser α} (s : Script p) : Script (optional p)
  | lookingAt {α : Type} {p : Parser α} (s : Script p) : Script (lookingAt p)
  | many {α : Type} {p : Parser α} (s : Script p) (h : Takes p) : Script (many p)

namespace Script

/-- Reading an input by a `Script` comes to this reply. Each rule is about one call, and a reply is
there once all calls have come to theirs: a loop calls itself again behind every match of its body,
as often as there is one. -/
inductive Reads : {α : Type} → {p : Parser α} → Script p → List Char → Reply α → Prop
  | leaf {α : Type} {p : Parser α} {input : List Char} (h : Leaf p) : Reads (leaf h) input (p input)
  | bind {α β : Type} {p : Parser α} {f : α → Parser β} {s : Script p} {t : ∀ v, Script (f v)}
      {input mid : List Char} {v : α} {reply : Reply β} (first : Reads s input (.matched v mid))
      (second : Reads (t v) mid reply) : Reads (bind s t) input reply
  | bindMismatch {α β : Type} {p : Parser α} {f : α → Parser β} {s : Script p}
      {t : ∀ v, Script (f v)} {input : List Char} {fault : Fault}
      (first : Reads s input (.mismatch fault)) : Reads (bind s t) input (.mismatch fault)
  | bindFailure {α β : Type} {p : Parser α} {f : α → Parser β} {s : Script p}
      {t : ∀ v, Script (f v)} {input : List Char} {fault : Fault}
      (first : Reads s input (.failure fault)) : Reads (bind s t) input (.failure fault)
  | commit {α : Type} {p : Parser α} {s : Script p} {input : List Char} {reply : Reply α}
      (part : Reads s input reply) (h : ∀ fault, reply ≠ .mismatch fault) :
    Reads (commit s) input reply
  | commitMismatch {α : Type} {p : Parser α} {s : Script p} {input : List Char} {fault : Fault}
      (part : Reads s input (.mismatch fault)) : Reads (commit s) input (.failure fault)
  | orElse {α : Type} {p q : Parser α} {s : Script p} {t : Script q} {input : List Char}
      {reply : Reply α} (first : Reads s input reply) (h : ∀ fault, reply ≠ .mismatch fault) :
    Reads (orElse s t) input reply
  | orElseSecond {α : Type} {p q : Parser α} {s : Script p} {t : Script q} {input : List Char}
      {fault : Fault} {reply : Reply α} (first : Reads s input (.mismatch fault))
      (second : Reads t input reply) (h : ∀ fault, reply ≠ .mismatch fault) :
    Reads (orElse s t) input reply
  | orElseNeither {α : Type} {p q : Parser α} {s : Script p} {t : Script q} {input : List Char}
      {earlier later : Fault} (first : Reads s input (.mismatch earlier))
      (second : Reads t input (.mismatch later)) :
    Reads (orElse s t) input (.mismatch (earlier.further later))
  | optional {α : Type} {p : Parser α} {s : Script p} {input rest : List Char} {v : α}
      (part : Reads s input (.matched v rest)) : Reads (optional s) input (.matched (some v) rest)
  | optionalMismatch {α : Type} {p : Parser α} {s : Script p} {input : List Char} {fault : Fault}
      (part : Reads s input (.mismatch fault)) : Reads (optional s) input (.matched none input)
  | optionalFailure {α : Type} {p : Parser α} {s : Script p} {input : List Char} {fault : Fault}
      (part : Reads s input (.failure fault)) : Reads (optional s) input (.failure fault)
  | lookingAt {α : Type} {p : Parser α} {s : Script p} {input rest : List Char} {v : α}
      (part : Reads s input (.matched v rest)) : Reads (lookingAt s) input (.matched true input)
  | lookingAway {α : Type} {p : Parser α} {s : Script p} {input : List Char} {reply : Reply α}
      (part : Reads s input reply) (h : ∀ v rest, reply ≠ .matched v rest) :
    Reads (lookingAt s) input (.matched false input)
  | again {α : Type} {p : Parser α} {s : Script p} {h : Takes p} {input mid rest : List Char}
      {v : α} {vs : List α} (round : Reads s input (.matched v mid))
      (others : Reads (many s h) mid (.matched vs rest)) :
    Reads (many s h) input (.matched (v :: vs) rest)
  | againFailure {α : Type} {p : Parser α} {s : Script p} {h : Takes p} {input mid : List Char}
      {v : α} {fault : Fault} (round : Reads s input (.matched v mid))
      (others : Reads (many s h) mid (.failure fault)) : Reads (many s h) input (.failure fault)
  | done {α : Type} {p : Parser α} {s : Script p} {h : Takes p} {input : List Char} {fault : Fault}
      (round : Reads s input (.mismatch fault)) : Reads (many s h) input (.matched [] input)
  | broken {α : Type} {p : Parser α} {s : Script p} {h : Takes p} {input : List Char}
      {fault : Fault} (round : Reads s input (.failure fault)) :
    Reads (many s h) input (.failure fault)

/-- `Reads` for the script of a loop, from `Reads` for the script of its body. By induction on the
length of what is left, which every round shortens. -/
theorem reads_many {s : Script p} (h : Takes p) (hs : ∀ input, s.Reads input (p input))
    (input : List Char) : (many s h).Reads input (Parser.many p input) := by
  induction hn : input.length using Nat.strong_induction_on generalizing input with
  | _ n ih =>
    subst hn
    have hround := hs input
    rw [h.many_eq input]
    cases hp : p input with
    | matched v mid =>
      have hothers := ih _ (h _ _ _ hp).2 mid rfl
      rw [hp] at hround
      dsimp only
      cases hmany : Parser.many p mid with
      | matched vs rest => exact .again hround (hmany ▸ hothers)
      | failure fault => exact .againFailure hround (hmany ▸ hothers)
      | mismatch fault => exact absurd hmany h.many_ne_mismatch
    | mismatch fault => exact .done (hp ▸ hround)
    | failure fault => exact .broken (hp ▸ hround)

/-- Reading by a `Script` comes to the reply of its parser, whatever the input. -/
theorem reads (s : Script p) (input : List Char) : s.Reads input (p input) := by
  induction s generalizing input with
  | leaf h => exact .leaf h
  | @bind _ _ p f s t ihs iht =>
    have hfirst := ihs input
    cases hp : p input <;> rw [hp] at hfirst
    · rw [bind_of_matched hp]
      exact .bind hfirst (iht _ _)
    · rw [bind_of_mismatch hp]
      exact .bindMismatch hfirst
    · rw [bind_of_failure hp]
      exact .bindFailure hfirst
  | @commit _ p s ih =>
    have hpart := ih input
    unfold Parser.commit
    cases hp : p input <;> rw [hp] at hpart
    · exact .commit hpart (by simp)
    · exact .commitMismatch hpart
    · exact .commit hpart (by simp)
  | @orElse _ p q s t ihs iht =>
    have hfirst := ihs input
    have hsecond := iht input
    unfold Parser.orElse
    cases hp : p input <;> rw [hp] at hfirst
    · exact .orElse hfirst (by simp)
    · dsimp only
      cases hq : q input <;> rw [hq] at hsecond
      · exact .orElseSecond hfirst hsecond (by simp)
      · exact .orElseNeither hfirst hsecond
      · exact .orElseSecond hfirst hsecond (by simp)
    · exact .orElse hfirst (by simp)
  | @optional _ p s ih =>
    have hpart := ih input
    unfold Parser.optional
    cases hp : p input <;> rw [hp] at hpart
    · exact .optional hpart
    · exact .optionalMismatch hpart
    · exact .optionalFailure hpart
  | @lookingAt _ p s ih =>
    have hpart := ih input
    unfold Parser.lookingAt
    cases hp : p input <;> rw [hp] at hpart
    · exact .lookingAt hpart
    · exact .lookingAway hpart (by simp)
    · exact .lookingAway hpart (by simp)
  | many s h ih => exact reads_many h ih input

/-- No other reply is come to: `Reads` is a function of script and input, and its value is that of
the parser. -/
theorem Reads.eq {s : Script p} {input : List Char} {reply : Reply α}
    (h : s.Reads input reply) : p input = reply := by
  induction h with
  | leaf h => rfl
  | bind _ _ ihfirst ihsecond => rw [bind_of_matched ihfirst, ihsecond]
  | bindMismatch _ ih => exact bind_of_mismatch ih
  | bindFailure _ ih => exact bind_of_failure ih
  | commit _ hreply ih => exact commit_of_ne_mismatch ih hreply
  | commitMismatch _ ih => simp only [Parser.commit, ih]
  | orElse _ hreply ih => exact orElse_of_ne_mismatch ih hreply
  | orElseSecond _ _ hreply ihfirst ihsecond =>
    exact orElse_of_mismatch_of_ne_mismatch ihfirst ihsecond hreply
  | orElseNeither _ _ ihfirst ihsecond => exact orElse_mismatch ihfirst ihsecond
  | optional _ ih => exact optional_of_matched ih
  | optionalMismatch _ ih => exact optional_of_mismatch ih
  | optionalFailure _ ih => simp only [Parser.optional, ih]
  | lookingAt _ ih => exact lookingAt_of_matched ih
  | lookingAway _ hreply ih => exact lookingAt_of_ne_matched ih hreply
  -- The loop equation holds since the body takes something, which its script carries.
  | @again _ _ _ h _ _ _ _ _ _ _ ihround ihothers =>
    rw [h.many_eq, ihround]
    simp only [ihothers]
  | @againFailure _ _ _ h _ _ _ _ _ _ ihround ihothers =>
    rw [h.many_eq, ihround]
    simp only [ihothers]
  | @done _ _ _ h _ _ _ ih => rw [h.many_eq, ih]
  | @broken _ _ _ h _ _ _ ih => rw [h.many_eq, ih]

/-- Reading by a `Script` comes to an end on every input, with one reply, which is that of the
parser. -/
theorem reads_iff (s : Script p) {input : List Char} {reply : Reply α} :
    s.Reads input reply ↔ reply = p input :=
  ⟨fun h => h.eq.symm, fun h => h ▸ s.reads input⟩

/-! ## Scripts of combinators and lexemes -/

protected def pure (v : α) : Script (pure v) := .leaf (.pure v)

/-- Which script is followed may depend on a condition, as in a rule with `if`. -/
def ite {c : Prop} [decision : Decidable c] (s : Script p) (t : Script q) :
    Script (if c then p else q) :=
  match decision with
  | isTrue _ => s
  | isFalse _ => t

/-- The script of a parser is one of every parser that is equal to it; `suffixOf_eq` and
`statementOf_eq` are such equations. -/
def ofEq (h : p = q) (s : Script q) : Script p := h ▸ s

def many1 (s : Script p) (h : Takes p) : Script (many1 p) :=
  .bind s fun _ => .bind (.many s h) fun _ => .pure _

def sepBy1 (text : String) (s : Script p) (h : Takes p) :
    Script (Parser.sepBy1 (symbol text) p) :=
  .bind s fun _ => .bind (.many (.bind (.leaf (.symbol text)) fun _ => s)
    (.behind (takes_symbol text).keeps fun _ => h)) fun _ => .pure _

def commaList (text : String) (s : Script p) (h : Takes p) :
    Script (Parser.commaList (symbol text) p) :=
  .bind s fun _ => .bind (.many (.bind (.leaf (.symbol text)) fun _ => .commit s)
    (.behind (takes_symbol text).keeps fun _ => h.commit)) fun _ => .pure _

def anyWord : Script anyWord := .leaf (.wordWhere _)

def identifier : Script identifier := .leaf (.wordWhere _)

def typeName : Script typeName := .leaf (.wordWhere _)

def declaredName : Script declaredName := .bind (.leaf .nextWord) fun
  | none => .leaf (.mismatch _)
  | some _ => .ite (.leaf (.fail _)) (.ite (.leaf (.fail _)) anyWord)

def boolLiteral : Script boolLiteral :=
  .orElse (.bind (.leaf (.keyword _)) fun _ => .pure _)
    (.bind (.leaf (.keyword _)) fun _ => .pure _)

end Script

end Parser

end ShaderMinifier
