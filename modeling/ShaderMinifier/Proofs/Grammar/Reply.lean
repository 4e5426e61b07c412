import Mathlib
import ShaderMinifier.Grammar.Parser

/-
  How the combinators reply. The lemmas `..._of_matched` and `..._of_mismatch` go forward: from
  what a part does on an input to what the whole does on it. The lemmas `matched_...` go back:
  from a match of the whole to the matches of its parts. `Steps` says what the rounds of `many`
  read, and `many_invariant` carries an invariant along them. `Yields` is a property of all the
  values that a parser gives.
-/

namespace ShaderMinifier

namespace Parser

variable {α β : Type}

/-! ## Forward -/

theorem bind_of_matched {p : Parser α} {f : α → Parser β} {input rest : List Char} {v : α}
    (h : p input = .matched v rest) : (p >>= f) input = f v rest := by
  show Parser.bind p f input = _
  simp only [Parser.bind, h]

theorem bind_of_mismatch {p : Parser α} {f : α → Parser β} {input : List Char} {fault : Fault}
    (h : p input = .mismatch fault) : (p >>= f) input = .mismatch fault := by
  show Parser.bind p f input = _
  simp only [Parser.bind, h]

theorem bind_of_failure {p : Parser α} {f : α → Parser β} {input : List Char} {fault : Fault}
    (h : p input = .failure fault) : (p >>= f) input = .failure fault := by
  show Parser.bind p f input = _
  simp only [Parser.bind, h]

theorem pure_apply (v : α) (input : List Char) : (pure v : Parser α) input = .matched v input := rfl

theorem here_bind (f : List Char → Parser β) (input : List Char) :
    (here >>= f) input = f input input := rfl

theorem map_of_matched {p : Parser α} {f : α → β} {input rest : List Char} {v : α}
    (h : p input = .matched v rest) : (f <$> p) input = .matched (f v) rest :=
  bind_of_matched h

theorem commit_of_matched {p : Parser α} {input rest : List Char} {v : α}
    (h : p input = .matched v rest) : commit p input = .matched v rest := by
  simp only [commit, h]

theorem orElse_of_matched {p q : Parser α} {input rest : List Char} {v : α}
    (h : p input = .matched v rest) : orElse p q input = .matched v rest := by
  simp only [orElse, h]

theorem orElse_of_mismatch {p q : Parser α} {input rest : List Char} {v : α} {fault : Fault}
    (hp : p input = .mismatch fault) (hq : q input = .matched v rest) :
    orElse p q input = .matched v rest := by
  simp only [orElse, hp, hq]

theorem orElse_mismatch {p q : Parser α} {input : List Char} {f g : Fault}
    (hp : p input = .mismatch f) (hq : q input = .mismatch g) :
    orElse p q input = .mismatch (f.further g) := by
  simp only [orElse, hp, hq]

theorem optional_of_matched {p : Parser α} {input rest : List Char} {v : α}
    (h : p input = .matched v rest) : optional p input = .matched (some v) rest := by
  simp only [optional, h]

theorem optional_of_mismatch {p : Parser α} {input : List Char} {fault : Fault}
    (h : p input = .mismatch fault) : optional p input = .matched none input := by
  simp only [optional, h]

theorem lookingAt_of_matched {p : Parser α} {input rest : List Char} {v : α}
    (h : p input = .matched v rest) : lookingAt p input = .matched true input := by
  simp only [lookingAt, h]

theorem lookingAt_of_mismatch {p : Parser α} {input : List Char} {fault : Fault}
    (h : p input = .mismatch fault) : lookingAt p input = .matched false input := by
  simp only [lookingAt, h]

/-- The parser matches these values one after the other, each on at least one character, and leaves
`rest`; the rounds of `many`. -/
inductive Steps (p : Parser α) : List Char → List α → List Char → Prop
  | nil {input : List Char} : Steps p input [] input
  | cons {input mid rest : List Char} {v : α} {vs : List α} (h : p input = .matched v mid)
      (hlt : mid.length < input.length) (others : Steps p mid vs rest) :
    Steps p input (v :: vs) rest

namespace Steps

variable {p : Parser α} {input mid rest : List Char} {v : α} {vs ws : List α}

theorem one (h : p input = .matched v rest) (hlt : rest.length < input.length) :
    Steps p input [v] rest :=
  .cons h hlt .nil

theorem append (h : Steps p input vs mid) (h' : Steps p mid ws rest) :
    Steps p input (vs ++ ws) rest := by
  induction h with
  | nil => exact h'
  | cons h hlt _ ih => exact .cons h hlt (ih h')

theorem length_le (h : Steps p input vs rest) : vs.length + rest.length ≤ input.length := by
  induction h with
  | nil => simp
  | cons _ hlt _ ih =>
    simp only [List.length_cons]
    omega

theorem manyUpTo (h : Steps p input vs rest) {fault : Fault} (hstop : p rest = .mismatch fault)
    {gas : List Char} (hgas : vs.length ≤ gas.length) :
    Parser.manyUpTo p gas input = .matched vs rest := by
  induction h generalizing gas with
  | nil => cases gas <;> simp only [Parser.manyUpTo, hstop]
  | cons h _ _ ih =>
    cases gas with
    | nil => simp at hgas
    | cons c gas => simp only [Parser.manyUpTo, h, ih hstop (by simpa using hgas)]

theorem many (h : Steps p input vs rest) {fault : Fault} (hstop : p rest = .mismatch fault) :
    Parser.many p input = .matched vs rest := by
  have hlen := h.length_le
  exact h.manyUpTo hstop (by omega)

end Steps

theorem many1_of_steps {p : Parser α} {input mid rest : List Char} {v : α} {vs : List α}
    {fault : Fault} (h : p input = .matched v mid) (hs : Steps p mid vs rest)
    (hstop : p rest = .mismatch fault) : many1 p input = .matched (v :: vs) rest := by
  rw [many1, bind_of_matched h, bind_of_matched (hs.many hstop), pure_apply]

/-! ## Backward -/

theorem matched_bind {p : Parser α} {f : α → Parser β} {input rest : List Char} {w : β} :
    (p >>= f) input = .matched w rest ↔
      ∃ v mid, p input = .matched v mid ∧ f v mid = .matched w rest := by
  show Parser.bind p f input = _ ↔ _
  unfold Parser.bind
  cases h : p input <;> simp

theorem matched_pure {v w : α} {input rest : List Char} :
    (pure v : Parser α) input = .matched w rest ↔ v = w ∧ input = rest := by
  rw [pure_apply, Reply.matched.injEq]

theorem matched_commit {p : Parser α} {input rest : List Char} {v : α} :
    commit p input = .matched v rest ↔ p input = .matched v rest := by
  unfold commit
  cases h : p input <;> simp

theorem matched_orElse {p q : Parser α} {input rest : List Char} {v : α}
    (h : orElse p q input = .matched v rest) :
    p input = .matched v rest ∨ q input = .matched v rest := by
  unfold orElse at h
  cases hp : p input with
  | matched w r => exact .inl (by simpa [hp] using h)
  | failure f => simp [hp] at h
  | mismatch f =>
    cases hq : q input with
    | matched w r => exact .inr (by simpa [hp, hq] using h)
    | failure g => simp [hp, hq] at h
    | mismatch g => simp [hp, hq] at h

theorem matched_optional {p : Parser α} {input rest : List Char} {v : Option α} :
    optional p input = .matched v rest ↔ (∃ w, v = some w ∧ p input = .matched w rest) ∨
      (v = none ∧ rest = input ∧ ∃ fault, p input = .mismatch fault) := by
  unfold optional
  cases h : p input with
  | matched w r =>
    simp only [Reply.matched.injEq, reduceCtorEq, exists_false, and_false, or_false]
    constructor
    · rintro ⟨rfl, rfl⟩
      exact ⟨w, rfl, rfl, rfl⟩
    · rintro ⟨u, rfl, rfl, rfl⟩
      exact ⟨rfl, rfl⟩
  | mismatch f =>
    simp only [Reply.matched.injEq, reduceCtorEq, and_false, exists_false, false_or,
      Reply.mismatch.injEq, exists_eq', and_true]
    rw [eq_comm, @eq_comm _ input rest]
  | failure f => simp

theorem matched_lookingAt {p : Parser α} {input rest : List Char} {b : Bool} :
    lookingAt p input = .matched b rest ↔
      rest = input ∧ (b = true ↔ ∃ v r, p input = .matched v r) := by
  unfold lookingAt
  cases h : p input <;> cases b <;> simp [eq_comm]

theorem many_invariant {p : Parser α} {I : List α → List Char → Prop}
    (step : ∀ vs input v rest, I vs input → p input = .matched v rest → I (vs ++ [v]) rest)
    {input rest : List Char} {vs : List α} (h0 : I [] input)
    (h : many p input = .matched vs rest) : I vs rest := by
  -- the rounds before are kept in `before`
  have key : ∀ (gas before input vs rest), I before input →
      manyUpTo p gas input = .matched vs rest → I (before ++ vs) rest := by
    intro gas
    induction gas with
    | nil =>
      intro before input vs rest hinv hm
      unfold manyUpTo at hm
      cases hp : p input <;> simp only [hp, Reply.matched.injEq, reduceCtorEq] at hm
      all_goals
        obtain ⟨rfl, rfl⟩ := hm
        simpa using hinv
    | cons c gas ih =>
      intro before input vs rest hinv hm
      unfold manyUpTo at hm
      cases hp : p input with
      | failure f => simp [hp] at hm
      | mismatch f =>
        simp only [hp, Reply.matched.injEq] at hm
        obtain ⟨rfl, rfl⟩ := hm
        simpa using hinv
      | matched v mid =>
        simp only [hp] at hm
        cases hrest : manyUpTo p gas mid with
        | failure f => simp [hrest] at hm
        | mismatch f => simp [hrest] at hm
        | matched ws last =>
          simp only [hrest, Reply.matched.injEq] at hm
          obtain ⟨rfl, rfl⟩ := hm
          have := ih (before ++ [v]) mid ws last (step before input v mid hinv hp) hrest
          simpa using this
  simpa using key input [] input vs rest h0 h

/-! ## What a parser gives -/

/-- Every value that the parser gives has the property `Q`, whatever the input. Invariants of trees
that were read are of this form. -/
def Yields (p : Parser α) (Q : α → Prop) : Prop :=
  ∀ input v rest, p input = .matched v rest → Q v

namespace Yields

variable {p q : Parser α} {P Q : α → Prop} {R : β → Prop}

theorem mono (h : Yields p P) (hPQ : ∀ v, P v → Q v) : Yields p Q :=
  fun input v rest hm => hPQ v (h input v rest hm)

theorem trivial (p : Parser α) : Yields p fun _ => True := fun _ _ _ _ => True.intro

theorem pure {v : α} (h : Q v) : Yields (pure v) Q := by
  intro input w rest hm
  obtain ⟨rfl, -⟩ := matched_pure.1 hm
  exact h

theorem bind {f : α → Parser β} (hp : Yields p P) (hf : ∀ v, P v → Yields (f v) R) :
    Yields (p >>= f) R := by
  intro input w rest hm
  obtain ⟨v, mid, hv, hw⟩ := matched_bind.1 hm
  exact hf v (hp _ _ _ hv) _ _ _ hw

theorem skip {f : α → Parser β} (hf : ∀ v, Yields (f v) R) : Yields (p >>= f) R :=
  bind (trivial p) fun v _ => hf v

theorem map {f : α → β} (hp : Yields p P) (hf : ∀ v, P v → R (f v)) : Yields (f <$> p) R :=
  bind hp fun v hv => pure (hf v hv)

theorem fail (cause : Cause) : Yields (Parser.fail cause) Q := by
  intro input v rest h
  cases h

theorem failAt (place : List Char) (cause : Cause) : Yields (Parser.failAt place cause) Q := by
  intro input v rest h
  cases h

theorem mismatch (cause : Cause) : Yields (Parser.mismatch cause) Q := by
  intro input v rest h
  cases h

theorem mismatchAt (place : List Char) (cause : Cause) :
    Yields (Parser.mismatchAt place cause) Q := by
  intro input v rest h
  cases h

theorem commit (h : Yields p Q) : Yields (commit p) Q :=
  fun input v rest hm => h input v rest (matched_commit.1 hm)

theorem orElse (hp : Yields p Q) (hq : Yields q Q) : Yields (orElse p q) Q := by
  intro input v rest hm
  rcases matched_orElse hm with hm | hm
  · exact hp _ _ _ hm
  · exact hq _ _ _ hm

theorem optional (h : Yields p Q) : Yields (optional p) fun o => ∀ v ∈ o, Q v := by
  intro input o rest hm v hv
  rcases matched_optional.1 hm with ⟨w, rfl, hw⟩ | ⟨rfl, -⟩
  · obtain rfl : w = v := by simpa using hv
    exact h _ _ _ hw
  · cases hv

theorem many (h : Yields p Q) : Yields (many p) fun vs => ∀ v ∈ vs, Q v := by
  intro input vs rest hm
  refine many_invariant (I := fun vs _ => ∀ v ∈ vs, Q v) ?_ (by simp) hm
  intro vs input v rest hvs hv w hw
  rcases List.mem_append.1 hw with hw | hw
  · exact hvs w hw
  · obtain rfl : w = v := by simpa using hw
    exact h _ _ _ hv

theorem many1 (h : Yields p Q) : Yields (many1 p) fun vs => vs ≠ [] ∧ ∀ v ∈ vs, Q v := by
  refine bind h fun first hfirst => bind h.many fun others hothers => pure ⟨by simp, ?_⟩
  intro v hv
  rcases List.mem_cons.1 hv with rfl | hv
  · exact hfirst
  · exact hothers v hv

theorem sepBy1 {sep : Parser β} (h : Yields p Q) :
    Yields (sepBy1 sep p) fun vs => vs ≠ [] ∧ ∀ v ∈ vs, Q v := by
  refine bind h fun first hfirst =>
    bind (many (skip fun _ => h)) fun others hothers => pure ⟨by simp, ?_⟩
  intro v hv
  rcases List.mem_cons.1 hv with rfl | hv
  · exact hfirst
  · exact hothers v hv

theorem commaList {sep : Parser β} (h : Yields p Q) :
    Yields (commaList sep p) fun vs => vs ≠ [] ∧ ∀ v ∈ vs, Q v := by
  refine bind h fun first hfirst =>
    bind (many (skip fun _ => h.commit)) fun others hothers => pure ⟨by simp, ?_⟩
  intro v hv
  rcases List.mem_cons.1 hv with rfl | hv
  · exact hfirst
  · exact hothers v hv

end Yields

/-! ## Whole sources -/

theorem run_eq_ok {p : Parser α} {source : String} {v : α} :
    p.run source = .ok v ↔ p source.toList = .matched v [] := by
  unfold run
  cases h : p source.toList with
  | matched w rest => cases rest <;> simp
  | mismatch f => simp
  | failure f => simp

end Parser

end ShaderMinifier
