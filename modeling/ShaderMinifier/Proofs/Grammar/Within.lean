import ShaderMinifier.Proofs.Grammar.Progress

/-
  Where parsers stop and where they find fault. A fault may be reported at a place that was passed
  before, so its place is no end of the parser's own input; but every place that a parser can keep
  is an end of the whole source, and so are what it leaves and where its parts find fault. `Within`
  says this of a parser, and every combinator keeps it.
-/

namespace ShaderMinifier

variable {α β : Type} {source : List Char}

/-- What the reply points at, a rest or the place of a `Fault`, is an end of the source. -/
def Reply.Within (source : List Char) : Reply α → Prop
  | .matched _ rest => rest <:+ source
  | .mismatch fault => fault.rest <:+ source
  | .failure fault => fault.rest <:+ source

theorem Fault.rest_further {earlier later : Fault} (h : earlier.rest <:+ source)
    (h' : later.rest <:+ source) : (earlier.further later).rest <:+ source := by
  unfold further
  split
  · exact h
  · split
    · exact h
    · exact h'

namespace Parser

/-- Read from an end of the source, the parser replies with ends of the source (`Reply.Within`). -/
def Within (source : List Char) (p : Parser α) : Prop :=
  ∀ input, input <:+ source → (p input).Within source

/-! ## Combinators -/

namespace Within

variable {p q : Parser α}

theorem pure (v : α) : Within source (pure v) := fun _ hin => hin

theorem bind {f : α → Parser β} (hp : Within source p) (hf : ∀ v, Within source (f v)) :
    Within source (p >>= f) := by
  intro input hin
  have hreply := hp input hin
  show (Parser.bind p f input).Within source
  unfold Parser.bind
  cases hp : p input <;> rw [hp] at hreply
  · exact hf _ _ hreply
  · exact hreply
  · exact hreply

/-- The place that `here` keeps is an end of the source, so a later `failAt` may point at it. -/
theorem here {f : List Char → Parser β} (hf : ∀ place, place <:+ source → Within source (f place)) :
    Within source (here >>= f) := fun input hin => hf input hin input hin

theorem fail (cause : Cause) : Within source (fail cause : Parser α) := fun _ hin => hin

theorem failAt {place : List Char} (hplace : place <:+ source) (cause : Cause) :
    Within source (failAt place cause : Parser α) := fun _ _ => hplace

theorem mismatch (cause : Cause) : Within source (mismatch cause : Parser α) := fun _ hin => hin

theorem mismatchAt {place : List Char} (hplace : place <:+ source) (cause : Cause) :
    Within source (mismatchAt place cause : Parser α) := fun _ _ => hplace

theorem commit (h : Within source p) : Within source (commit p) := by
  intro input hin
  have hreply := h input hin
  unfold Parser.commit
  cases hp : p input <;> rw [hp] at hreply <;> exact hreply

theorem orElse (hp : Within source p) (hq : Within source q) : Within source (orElse p q) := by
  intro input hin
  have hfirst := hp input hin
  have hsecond := hq input hin
  unfold Parser.orElse
  cases hp : p input <;> rw [hp] at hfirst
  · exact hfirst
  · cases hq : q input <;> rw [hq] at hsecond
    · exact hsecond
    · exact Fault.rest_further hfirst hsecond
    · exact hsecond
  · exact hfirst

theorem optional (h : Within source p) : Within source (optional p) := by
  intro input hin
  have hreply := h input hin
  unfold Parser.optional
  cases hp : p input <;> rw [hp] at hreply
  · exact hreply
  · exact hin
  · exact hreply

/-- `lookingAt` takes nothing and finds no fault, whatever its parser does. -/
theorem lookingAt (p : Parser α) : Within source (lookingAt p) := by
  intro input hin
  unfold Parser.lookingAt
  cases p input <;> exact hin

theorem manyUpTo (h : Within source p) (gas : List Char) : Within source (manyUpTo p gas) := by
  intro input hin
  induction gas generalizing input with
  | nil =>
    have hreply := h input hin
    unfold Parser.manyUpTo
    cases hp : p input <;> rw [hp] at hreply
    · exact hin
    · exact hin
    · exact hreply
  | cons c gas ih =>
    have hreply := h input hin
    unfold Parser.manyUpTo
    cases hp : p input with
    | matched v rest =>
      rw [hp] at hreply
      have hothers := ih rest hreply
      dsimp only
      cases hmany : Parser.manyUpTo p gas rest <;> rw [hmany] at hothers <;> exact hothers
    | mismatch fault => exact hin
    | failure fault =>
      rw [hp] at hreply
      exact hreply

theorem many (h : Within source p) : Within source (many p) :=
  fun input hin => h.manyUpTo input input hin

theorem many1 (h : Within source p) : Within source (many1 p) :=
  h.bind fun _ => h.many.bind fun _ => .pure _

theorem sepBy1 {separator : Parser β} (hs : Within source separator) (h : Within source p) :
    Within source (sepBy1 separator p) :=
  h.bind fun _ => (Within.many (hs.bind fun _ => h)).bind fun _ => .pure _

theorem commaList {separator : Parser β} (hs : Within source separator) (h : Within source p) :
    Within source (commaList separator p) :=
  h.bind fun _ => (Within.many (hs.bind fun _ => h.commit)).bind fun _ => .pure _

end Within

/-! ## Lexemes -/

theorem within_blank : Within source blank :=
  fun input hin => (Blank.skip_suffix input).trans hin

theorem within_symbolWhere (choose : String → Option α) : Within source (symbolWhere choose) := by
  intro input hin
  unfold symbolWhere
  split
  · next hhead =>
    split
    · exact (skip_of_suffix (Symbol.atHead?_suffix hhead)).1.trans hin
    · exact hin
  · exact hin

theorem within_symbol (text : String) : Within source (symbol text) := by
  intro input hin
  unfold symbol
  split
  · next hhead =>
    split
    · exact (skip_of_suffix (Symbol.atHead?_suffix hhead)).1.trans hin
    · exact hin
  · exact hin

theorem within_wordWhere (choose : String → Option α) : Within source (wordWhere choose) := by
  intro input hin
  unfold wordWhere
  split
  · next hhead =>
    split
    · exact (skip_of_suffix (Word.atHead?_suffix hhead)).1.trans hin
    · exact hin
  · exact hin

theorem within_keyword (word : String) : Within source (keyword word) := by
  intro input hin
  unfold keyword
  split
  · next hhead =>
    split
    · exact (skip_of_suffix (Word.atHead?_suffix hhead)).1.trans hin
    · exact hin
  · exact hin

theorem within_nextWord : Within source nextWord := fun _ hin => hin

theorem within_anyWord : Within source anyWord := within_wordWhere _

theorem within_declaredName : Within source declaredName := by
  refine within_nextWord.bind fun word => ?_
  cases word with
  | none => exact .mismatch _
  | some word =>
    dsimp only
    split
    · exact .fail _
    · split
      · exact .fail _
      · exact within_anyWord

end Parser

namespace FloatLiteral

theorem exponentAtHead_error {input place : List Char} (h : exponentAtHead input = .error place) :
    place <:+ input := by
  cases input with
  | nil =>
    obtain rfl := Except.error.inj h
    exact List.suffix_refl _
  | cons mark input =>
    simp only [exponentAtHead] at h
    split at h
    · split at h
      · obtain rfl := Except.error.inj h
        exact (List.drop_suffix _ _).trans (List.suffix_cons _ _)
      · cases h
    · obtain rfl := Except.error.inj h
      exact List.suffix_refl _

theorem lexemeAtHead_error {input place : List Char} (h : lexemeAtHead input = .error place) :
    place <:+ input := by
  have hdrop := List.dropWhile_suffix (l := input) Char.isDigit
  unfold lexemeAtHead at h
  simp only at h
  split at h
  · next rest hrest =>
    rw [hrest] at hdrop
    split at h
    · obtain rfl := Except.error.inj h
      exact (List.suffix_cons _ _).trans hdrop
    · split at h <;> cases h
  · split at h
    · obtain rfl := Except.error.inj h
      exact List.suffix_refl _
    · split at h
      · cases h
      · next hexp =>
        obtain rfl := Except.error.inj h
        exact (exponentAtHead_error hexp).trans hdrop

end FloatLiteral

namespace Parser

theorem within_floatLiteral : Within source floatLiteral := by
  intro input hin
  unfold floatLiteral
  split
  · next hhead => exact (skip_of_suffix (FloatLiteral.lexemeAtHead_suffix hhead)).1.trans hin
  · next hhead => exact (FloatLiteral.lexemeAtHead_error hhead).trans hin

theorem within_intLiteral : Within source intLiteral := by
  intro input hin
  unfold intLiteral
  split
  · next hhead =>
    have hrest := Integer.atHead?_suffix hhead
    split
    · split
      · exact hrest.1.trans hin
      · exact (skip_of_suffix hrest).1.trans hin
    · exact hrest.1.trans hin
  · exact hin

theorem within_boolLiteral : Within source boolLiteral :=
  .orElse ((within_keyword _).bind fun _ => .pure _) ((within_keyword _).bind fun _ => .pure _)

end Parser

end ShaderMinifier
