import ShaderMinifier.Proofs.Text.Clean
import ShaderMinifier.Proofs.Text.Lexed

/-
  Accounts of the lexemes that parsers read. A `Ledger` says which pieces are accounted for once
  an input is left: each piece that is read adds itself, and leaving pieces out does no harm. A
  parser `Transcribes` its values if the pieces that the writer puts for a value are accounted for
  in every ledger, behind what stood there before. The combinators pass this on.
-/

namespace ShaderMinifier

open ShaderMinifier.Parser

open scoped List

/-- Pieces that are accounted for when an input is left. A `Ledger` is any such relation that may
drop pieces and gains each lexeme that is read. -/
structure Ledger where
  /-- Once the input is left, the pieces have been read, in their order; the relation that
  `Transcribes` keeps going. -/
  Holds : List Char → List Piece → Prop
  /-- Pieces may be left out: what is accounted for is closed under sublists. -/
  drop : ∀ {input : List Char} {ps qs : List Piece}, Holds input ps → qs <+ ps → Holds input qs
  /-- A lexeme that is read (`AtHead`) is added at the end. -/
  add : ∀ {p : Piece} {input rest : List Char} {ps : List Piece}, p.AtHead input rest →
    Holds input ps → Holds (Blank.skip rest) (ps ++ [p])

namespace Ledger

/-- The lexemes that lead from `start` to the input, by `Lexed`, and all sublists of them. -/
def lexemes (start : List Char) : Ledger where
  Holds input ps := ∃ ls, Lexed start ls input ∧ ps <+ ls
  drop := by
    rintro input ps qs ⟨ls, hls, hps⟩ hqs
    exact ⟨ls, hls, hqs.trans hps⟩
  add := by
    rintro p input rest ps hp ⟨ls, hls, hps⟩
    exact ⟨ls ++ [p], hls.append (.one hp), hps.append (List.Sublist.refl _)⟩

end Ledger

namespace Parser

open Piece

variable {α β : Type} {L : Ledger}

theorem commaSeparated_map_cons (f : α → List Piece) (first : α) (others : List α) :
    commaSeparated ((first :: others).map f) =
      f first ++ others.flatMap fun v => .token "," :: f v := by
  induction others generalizing first with
  | nil => simp [commaSeparated]
  | cons v others ih =>
    rw [List.map_cons, commaSeparated_cons _ (by simp), ih, List.flatMap_cons, List.cons_append]

/-- What the writer puts for the value is accounted for when the parser has read it, behind all that
was accounted for before. `before` holds pieces of the value that were read already. -/
def Transcribes (L : Ledger) (before : List Piece) (p : Parser α) (written : α → List Piece) :
    Prop :=
  ∀ lead input v rest, L.Holds input (lead ++ before) → p input = .matched v rest →
    L.Holds rest (lead ++ written v)

namespace Transcribes

variable {before : List Piece} {p q : Parser α} {f g : α → List Piece} {h : β → List Piece}

theorem mono (hp : Transcribes L before p f) (hgf : ∀ v, g v <+ f v) : Transcribes L before p g :=
  fun lead input v rest hin hm => L.drop (hp lead input v rest hin hm) ((hgf v).append_left lead)

theorem lead (hp : Transcribes L before p f) (more : List Piece) :
    Transcribes L (more ++ before) p fun v => more ++ f v := by
  intro lead input v rest hin hm
  rw [← List.append_assoc] at hin ⊢
  exact hp (lead ++ more) input v rest hin hm

theorem behind (hp : Transcribes L [] p f) (before : List Piece) :
    Transcribes L before p fun v => before ++ f v := by
  have hout := hp.lead before
  rwa [List.append_nil] at hout

theorem pure {v : α} (hv : f v <+ before) : Transcribes L before (pure v) f := by
  intro lead input w rest hin hm
  obtain ⟨rfl, rfl⟩ := matched_pure.1 hm
  exact L.drop hin (hv.append_left lead)

theorem bind {k : α → Parser β} (hp : Transcribes L before p f)
    (hk : ∀ v, Transcribes L (f v) (k v) h) : Transcribes L before (p >>= k) h := by
  intro lead input w rest hin hm
  obtain ⟨v, mid, hv, hw⟩ := matched_bind.1 hm
  exact hk v lead mid w rest (hp lead input v mid hin hv) hw

theorem fail (cause : Cause) : Transcribes L before (fail cause) f := by
  intro lead input v rest hin hm
  cases hm

theorem failAt (place : List Char) (cause : Cause) :
    Transcribes L before (failAt place cause) f := by
  intro lead input v rest hin hm
  cases hm

theorem mismatch (cause : Cause) : Transcribes L before (mismatch cause) f := by
  intro lead input v rest hin hm
  cases hm

theorem mismatchAt (place : List Char) (cause : Cause) :
    Transcribes L before (mismatchAt place cause) f := by
  intro lead input v rest hin hm
  cases hm

theorem commit (hp : Transcribes L before p f) : Transcribes L before (commit p) f :=
  fun lead input v rest hin hm => hp lead input v rest hin (matched_commit.1 hm)

theorem orElse (hp : Transcribes L before p f) (hq : Transcribes L before q f) :
    Transcribes L before (orElse p q) f := by
  intro lead input v rest hin hm
  rcases matched_orElse hm with hm | hm
  · exact hp _ _ _ _ hin hm
  · exact hq _ _ _ _ hin hm

/-- Where `optional` has no value, nothing is written for it, and `before` is what stays. -/
theorem optional (hp : Transcribes L before p f) :
    Transcribes L before (optional p) fun o => o.elim before f := by
  intro lead input o rest hin hm
  rcases matched_optional.1 hm with ⟨w, rfl, hw⟩ | ⟨rfl, rfl, -⟩
  · exact hp _ _ _ _ hin hw
  · exact hin

theorem here : Transcribes L before here fun _ => before := by
  intro lead input v rest hin hm
  cases hm
  exact hin

theorem lookingAt : Transcribes L before (lookingAt p) fun _ => before := by
  intro lead input v rest hin hm
  obtain ⟨rfl, -⟩ := matched_lookingAt.1 hm
  exact hin

theorem nextWord : Transcribes L before nextWord fun _ => before := by
  intro lead input v rest hin hm
  cases hm
  exact hin

theorem many (hp : Transcribes L [] p f) (before : List Piece) :
    Transcribes L before (many p) fun vs => before ++ vs.flatMap f := by
  intro lead start vs rest hin hm
  refine many_invariant (I := fun vs input => L.Holds input (lead ++ (before ++ vs.flatMap f)))
    ?_ (by simpa using hin) hm
  intro vs input v rest hvs hv
  have hout := hp.behind (before ++ vs.flatMap f) lead input v rest hvs hv
  rw [List.flatMap_append, List.flatMap_singleton]
  simpa using hout

theorem many1 (hp : Transcribes L [] p f) :
    Transcribes L [] (many1 p) fun vs => vs.flatMap f :=
  hp.bind fun first => (hp.many (f first)).bind fun _ => .pure (by simp)

theorem separated {next : Parser α} (hp : Transcribes L [] p f) (hnext : Transcribes L [] next f)
    {separator : Parser β} (hs : Transcribes L [] separator fun _ => [.token ","]) :
    Transcribes L [] (do
      let first ← p
      let others ← Parser.many (do let _ ← separator; next)
      return first :: others) fun vs => commaSeparated (vs.map f) := by
  have hround : Transcribes L [] (do let _ ← separator; next) fun v => .token "," :: f v :=
    hs.bind fun _ => hnext.behind [.token ","]
  refine hp.bind fun first => (hround.many (f first)).bind fun others => pure ?_
  rw [commaSeparated_map_cons]

end Transcribes

/-! ## Lexemes -/

theorem transcribes_symbol {t : String} (ht : t ≠ ".") :
    Transcribes L [] (symbol t) fun _ => [.token t] := by
  intro lead input v rest hin hm
  unfold symbol at hm
  split at hm
  · next found tail hhead =>
    split at hm
    · next heq =>
      subst heq
      cases hm
      rw [List.append_nil] at hin
      exact L.add (.symbol hhead (Symbol.lexemeAtHead_error hhead ht)) hin
    · cases hm
  · cases hm

theorem transcribes_symbolWhere {choose : String → Option α} {token : α → String}
    (hpoint : choose "." = none) (htoken : ∀ text v, choose text = some v → token v = text) :
    Transcribes L [] (symbolWhere choose) fun v => [.token (token v)] := by
  intro lead input v rest hin hm
  unfold symbolWhere at hm
  split at hm
  · next found tail hhead =>
    split at hm
    · next w hw =>
      obtain ⟨rfl, rfl⟩ := Reply.matched.inj hm
      have hne : found ≠ "." := by
        rintro rfl
        rw [hpoint] at hw
        cases hw
      rw [List.append_nil] at hin
      have hout := L.add (.symbol hhead (Symbol.lexemeAtHead_error hhead hne)) hin
      rwa [← htoken found _ hw] at hout
    · cases hm
  · cases hm

theorem transcribes_keyword (word : String) :
    Transcribes L [] (keyword word) fun _ => [.token word] := by
  intro lead input v rest hin hm
  unfold keyword at hm
  split at hm
  · next found tail hhead =>
    split at hm
    · next heq =>
      subst heq
      cases hm
      rw [List.append_nil] at hin
      exact L.add (.word hhead) hin
    · cases hm
  · cases hm

theorem transcribes_wordWhere {choose : String → Option α} {token : α → String}
    (htoken : ∀ text v, choose text = some v → token v = text) :
    Transcribes L [] (wordWhere choose) fun v => [.token (token v)] := by
  intro lead input v rest hin hm
  unfold wordWhere at hm
  split at hm
  · next found tail hhead =>
    split at hm
    · next w hw =>
      obtain ⟨rfl, rfl⟩ := Reply.matched.inj hm
      rw [List.append_nil] at hin
      have hout := L.add (.word hhead) hin
      rwa [← htoken found _ hw] at hout
    · cases hm
  · cases hm

theorem transcribes_anyWord : Transcribes L [] anyWord fun w => [.token w] :=
  transcribes_wordWhere fun _ _ h => (Option.some.inj h).symm

/-- The word that `nextWord` looked at is the one that `anyWord` reads, so it is accounted for. -/
theorem Transcribes.ahead {before : List Piece} {w : String} {p : Parser α} {f : α → List Piece}
    (hp : Transcribes L (before ++ [.token w]) p f) {lead : List Piece} {input mid rest : List Char}
    {v : α} (hin : L.Holds input (lead ++ before))
    (hnext : Parser.nextWord input = .matched (some w) mid)
    (hm : (do let _ ← anyWord; p : Parser α) mid = .matched v rest) :
    L.Holds rest (lead ++ f v) := by
  obtain ⟨hword, rfl⟩ := Reply.matched.inj hnext
  obtain ⟨found, last, hany, hm⟩ := matched_bind.1 hm
  obtain ⟨⟨w', tail⟩, hhead, rfl⟩ := Option.map_eq_some_iff.1 hword
  have hfound : found = w' := by
    simp only [anyWord, wordWhere, hhead] at hany
    exact (Reply.matched.inj hany).1.symm
  have hread := transcribes_anyWord.behind before lead _ _ _ hin hany
  rw [hfound] at hread
  exact hp lead last v rest hread hm

theorem transcribes_declaredName : Transcribes L [] declaredName fun w => [.token w] := by
  refine Transcribes.nextWord.bind fun word => ?_
  split
  · exact .mismatch _
  · split
    · exact .fail _
    · split
      · exact .fail _
      · exact transcribes_anyWord

theorem transcribes_typeName : Transcribes L [] typeName fun w => [.token w] := by
  refine transcribes_wordWhere fun text v h => ?_
  split at h
  · exact (Option.some.inj h).symm
  · cases h

theorem transcribes_identifier : Transcribes L [] identifier fun w => [.token w] := by
  refine transcribes_wordWhere fun text v h => ?_
  split at h
  · cases h
  · exact (Option.some.inj h).symm

theorem transcribes_floatLiteral : Transcribes L [] floatLiteral fun f => [.number f.text] := by
  intro lead input f rest hin hm
  unfold floatLiteral at hm
  split at hm
  · next lexeme tail hread =>
    obtain ⟨rfl, rfl⟩ := Reply.matched.inj hm
    rw [List.append_nil] at hin
    exact L.add (.float hread) hin
  · cases hm

/-- The second parser of `orElse` is tried where the first one does not match, which is kept as a
fact about the first. -/
theorem matched_orElse_mismatch {p q : Parser α} {input rest : List Char} {v : α}
    (h : orElse p q input = .matched v rest) :
    p input = .matched v rest ∨
      (∃ fault, p input = .mismatch fault) ∧ q input = .matched v rest := by
  cases hp : p input with
  | matched w r => exact .inl (by rw [← hp, ← h, orElse_of_matched hp, hp])
  | failure f => simp [orElse, hp] at h
  | mismatch f =>
    refine .inr ⟨⟨f, rfl⟩, ?_⟩
    rcases matched_orElse h with h | h
    · rw [hp] at h
      cases h
    · exact h

theorem atHead_intLiteral {input rest : List Char} {fault : Fault} {value : UInt64}
    (hfloat : floatLiteral input = .mismatch fault)
    (hm : intLiteral input = .matched value rest) :
    ∃ tail, rest = Blank.skip tail ∧
      Piece.AtHead (.number (String.ofList (Nat.toDigits 10 value.toNat))) input tail := by
  have herror : ∃ place, FloatLiteral.lexemeAtHead input = .error place := by
    cases hread : FloatLiteral.lexemeAtHead input with
    | ok read => simp [floatLiteral, hread] at hfloat
    | error place => exact ⟨place, rfl⟩
  unfold intLiteral at hm
  split at hm
  · next value' tail hread =>
    split at hm
    · next c tail =>
      split at hm
      · cases hm
      · next hpart =>
        obtain ⟨rfl, rfl⟩ := Reply.matched.inj hm
        refine ⟨_, rfl, .int herror hread fun d hd => ?_⟩
        obtain rfl : c = d := by simpa using hd
        simpa using hpart
    · obtain ⟨rfl, rfl⟩ := Reply.matched.inj hm
      exact ⟨[], rfl, .int herror hread (by simp)⟩
  · cases hm

theorem transcribes_boolLiteral :
    Transcribes L [] boolLiteral fun b => [.token (if b then "true" else "false")] :=
  .orElse ((transcribes_keyword "true").bind fun _ => .pure (List.Sublist.refl _))
    ((transcribes_keyword "false").bind fun _ => .pure (List.Sublist.refl _))

end Parser

end ShaderMinifier
