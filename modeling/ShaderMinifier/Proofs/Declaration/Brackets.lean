import ShaderMinifier.Proofs.Expr.Transcribed

/-
  The opening brackets that a declaration is written with are all in its source. The ledger of
  brackets allows for as many of them in the pieces, together with the input that is left, as there
  were in the source; words, numbers and other symbols have none. Unlike the ledger of lexemes it
  allows for two words in one piece, which a qualifier may be.
-/

namespace ShaderMinifier

open scoped List

namespace Piece

/-- The number of opening brackets in the texts of pieces, the lines of directives included. -/
def brackets (ps : List Piece) : Nat := (ps.map fun p => p.text.toList.count '(').sum

@[simp] theorem brackets_nil : brackets [] = 0 := rfl

@[simp] theorem brackets_cons (p : Piece) (ps : List Piece) :
    brackets (p :: ps) = p.text.toList.count '(' + brackets ps := by
  simp [brackets]

@[simp] theorem brackets_append (ps qs : List Piece) :
    brackets (ps ++ qs) = brackets ps + brackets qs := by
  simp [brackets]

theorem brackets_le_of_sublist {ps qs : List Piece} (h : qs <+ ps) : brackets qs ≤ brackets ps :=
  (h.map _).sum_le_sum fun _ _ => Nat.zero_le _

end Piece

theorem FloatLiteral.Lexeme.count_bracket {lexeme : List Char} (h : Lexeme lexeme) :
    lexeme.count '(' = 0 := by
  have hdigits : ∀ {s : List Char}, AllDigits s → s.count '(' = 0 := by
    intro s hs
    rw [List.count_eq_zero]
    intro hmem
    cases hs '(' hmem
  have hexp : ∀ {s : List Char}, Exponent s → s.count '(' = 0 := by
    intro s hs
    cases hs with
    | absent => rfl
    | @present mark sign digits hmark hsign hd _ =>
      have hmark' : (mark == '(') = false := by
        rw [← Bool.not_eq_true, beq_iff_eq]
        rintro rfl
        cases hmark
      have hsign' : sign.count '(' = 0 := by
        obtain rfl | rfl | rfl := hsign <;> rfl
      rw [List.count_cons, List.count_append, hsign', hdigits hd, hmark']
      rfl
  cases h with
  | pointed hwhole hfraction _ he => simp [hdigits hwhole, hdigits hfraction, hexp he]
  | plain hwhole _ he _ => simp [hdigits hwhole, hexp he]

theorem Piece.AtHead.brackets_le {p : Piece} {input rest : List Char} (h : p.AtHead input rest) :
    p.text.toList.count '(' + rest.count '(' ≤ input.count '(' := by
  cases h with
  | word h => rw [Word.atHead?_eq h, List.count_append, text]
  | symbol h _ => rw [(Symbol.atHead?_eq h).2, List.count_append, text]
  | float h =>
    have htext := (FloatLiteral.lexeme_of_lexemeAtHead h).proper.lexeme.count_bracket
    rw [text, htext, Nat.zero_add]
    exact (FloatLiteral.lexemeAtHead_suffix h).1.sublist.count_le '('
  | @int value _ _ _ h _ =>
    have htext : (Nat.toDigits 10 value.toNat).count '(' = 0 := by
      rw [List.count_eq_zero]
      intro hmem
      cases Integer.allDigits_toDigits _ '(' hmem
    rw [text, String.toList_ofList, htext, Nat.zero_add]
    exact (Integer.atHead?_suffix h).1.sublist.count_le '('

/-- The `Ledger` that counts: the brackets of the pieces and of what is left are no more than
`n`. -/
def Ledger.brackets (n : Nat) : Ledger where
  Holds input ps := Piece.brackets ps + input.count '(' ≤ n
  drop := by
    intro input ps qs hps hqs
    have := Piece.brackets_le_of_sublist hqs
    omega
  add := by
    intro p input rest ps hp hps
    have hhead := hp.brackets_le
    have hskip := (Blank.skip_suffix rest).sublist.count_le '('
    rw [Piece.brackets_append, Piece.brackets_cons, Piece.brackets_nil]
    omega

theorem Ledger.holds_brackets {n : Nat} {input : List Char} {ps : List Piece} :
    (Ledger.brackets n).Holds input ps ↔ Piece.brackets ps + input.count '(' ≤ n :=
  Iff.rfl

namespace Parser

open Piece

variable {α : Type} {L : Ledger} {n : Nat} {before : List Piece} {f : α → List Piece}

/-- Only the number of brackets counts for `Ledger.brackets`, so pieces may be replaced by others
with no more of them. -/
theorem Transcribes.pure_of_le {v : α} (hv : brackets (f v) ≤ brackets before) :
    Transcribes (.brackets n) before (Pure.pure v) f := by
  intro lead input w rest hin hm
  obtain ⟨rfl, rfl⟩ := matched_pure.1 hm
  rw [Ledger.holds_brackets, brackets_append] at hin ⊢
  omega

theorem transcribes_optionalWord {choose : String → Option α} {token : α → String}
    (htoken : ∀ text v, choose text = some v → token v = text) :
    Transcribes L [] (optional (wordWhere choose)) fun o => ofOption (o.map token) := by
  refine (transcribes_wordWhere htoken).optional.mono fun o => ?_
  cases o <;> exact List.Sublist.refl _

/-! ## Types -/

theorem transcribes_typeQualifier :
    Transcribes (.brackets n) [] typeQualifier fun q => ofOption (q.map TypeQualifier.text) := by
  have hone : Transcribes (.brackets n) [] (wordWhere TypeQualifier.ofKeyword?)
      fun q => [.token q.text] :=
    transcribes_wordWhere fun text q h => by simpa using List.find?_some h
  -- the two words of an invariant varying are one piece
  have htwo : Transcribes (.brackets n) [] (do
      keyword "invariant"
      keyword "varying"
      return TypeQualifier.invariantVarying) fun q => [.token q.text] :=
    (transcribes_keyword "invariant").bind fun _ =>
      ((transcribes_keyword "varying").behind _).bind fun _ => .pure_of_le (by decide)
  refine (hone.orElse htwo).optional.mono fun o => ?_
  cases o <;> exact List.Sublist.refl _

theorem transcribes_precisionQualifier :
    Transcribes L [] precisionQualifier fun p => ofOption (p.map Precision.keyword) :=
  transcribes_optionalWord fun text p h => by simpa using List.find?_some h

theorem transcribes_direction :
    Transcribes L [] direction fun d => ofOption (d.map Direction.keyword) :=
  transcribes_optionalWord fun text d h => by simpa using List.find?_some h

theorem transcribes_arraySize (room : Nat) :
    Transcribes L [.token "["] (arraySize room) Expr.sizePieces :=
  ((transcribes_conditional room).commit.behind _).bind fun size =>
    ((transcribes_symbol (by decide)).commit.behind _).bind fun _ =>
      .pure (by simp [Expr.sizePieces])

theorem transcribes_memberDeclarator (room : Nat) :
    Transcribes L [] (memberDeclarator room) MemberDeclarator.pieces := by
  refine transcribes_declaredName.bind fun name => Transcribes.here.bind fun place =>
    ((transcribes_symbol (by decide)).behind _).optional.bind fun bracket => ?_
  cases bracket with
  | none => exact .pure (List.Sublist.refl _)
  | some _ =>
    refine Transcribes.lookingAt.bind fun empty => ?_
    cases empty with
    | true => exact .failAt _ _
    | false =>
      exact ((transcribes_arraySize room).lead [.token name]).bind fun size =>
        .pure (List.Sublist.refl _)

theorem transcribes_member (room : Nat) :
    Transcribes L [] (member room) Member.pieces := by
  refine transcribes_precisionQualifier.bind fun precision =>
    Transcribes.lookingAt.bind fun nested => ?_
  cases nested with
  | true => exact .fail _
  | false =>
    have hnames := Transcribes.separated (transcribes_memberDeclarator (L := L) room)
      (transcribes_memberDeclarator room) (transcribes_symbol (t := ",") (by decide))
    refine (transcribes_typeName.behind _).bind fun type => (hnames.commit.behind _).bind
      fun declarators => ((transcribes_symbol (by decide)).commit.behind _).bind fun _ => .pure ?_
    simp [Member.pieces]

theorem transcribes_structName : Transcribes L [] structName ofOption := by
  refine Transcribes.lookingAt.bind fun anonymous => ?_
  cases anonymous with
  | true => exact .pure (List.Sublist.refl _)
  | false => exact transcribes_declaredName.commit.bind fun _ => .pure (List.Sublist.refl _)

theorem transcribes_structType (room : Nat) :
    Transcribes L [] (structType room) StructType.pieces := by
  refine (transcribes_keyword "struct").bind fun _ => (transcribes_structName.behind _).bind
    fun name => ((transcribes_symbol (by decide)).commit.behind _).bind fun _ =>
      ((transcribes_member room).many1.commit.behind _).bind fun members =>
        ((transcribes_symbol (by decide)).commit.behind _).bind fun _ => .pure ?_
  simp [StructType.pieces]

theorem transcribes_typeSpecifier (room : Nat) :
    Transcribes L [] (typeSpecifier room) TypeSpecifier.pieces :=
  .orElse ((transcribes_structType room).bind fun _ => .pure (List.Sublist.refl _))
    (transcribes_typeName.bind fun _ => .pure (List.Sublist.refl _))

theorem transcribes_qualifiedType (room : Nat) :
    Transcribes (.brackets n) [] (qualifiedType room) QualifiedType.pieces := by
  refine transcribes_typeQualifier.bind fun qualifier =>
    (transcribes_precisionQualifier.behind _).bind fun precision => ?_
  dsimp only
  split
  · exact ((transcribes_typeSpecifier room).commit.behind _).bind fun _ =>
      .pure (List.Sublist.refl _)
  · exact ((transcribes_typeSpecifier room).behind _).bind fun _ => .pure (List.Sublist.refl _)

/-! ## Declarations -/

theorem transcribes_declaratorArray (room : Nat) :
    Transcribes L [] (declaratorArray room) fun a => (a.map ArraySize.pieces).getD [] := by
  refine (transcribes_symbol (by decide)).optional.bind fun bracket => ?_
  cases bracket with
  | none => exact .pure (List.Sublist.refl _)
  | some _ =>
    refine ((transcribes_symbol (by decide)).behind _).optional.bind fun close => ?_
    cases close with
    | some _ => exact .pure (List.Sublist.refl _)
    | none => exact (transcribes_arraySize room).bind fun _ => .pure (List.Sublist.refl _)

theorem transcribes_initializer (room : Nat) :
    Transcribes L [] (initializer room) fun v => (v.map Declarator.valuePieces).getD [] := by
  refine (transcribes_symbol (by decide)).optional.bind fun mark => ?_
  cases mark with
  | none => exact .pure (List.Sublist.refl _)
  | some _ =>
    exact ((transcribes_assignment room).commit.behind _).bind fun _ =>
      .pure (List.Sublist.refl _)

theorem transcribes_declaratorRest (room : Nat) (name : String) :
    Transcribes L [.token name] (declaratorRest room name) Declarator.pieces :=
  ((transcribes_declaratorArray room).behind _).bind fun _ =>
    ((transcribes_initializer room).behind _).bind fun _ => .pure (List.Sublist.refl _)

theorem transcribes_nextDeclarator (room : Nat) :
    Transcribes L [] (nextDeclarator room) fun d => .token "," :: d.pieces :=
  (transcribes_symbol (by decide)).bind fun _ =>
    (transcribes_declaredName.commit.behind _).bind fun name =>
      (transcribes_declaratorRest room name).lead [.token ","]

theorem transcribes_checked {stage : Stage} {placement : Placement}
    {start : List Char} (d : Declaration) :
    Transcribes L d.pieces (checked stage placement start d) Declaration.pieces := by
  unfold checked
  split
  · exact .failAt _ _
  · exact .pure (List.Sublist.refl _)

theorem transcribes_declarationRest {room : Nat} {stage : Stage}
    {placement : Placement} {start : List Char} {type : QualifiedType} {name : String} :
    Transcribes L (type.pieces ++ [.token name])
      (declarationRest room stage placement start type name) Declaration.pieces := by
  refine ((transcribes_declaratorRest room name).lead _).bind fun first =>
    ((transcribes_nextDeclarator room).many _).bind fun others =>
      ((transcribes_symbol (by decide)).commit.behind _).bind fun _ => ?_
  have hpieces : Declaration.pieces ⟨type, first :: others⟩ = type.pieces ++ first.pieces ++
      (others.flatMap fun d => .token "," :: d.pieces) ++ [.token ";"] := by
    rw [Declaration.pieces, commaSeparated_map_cons, ← List.append_assoc type.pieces]
  rw [← hpieces]
  exact transcribes_checked _

theorem transcribes_bareDeclaration {stage : Stage} {placement : Placement}
    {start : List Char} {type : QualifiedType} :
    Transcribes L type.pieces (bareDeclaration stage placement start type)
      Declaration.pieces := by
  unfold bareDeclaration
  split
  · refine ((transcribes_symbol (by decide)).behind _).bind fun _ => ?_
    have hpieces : Declaration.pieces ⟨type, []⟩ = type.pieces ++ [.token ";"] := by
      simp [Declaration.pieces, commaSeparated]
    rw [← hpieces]
    exact transcribes_checked _
  · exact .mismatchAt _ _

theorem transcribes_localDeclaration (room : Nat) :
    Transcribes (.brackets n) [] (localDeclaration room) Declaration.pieces := by
  refine Transcribes.here.bind fun start => (transcribes_qualifiedType room).bind fun type =>
    Transcribes.lookingAt.bind fun bare => ?_
  cases bare with
  | true => exact transcribes_bareDeclaration
  | false =>
    exact (transcribes_declaredName.behind _).bind fun name => transcribes_declarationRest

/-! ## Parameters -/

theorem transcribes_parameterType :
    Transcribes L [] parameterType fun w => [.token w] := by
  refine transcribes_typeName.optional.bind fun type => ?_
  cases type with
  | none => exact .fail _
  | some t => exact .pure (List.Sublist.refl _)

theorem transcribes_parameterName : Transcribes L [] parameterName ofOption := by
  refine transcribes_declaredName.optional.mono fun o => ?_
  cases o <;> exact List.Sublist.refl _

theorem transcribes_parameterSize (room : Nat) :
    Transcribes L [] (parameterSize room) Expr.optionalSizePieces := by
  refine (transcribes_symbol (by decide)).optional.bind fun bracket => ?_
  cases bracket with
  | none => exact .pure (List.Sublist.refl _)
  | some _ => exact (transcribes_arraySize room).bind fun _ => .pure (List.Sublist.refl _)

theorem transcribes_parameter (room : Nat) :
    Transcribes L [] (parameter room) Parameter.pieces := by
  have hconst : Transcribes L [] (optional (keyword "const")) fun o =>
      ofOption (o.map fun _ => "const") := by
    refine (transcribes_keyword "const").optional.mono fun o => ?_
    cases o <;> exact List.Sublist.refl _
  refine Transcribes.here.bind fun start => hconst.bind fun const =>
    Transcribes.nextWord.bind fun word => ?_
  split
  · exact .fail _
  · refine (transcribes_direction.behind _).bind fun direction => ?_
    split
    · exact .failAt _ _
    · refine (transcribes_precisionQualifier.behind _).bind fun precision =>
        (transcribes_parameterType.behind _).bind fun type =>
          (transcribes_parameterName.behind _).bind fun name => ?_
      split
      · exact .failAt _ _
      · refine ((transcribes_parameterSize room).behind _).bind fun size => .pure ?_
        cases const <;> simp [Parameter.pieces, ofOption]

theorem transcribes_parameters (room : Nat) :
    Transcribes L [] (parameters room) fun params =>
      commaSeparated (params.map Parameter.pieces) ++ [.token ")"] := by
  refine transcribes_emptyList.optional.bind fun empty => ?_
  cases empty with
  | some _ => exact .pure (List.Sublist.refl _)
  | none =>
    refine (Transcribes.separated (transcribes_parameter room) (transcribes_parameter room)
      (transcribes_symbol (by decide))).bind fun params => ?_
    exact ((transcribes_symbol (by decide)).commit.behind _).bind fun _ =>
      .pure (List.Sublist.refl _)

end Parser

end ShaderMinifier
