import ShaderMinifier.Proofs.Declaration.Shape
import ShaderMinifier.Proofs.Expr.Reading
import ShaderMinifier.Proofs.Lists

/-
  Types, declarations and signatures that fit into a room are read back from their pieces.
-/

namespace ShaderMinifier

open Piece

/-! ## Keywords -/

theorem Precision.isWord (p : Precision) : Word.isWord p.keyword = true := by
  cases p <;> decide

theorem Precision.ofKeyword?_keyword (p : Precision) : Precision.ofKeyword? p.keyword = some p := by
  cases p <;> decide

theorem Direction.isWord (d : Direction) : Word.isWord d.keyword = true := by
  cases d <;> decide

theorem Direction.ofKeyword?_keyword (d : Direction) : Direction.ofKeyword? d.keyword = some d := by
  cases d <;> decide

/-- The keywords that may stand before a type's name in a declaration, a parameter or an item. -/
def Word.beforeType : List String :=
  ["const", "attribute", "varying", "uniform", "invariant", "highp", "mediump", "lowp", "in",
   "out", "inout", "struct", "precision"]

/-- The name of a type (`NamesType`) is none of the words of `beforeType`, so the rules for these do
not take it. -/
theorem Word.NamesType.not_beforeType {w : String} (h : Word.NamesType w) :
    w ∉ Word.beforeType := by
  have hall : ∀ v ∈ Word.beforeType, Word.isTypeName v = false := by decide
  intro hmem
  have := h.isTypeName
  rw [hall w hmem] at this
  cases this

/-- The keywords that a type with its qualifiers (`QualifiedType`) can start with. -/
def Word.opensType : List String :=
  ["const", "attribute", "varying", "uniform", "invariant", "highp", "mediump", "lowp", "struct"]

theorem Precision.ofKeyword?_eq_none {w : String} (h : w ∉ ["highp", "mediump", "lowp"]) :
    Precision.ofKeyword? w = none := find?_eq_none_of_not_mem h

theorem Direction.ofKeyword?_eq_none {w : String} (h : w ∉ ["in", "out", "inout"]) :
    Direction.ofKeyword? w = none := find?_eq_none_of_not_mem h

theorem TypeQualifier.ofKeyword?_eq_none {w : String}
    (h : w ∉ ["const", "attribute", "varying", "invariant varying", "uniform"]) :
    TypeQualifier.ofKeyword? w = none := find?_eq_none_of_not_mem h

/-- What follows the name of a declared variable, read by `declaratorRest`. -/
def Declarator.restPieces (d : Declarator) : List Piece :=
  (d.array.map ArraySize.pieces).getD [] ++ (d.initializer.map Declarator.valuePieces).getD []

theorem Declarator.pieces_eq (d : Declarator) : d.pieces = .token d.name :: d.restPieces := rfl

theorem Declaration.pieces_cons (type : QualifiedType) (first : Declarator)
    (others : List Declarator) (k : List Piece) :
    (Declaration.mk type (first :: others)).pieces ++ k = type.pieces ++ (.token first.name ::
      (first.restPieces ++ (Piece.afterCommas Declarator.pieces others ++ .token ";" :: k))) := by
  rw [Declaration.pieces, commaSeparated_map, Declarator.pieces_eq]
  simp

/-- What follows the `const` of a `Parameter`, with `k` behind it. -/
def Parameter.restPieces (p : Parameter) (k : List Piece) : List Piece :=
  Piece.ofOption (p.direction.map Direction.keyword) ++
    (Piece.ofOption (p.precision.map Precision.keyword) ++
      (.token p.type :: (Piece.ofOption p.name ++ (Expr.optionalSizePieces p.size ++ k))))

namespace Parser

variable {room : Nat} {k : List Piece}

/-- Anything may stand behind; the `Follow` of a parser in `Reads` whose end is a symbol that it
takes itself. -/
def Anything (_ : List Piece) : Prop := True

/-! ## Array sizes -/

theorem arraySize_reads {size : Expr} (h : size.Fits room .conditional) :
    Reads (arraySize room) (size.piecesAt .conditional ++ [Piece.token "]"]) size Anything := by
  intro k hk _
  rw [List.append_assoc, List.singleton_append] at hk ⊢
  have hsize := commit_of_matched ((Expr.readable h.1).conditional room h.2 _ hk
    (Stops.symbol (by decide) (by decide)))
  have hclose := commit_of_matched (symbol_spell (by decide) hk.right)
  simp only [arraySize, bind_of_matched hsize, bind_of_matched hclose, pure_apply]

/-- A size does not start with its closing bracket, so `declaratorArray` and `memberDeclarator` see
that there is one. -/
theorem headSymbol?_size {size : Expr} (h : size.Fits room .conditional) (k : List Piece) :
    headSymbol? (size.piecesAt .conditional ++ .token "]" :: k) ≠ some "]" :=
  (Expr.starts_piecesAt h.1 _ (headWord?_symbol (by decide))).headSymbol?_ne (by decide)

/-! ## Structs and types -/

theorem memberDeclarator_reads {d : MemberDeclarator} (h : d.Fits room) :
    Reads (memberDeclarator room) d.pieces d (fun k => headSymbol? k ≠ some "[") := by
  intro k hk hnext
  obtain ⟨name, size⟩ := d
  have hname : Word.Declarable name := h.name
  cases size with
  | none =>
    have hpieces : (MemberDeclarator.mk name none).pieces ++ k = .token name :: k := rfl
    rw [hpieces] at hk ⊢
    simp only [memberDeclarator, bind_of_matched (declaredName_spell hname hk), here_bind,
      bind_of_matched (optional_of_mismatch (symbol_mismatch hk.tail hnext)), pure_apply]
  | some e =>
    have he := h.size e rfl
    have hpieces : (MemberDeclarator.mk name (some e)).pieces ++ k =
        .token name :: .token "[" :: (e.piecesAt .conditional ++ [Piece.token "]"] ++ k) := by
      simp [MemberDeclarator.pieces, Expr.optionalSizePieces, Expr.sizePieces]
    rw [hpieces] at hk ⊢
    have hread := arraySize_reads he k hk.tail.tail trivial
    have hclose : headSymbol? (e.piecesAt .conditional ++ [Piece.token "]"] ++ k) ≠ some "]" := by
      rw [List.append_assoc]
      exact headSymbol?_size he k
    simp only [memberDeclarator, bind_of_matched (declaredName_spell hname hk), here_bind,
      bind_of_matched (optional_of_matched (symbol_spell (by decide) hk.tail)),
      bind_of_matched (not_lookingAt_symbol hk.tail.tail hclose), Bool.false_eq_true, if_false,
      bind_of_matched hread, pure_apply]

theorem precisionQualifier_spell {p : Option Precision} (hk : Clean (Piece.ofOption
    (p.map Precision.keyword) ++ k)) (hword : ∀ w ∈ headWord? k, w ∉ ["highp", "mediump", "lowp"]) :
    precisionQualifier (spell (Piece.ofOption (p.map Precision.keyword) ++ k)) =
      .matched p (spell k) := by
  cases p with
  | some p => exact optional_of_matched (wordWhere_spell p.isWord hk p.ofKeyword?_keyword)
  | none =>
    refine optional_of_mismatch (wordWhere_mismatch hk ?_)
    show (headWord? k).bind Precision.ofKeyword? = none
    cases hw : headWord? k with
    | none => rfl
    | some w => exact Precision.ofKeyword?_eq_none (hword w hw)

theorem member_reads {m : Member} (h : m.Fits room) : Reads (member room) m.pieces m Anything := by
  intro k hk _
  obtain ⟨precision, type, declarators⟩ := m
  have hpieces : (Member.mk precision type declarators).pieces ++ k =
      Piece.ofOption (precision.map Precision.keyword) ++ (.token type ::
        (Piece.commaSeparated (declarators.map MemberDeclarator.pieces) ++ .token ";" :: k)) := by
    simp [Member.pieces]
  rw [hpieces] at hk ⊢
  have htype : Word.NamesType type := h.type
  have hnot := htype.not_beforeType
  have hk' := hk.right
  have hprecision := precisionQualifier_spell hk (by
    intro w hw
    rw [headWord?_word htype.isWord] at hw
    obtain rfl := Option.some.inj hw
    exact fun hmem => hnot ((by decide : ["highp", "mediump", "lowp"] ⊆ Word.beforeType) hmem))
  have hstruct : headWord? (.token type :: (Piece.commaSeparated
      (declarators.map MemberDeclarator.pieces) ++ .token ";" :: k)) ≠ some "struct" := by
    rw [headWord?_word htype.isWord]
    intro heq
    obtain rfl := Option.some.inj heq
    exact hnot (by decide)
  obtain ⟨d, ds, rfl⟩ : ∃ d ds, declarators = d :: ds := List.exists_cons_of_ne_nil h.nonempty
  have hlist := commit_of_matched (sepBy1_spell
    (fun x hx => memberDeclarator_reads (h.declarators x hx))
    (fun l => headSymbol?_ne (by decide) (by decide)) hk'.tail
    (headSymbol?_ne (by decide) (by decide)) (headSymbol?_ne (by decide) (by decide)))
  have hend := commit_of_matched (symbol_spell (by decide) hk'.tail.right)
  simp only [member, bind_of_matched hprecision,
    bind_of_matched (not_lookingAt_keyword hk' hstruct), Bool.false_eq_true, if_false,
    bind_of_matched (typeName_spell htype hk'), bind_of_matched hlist, bind_of_matched hend,
    pure_apply]

theorem steps_members {members : List Member} (h : ∀ m ∈ members, m.Fits room)
    (hk : Clean (members.flatMap Member.pieces ++ k)) :
    Steps (member room) (spell (members.flatMap Member.pieces ++ k)) members (spell k) := by
  induction members with
  | nil => exact .nil
  | cons m members ih =>
    rw [List.flatMap_cons, List.append_assoc] at hk ⊢
    exact .cons (member_reads (h m (by simp)) _ hk trivial)
      (spell_length_lt (by simp [Member.pieces]) hk)
      (ih (fun x hx => h x (by simp [hx])) hk.right)

/-- A closing brace is no `member`, so the loop in `structType` ends there. -/
theorem member_mismatch (hk : Clean (.token "\x7d" :: k)) :
    member room (spell (.token "\x7d" :: k)) =
      .mismatch ⟨spell (.token "\x7d" :: k), .unexpected⟩ := by
  have hword : headWord? (.token "\x7d" :: k) = none := headWord?_symbol (by decide)
  have hprecision : precisionQualifier (spell (.token "\x7d" :: k)) =
      .matched none (spell (.token "\x7d" :: k)) :=
    optional_of_mismatch (wordWhere_mismatch hk (by rw [hword]; rfl))
  have htype : typeName (spell (.token "\x7d" :: k)) =
      .mismatch ⟨spell (.token "\x7d" :: k), .unexpected⟩ :=
    wordWhere_mismatch hk (by rw [hword]; rfl)
  simp only [member, bind_of_matched hprecision,
    bind_of_matched (not_lookingAt_keyword hk (by rw [hword]; simp)), Bool.false_eq_true,
    if_false, bind_of_mismatch htype]

theorem structName_spell {name : Option String} (h : ∀ w ∈ name, Word.Declarable w)
    (hk : Clean (Piece.ofOption name ++ .token "\x7b" :: k)) :
    structName (spell (Piece.ofOption name ++ .token "\x7b" :: k)) =
      .matched name (spell (.token "\x7b" :: k)) := by
  cases name with
  | none =>
    have hopen := lookingAt_symbol (by decide) hk
    simp only [Piece.ofOption, Option.toList_none, List.map_nil, List.nil_append, structName,
      bind_of_matched hopen, if_true, pure_apply]
  | some w =>
    have hw := h w rfl
    have hpieces : Piece.ofOption (some w) ++ .token "\x7b" :: k =
        .token w :: .token "\x7b" :: k := rfl
    rw [hpieces] at hk ⊢
    have hopen := not_lookingAt_symbol (t := "\x7b") hk (by rw [headSymbol?_word hw.isWord]; simp)
    simp only [structName, bind_of_matched hopen, Bool.false_eq_true, if_false,
      bind_of_matched (commit_of_matched (declaredName_spell hw hk)), pure_apply]

theorem structType_reads {s : StructType} (h : s.Fits room) :
    Reads (structType room) s.pieces s Anything := by
  intro k hk _
  obtain ⟨name, members⟩ := s
  have hpieces : (StructType.mk name members).pieces ++ k = .token "struct" ::
      (Piece.ofOption name ++ .token "\x7b" ::
        (members.flatMap Member.pieces ++ .token "\x7d" :: k)) := by
    simp [StructType.pieces]
  rw [hpieces] at hk ⊢
  have hname := structName_spell h.name hk.tail
  have hopen := commit_of_matched (symbol_spell (by decide) hk.tail.right)
  have hk' := hk.tail.right.tail
  obtain ⟨m, ms, rfl⟩ : ∃ m ms, members = m :: ms := List.exists_cons_of_ne_nil h.nonempty
  rw [List.flatMap_cons, List.append_assoc] at hk' hopen hname ⊢
  have hmembers := commit_of_matched (many1_of_steps
    (member_reads (h.members m (by simp)) _ hk' trivial)
    (steps_members (fun x hx => h.members x (by simp [hx])) hk'.right)
    (member_mismatch hk'.right.right))
  have hclose := commit_of_matched (symbol_spell (by decide) hk'.right.right)
  rw [List.flatMap_cons, List.append_assoc] at hk
  simp only [structType, bind_of_matched (keyword_spell (by decide) hk), bind_of_matched hname,
    bind_of_matched hopen, bind_of_matched hmembers, bind_of_matched hclose, pure_apply]

theorem typeSpecifier_reads {t : TypeSpecifier} (h : t.Fits room) :
    Reads (typeSpecifier room) t.pieces t Anything := by
  intro k hk _
  cases t with
  | struct spec =>
    exact orElse_of_matched (bind_of_matched (structType_reads h k hk trivial))
  | named name =>
    have hname : Word.NamesType name := h
    refine orElse_of_mismatch (bind_of_mismatch (bind_of_mismatch (keyword_mismatch hk ?_)))
      (bind_of_matched (typeName_spell hname hk))
    rw [TypeSpecifier.pieces, List.singleton_append, headWord?_word hname.isWord]
    intro heq
    obtain rfl := Option.some.inj heq
    exact hname.not_beforeType (by decide)

theorem headWord?_typeSpecifier {t : TypeSpecifier} (h : t.Fits room) (k : List Piece) :
    ∃ w, headWord? (t.pieces ++ k) = some w ∧ (Word.NamesType w ∨ w = "struct") := by
  cases t with
  | named name =>
    have hname : Word.NamesType name := h
    exact ⟨name, headWord?_word hname.isWord, .inl hname⟩
  | struct spec => exact ⟨"struct", headWord?_word (by decide), .inr rfl⟩

/-- A word of a list before types (`beforeType`) is no type, so it is not what a type starts
with. -/
theorem not_mem_of_startsType {w : String} (h : Word.NamesType w ∨ w = "struct")
    {words : List String} (hsub : words ⊆ Word.beforeType) (hstruct : "struct" ∉ words) :
    w ∉ words := by
  rcases h with h | rfl
  · exact fun hmem => h.not_beforeType (hsub hmem)
  · exact hstruct

/-! ## Qualified types -/

theorem spell_invariantVarying (k : List Piece) :
    spell (.token "invariant varying" :: k) =
      spell (.token "invariant" :: .token "varying" :: k) := rfl

theorem typeQualifier_spell {q : Option TypeQualifier}
    (hk : Clean (Piece.ofOption (q.map TypeQualifier.text) ++ k))
    (hword : ∀ w ∈ headWord? k, w ∉ ["const", "attribute", "varying", "uniform", "invariant"]) :
    typeQualifier (spell (Piece.ofOption (q.map TypeQualifier.text) ++ k)) =
      .matched q (spell k) := by
  have hone : ∀ q : TypeQualifier, q ≠ .invariantVarying →
      Word.isWord q.text = true ∧ TypeQualifier.ofKeyword? q.text = some q := by
    rintro (_ | _ | _ | _ | _) hq
    · decide
    · decide
    · decide
    · exact absurd rfl hq
    · decide
  cases q with
  | none =>
    have hmiss : (headWord? k).bind TypeQualifier.ofKeyword? = none := by
      cases hw : headWord? k with
      | none => rfl
      | some w =>
        have hnot := hword w hw
        refine TypeQualifier.ofKeyword?_eq_none fun hmem => ?_
        have hwords : ∀ v ∈ ["const", "attribute", "varying", "invariant varying", "uniform"],
            Word.isWord v = true →
            v ∈ ["const", "attribute", "varying", "uniform", "invariant"] := by
          decide
        exact hnot (hwords w hmem (isWord_of_headWord? hk hw))
    have hinv : headWord? k ≠ some "invariant" := by
      intro hw
      exact hword "invariant" hw (by decide)
    exact optional_of_mismatch (orElse_mismatch (wordWhere_mismatch hk hmiss)
      (bind_of_mismatch (keyword_mismatch hk hinv)))
  | some q =>
    by_cases hq : q = .invariantVarying
    · subst hq
      have hk' : Clean (.token "invariant" :: .token "varying" :: k) :=
        Clean.word (by decide) (Clean.word (by decide) hk.tail)
      have hmiss : wordWhere TypeQualifier.ofKeyword?
          (spell (.token "invariant" :: .token "varying" :: k)) = .mismatch ⟨_, .unexpected⟩ :=
        wordWhere_mismatch hk' (by rw [headWord?_word (by decide)]; decide)
      have hpieces : Piece.ofOption ((some TypeQualifier.invariantVarying).map TypeQualifier.text)
          ++ k = .token "invariant varying" :: k := rfl
      rw [hpieces, spell_invariantVarying]
      refine optional_of_matched (orElse_of_mismatch hmiss ?_)
      rw [bind_of_matched (keyword_spell (by decide) hk'),
        bind_of_matched (keyword_spell (by decide) hk'.tail), pure_apply]
    · exact optional_of_matched (orElse_of_matched
        (wordWhere_spell (hone q hq).1 hk (hone q hq).2))

/-- The word that a `QualifiedType` starts with. Only one qualifier starts with `invariant`, and a
statement with this word is told from it. -/
theorem headWord?_qualifiedType {t : QualifiedType} (h : t.specifier.Fits room)
    (k : List Piece) : ∃ w, headWord? (t.pieces ++ k) = some w ∧
      (Word.NamesType w ∨ w ∈ Word.opensType) ∧
      (w = "invariant" → t.qualifier = some .invariantVarying) := by
  obtain ⟨qualifier, precision, specifier⟩ := t
  rw [QualifiedType.pieces, List.append_assoc, List.append_assoc]
  cases qualifier with
  | some q =>
    cases q with
    | const => exact ⟨"const", headWord?_word (by decide), .inr (by decide), by simp⟩
    | vertexAttribute => exact ⟨"attribute", headWord?_word (by decide), .inr (by decide), by simp⟩
    | varying => exact ⟨"varying", headWord?_word (by decide), .inr (by decide), by simp⟩
    | uniform => exact ⟨"uniform", headWord?_word (by decide), .inr (by decide), by simp⟩
    | invariantVarying => exact ⟨"invariant", rfl, .inr (by decide), fun _ => rfl⟩
  | none =>
    cases precision with
    | some p =>
      refine ⟨p.keyword, headWord?_word p.isWord, .inr ?_, ?_⟩
      · cases p <;> decide
      · cases p <;> simp [Precision.keyword]
    | none =>
      obtain ⟨w, hw, htype⟩ := headWord?_typeSpecifier h k
      refine ⟨w, hw, ?_, ?_⟩
      · rcases htype with htype | rfl
        · exact .inl htype
        · exact .inr (by decide)
      · rintro rfl
        have hnot : "invariant" ∉ ["invariant"] :=
          not_mem_of_startsType htype (by decide) (by decide)
        exact absurd (List.mem_singleton.2 rfl) hnot

theorem qualifiedType_reads {t : QualifiedType} (h : t.specifier.Fits room) :
    Reads (qualifiedType room) t.pieces t Anything := by
  intro k hk _
  obtain ⟨qualifier, precision, specifier⟩ := t
  rw [QualifiedType.pieces, List.append_assoc, List.append_assoc] at hk ⊢
  obtain ⟨w, hw, htype⟩ := headWord?_typeSpecifier h k
  -- what follows the qualifier is a precision or starts the type
  have hnext : ∀ v ∈ headWord? (Piece.ofOption (precision.map Precision.keyword) ++
      (specifier.pieces ++ k)), v ∉ ["const", "attribute", "varying", "uniform", "invariant"] := by
    intro v hv
    cases precision with
    | none =>
      obtain rfl : w = v := Option.some.inj (hw.symm.trans hv)
      exact not_mem_of_startsType htype (by decide) (by decide)
    | some p =>
      have hp : headWord? (.token p.keyword :: (specifier.pieces ++ k)) = some p.keyword :=
        headWord?_word p.isWord
      obtain rfl : p.keyword = v := Option.some.inj (hp.symm.trans hv)
      cases p <;> decide
  have hqualifier := typeQualifier_spell hk hnext
  have hprecision := precisionQualifier_spell hk.right (by
    intro v hv
    obtain rfl : w = v := Option.some.inj (hw.symm.trans hv)
    exact not_mem_of_startsType htype (by decide) (by decide))
  have hspecifier := typeSpecifier_reads h k hk.right.right trivial
  simp only [qualifiedType, bind_of_matched hqualifier, bind_of_matched hprecision]
  split
  · rw [bind_of_matched (commit_of_matched hspecifier), pure_apply]
  · rw [bind_of_matched hspecifier, pure_apply]

/-! ## Declarations -/

theorem declaratorArray_spell {array : Option ArraySize} (h : ∀ a ∈ array, a.Fits room)
    (hk : Clean ((array.map ArraySize.pieces).getD [] ++ k)) (hnext : headSymbol? k ≠ some "[") :
    declaratorArray room (spell ((array.map ArraySize.pieces).getD [] ++ k)) =
      .matched array (spell k) := by
  cases array with
  | none =>
    exact bind_of_matched (optional_of_mismatch (symbol_mismatch hk hnext))
  | some a =>
    cases a with
    | unsized =>
      have hopen := optional_of_matched (symbol_spell (by decide) hk)
      have hclose := optional_of_matched (symbol_spell (by decide) hk.tail)
      exact (bind_of_matched hopen).trans (bind_of_matched hclose)
    | sized size =>
      have hsize := h (.sized size) rfl
      have hpieces : ((some (ArraySize.sized size)).map ArraySize.pieces).getD [] ++ k =
          .token "[" :: (size.piecesAt .conditional ++ [Piece.token "]"] ++ k) := by
        simp [ArraySize.pieces, Expr.sizePieces]
      rw [hpieces] at hk ⊢
      have hclose : headSymbol? (size.piecesAt .conditional ++ [Piece.token "]"] ++ k) ≠
          some "]" := by
        rw [List.append_assoc]
        exact headSymbol?_size hsize k
      simp only [declaratorArray,
        bind_of_matched (optional_of_matched (symbol_spell (by decide) hk)),
        bind_of_matched (optional_of_mismatch (symbol_mismatch hk.tail hclose)),
        bind_of_matched (arraySize_reads hsize k hk.tail trivial), pure_apply]

theorem initializer_spell {value : Option Expr} (h : Expr.ValueFits room value)
    (hk : Clean ((value.map Declarator.valuePieces).getD [] ++ k)) (hnext : Stops .assignment k) :
    initializer room (spell ((value.map Declarator.valuePieces).getD [] ++ k)) =
      .matched value (spell k) := by
  cases value with
  | none =>
    have hset : headSymbol? k ≠ some "=" :=
      hnext.headSymbol?_ne (p := .assignment) (by decide) (by decide)
    exact bind_of_matched (optional_of_mismatch (symbol_mismatch hk hset))
  | some e =>
    obtain ⟨hwf, hdepth⟩ := h e rfl
    have hpieces : ((some e).map Declarator.valuePieces).getD [] ++ k =
        .token "=" :: (e.piecesAt .assignment ++ k) := rfl
    rw [hpieces] at hk ⊢
    have hread := commit_of_matched ((Expr.readable hwf).assignment room hdepth k hk.tail hnext)
    simp only [initializer,
      bind_of_matched (optional_of_matched (symbol_spell (by decide) hk)),
      bind_of_matched hread, pure_apply]

theorem declaratorRest_reads {d : Declarator} (h : d.Fits room) :
    Reads (declaratorRest room d.name) d.restPieces d (Stops .assignment) := by
  intro k hk hnext
  rw [Declarator.restPieces, List.append_assoc] at hk ⊢
  have hvalue : headSymbol? ((d.initializer.map Declarator.valuePieces).getD [] ++ k) ≠
      some "[" := by
    cases d.initializer with
    | none => exact hnext.headSymbol?_ne (p := .suffixed) (by decide) (by decide)
    | some e => exact headSymbol?_ne (by decide) (by decide)
  rw [declaratorRest, bind_of_matched (declaratorArray_spell h.array hk hvalue),
    bind_of_matched (initializer_spell h.initializer hk.right hnext), pure_apply]

theorem nextDeclarator_reads {d : Declarator} (h : d.Fits room) :
    Reads (nextDeclarator room) (.token "," :: d.pieces) d (Stops .assignment) := by
  intro k hk hnext
  rw [Declarator.pieces_eq, List.cons_append, List.cons_append] at hk ⊢
  rw [nextDeclarator, bind_of_matched (symbol_spell (by decide) hk),
    bind_of_matched (commit_of_matched (declaredName_spell h.name hk.tail))]
  exact declaratorRest_reads h k hk.tail.tail hnext

theorem checked_of_allowed {stage : Stage} {placement : Placement} {d : Declaration}
    (h : d.fault? stage placement = none) (start input : List Char) :
    checked stage placement start d input = .matched d input := by
  simp only [checked, h, pure_apply]

theorem declarationRest_spell {stage : Stage} {placement : Placement} {type : QualifiedType}
    {first : Declarator} {others : List Declarator}
    (h : (Declaration.mk type (first :: others)).Fits room stage placement) (start : List Char)
    (hk : Clean (first.restPieces ++
      (Piece.afterCommas Declarator.pieces others ++ .token ";" :: k))) :
    declarationRest room stage placement start type first.name (spell (first.restPieces ++
      (Piece.afterCommas Declarator.pieces others ++ .token ";" :: k))) =
        .matched ⟨type, first :: others⟩ (spell k) := by
  have hend : Stops .assignment (.token ";" :: k) := Stops.symbol (by decide) (by decide)
  have hcomma : ∀ l, Stops .assignment (.token "," :: l) :=
    fun l => Stops.symbol (by decide) (by decide)
  have hfirst := declaratorRest_reads (h.declarators first (by simp)) _ hk
    (follow_afterCommas hcomma hend)
  have hsteps := steps_afterCommas
    (fun x hx => nextDeclarator_reads (h.declarators x (by simp [hx]))) hcomma hk.right hend
  have hstop : nextDeclarator room (spell (.token ";" :: k)) =
      .mismatch ⟨spell (.token ";" :: k), .expected (.token ",")⟩ :=
    bind_of_mismatch (symbol_mismatch hk.right.right (headSymbol?_ne (by decide) (by decide)))
  have hsemicolon := commit_of_matched (symbol_spell (by decide) hk.right.right)
  simp only [declarationRest, bind_of_matched hfirst, bind_of_matched (hsteps.many hstop),
    bind_of_matched hsemicolon, checked_of_allowed h.allowed]

theorem bareDeclaration_spell {stage : Stage} {placement : Placement} {type : QualifiedType}
    (h : (Declaration.mk type []).Fits room stage placement) (start : List Char)
    (hk : Clean (.token ";" :: k)) :
    bareDeclaration stage placement start type (spell (.token ";" :: k)) =
      .matched ⟨type, []⟩ (spell k) := by
  have hstruct : type.specifier.isStruct = true := h.bare rfl
  simp only [bareDeclaration, hstruct, if_true, bind_of_matched (symbol_spell (by decide) hk),
    checked_of_allowed h.allowed]

theorem localDeclaration_reads {d : Declaration} (h : d.Fits room .vertex .inBody) :
    Reads (localDeclaration room) d.pieces d Anything := by
  intro k hk _
  obtain ⟨type, declarators⟩ := d
  cases declarators with
  | nil =>
    have hpieces : (Declaration.mk type []).pieces ++ k = type.pieces ++ (.token ";" :: k) := by
      simp [Declaration.pieces, Piece.commaSeparated]
    rw [hpieces] at hk ⊢
    have htype := qualifiedType_reads h.type _ hk trivial
    simp only [localDeclaration, here_bind, bind_of_matched htype,
      bind_of_matched (lookingAt_symbol (by decide) hk.right), if_true,
      bareDeclaration_spell h _ hk.right]
  | cons first others =>
    have hname := (h.declarators first (by simp)).name
    rw [Declaration.pieces_cons] at hk ⊢
    have htype := qualifiedType_reads h.type _ hk trivial
    have hbare := not_lookingAt_symbol (t := ";") hk.right
      (by rw [headSymbol?_word hname.isWord]; simp)
    simp only [localDeclaration, here_bind, bind_of_matched htype, bind_of_matched hbare,
      Bool.false_eq_true, if_false, bind_of_matched (declaredName_spell hname hk.right),
      declarationRest_spell h _ hk.right.tail]

/-! ## Parameters -/

theorem parameterSize_spell {size : Option Expr} (h : Expr.SizeFits room size)
    (hk : Clean (Expr.optionalSizePieces size ++ k)) (hnext : headSymbol? k ≠ some "[") :
    parameterSize room (spell (Expr.optionalSizePieces size ++ k)) = .matched size (spell k) := by
  cases size with
  | none => exact bind_of_matched (optional_of_mismatch (symbol_mismatch hk hnext))
  | some e =>
    have hpieces : Expr.optionalSizePieces (some e) ++ k =
        .token "[" :: (e.piecesAt .conditional ++ [Piece.token "]"] ++ k) := by
      simp [Expr.optionalSizePieces, Expr.sizePieces]
    rw [hpieces] at hk ⊢
    simp only [parameterSize,
      bind_of_matched (optional_of_matched (symbol_spell (by decide) hk)),
      bind_of_matched (arraySize_reads (h e rfl) k hk.tail trivial), pure_apply]

theorem parameterName_spell {name : Option String} (h : ∀ w ∈ name, Word.Declarable w)
    (hk : Clean (Piece.ofOption name ++ k)) (hnext : headWord? k = none) :
    parameterName (spell (Piece.ofOption name ++ k)) = .matched name (spell k) := by
  cases name with
  | none => exact optional_of_mismatch (declaredName_mismatch hk hnext)
  | some w => exact optional_of_matched (declaredName_spell (h w rfl) hk)

theorem direction_spell {d : Option Direction}
    (hk : Clean (Piece.ofOption (d.map Direction.keyword) ++ k))
    (hword : ∀ w ∈ headWord? k, w ∉ ["in", "out", "inout"]) :
    direction (spell (Piece.ofOption (d.map Direction.keyword) ++ k)) = .matched d (spell k) := by
  cases d with
  | some d => exact optional_of_matched (wordWhere_spell d.isWord hk d.ofKeyword?_keyword)
  | none =>
    refine optional_of_mismatch (wordWhere_mismatch hk ?_)
    show (headWord? k).bind Direction.ofKeyword? = none
    cases hw : headWord? k with
    | none => rfl
    | some w => exact Direction.ofKeyword?_eq_none (hword w hw)

theorem headWord?_parameter {p : Parameter} (h : p.Fits room) (k : List Piece) :
    ∃ w, headWord? (p.restPieces k) = some w ∧ w ∉ "void" :: foreignQualifiers := by
  obtain ⟨isConst, direction, precision, type, name, size⟩ := p
  have htype : Word.NamesType type := h.type
  cases direction with
  | some d =>
    refine ⟨d.keyword, headWord?_word d.isWord, ?_⟩
    cases d <;> decide
  | none =>
    cases precision with
    | some p =>
      refine ⟨p.keyword, headWord?_word p.isWord, ?_⟩
      cases p <;> decide
    | none =>
      refine ⟨type, headWord?_word htype.isWord, fun hmem => ?_⟩
      rcases List.mem_cons.1 hmem with heq | hmem
      · exact h.notVoid heq
      · exact htype.not_beforeType ((by decide : foreignQualifiers ⊆ Word.beforeType) hmem)

theorem optional_const_spell {p : Parameter} (h : p.Fits room)
    (hk : Clean (p.pieces ++ k)) :
    optional (keyword "const") (spell (p.pieces ++ k)) =
      .matched (if p.isConst then some () else none) (spell (p.restPieces k)) ∧
    Clean (p.restPieces k) := by
  obtain ⟨w, hw, hnot⟩ := headWord?_parameter h k
  cases hconst : p.isConst with
  | true =>
    have hpieces : p.pieces ++ k = .token "const" :: p.restPieces k := by
      simp [Parameter.pieces, Parameter.restPieces, hconst]
    rw [hpieces] at hk ⊢
    exact ⟨optional_of_matched (keyword_spell (by decide) hk), hk.tail⟩
  | false =>
    have hpieces : p.pieces ++ k = p.restPieces k := by
      simp [Parameter.pieces, Parameter.restPieces, hconst]
    rw [hpieces] at hk ⊢
    refine ⟨optional_of_mismatch (keyword_mismatch hk ?_), hk⟩
    rw [hw]
    intro heq
    obtain rfl := Option.some.inj heq
    exact hnot (by decide)

theorem parameter_reads {p : Parameter} (h : p.Fits room) :
    Reads (parameter room) p.pieces p
      (fun k => headSymbol? k ≠ some "[" ∧ headWord? k = none) := by
  intro k hk hnext
  obtain ⟨hconst, hk'⟩ := optional_const_spell h hk
  obtain ⟨w, hw, hnot⟩ := headWord?_parameter h k
  have htype : Word.NamesType p.type := h.type
  have hforeign : (headWord? (p.restPieces k)).filter foreignQualifiers.contains =
      none := by
    rw [hw, Option.filter_some, if_neg]
    simp only [List.contains_iff_mem]
    exact fun hmem => hnot (List.mem_cons_of_mem _ hmem)
  have hword := nextWord_spell hk'
  rw [Parameter.restPieces] at hk'
  have hnotType : ∀ {words : List String}, words ⊆ Word.beforeType → p.type ∉ words :=
    fun hsub hmem => htype.not_beforeType (hsub hmem)
  have hdirection := direction_spell hk' (by
    intro v hv
    cases hp : p.precision with
    | none =>
      rw [hp] at hv
      obtain rfl : p.type = v := Option.some.inj ((headWord?_word htype.isWord).symm.trans hv)
      exact hnotType (by decide)
    | some q =>
      rw [hp] at hv
      obtain rfl : q.keyword = v := Option.some.inj ((headWord?_word q.isWord).symm.trans hv)
      cases q <;> decide)
  have hallowed : (p.isConst && (decide (p.direction = some .output) ||
      decide (p.direction = some .both))) = false := by
    cases hc : p.isConst with
    | false => rfl
    | true => simpa using h.direction hc
  have hprecision := precisionQualifier_spell hk'.right (by
    intro v hv
    obtain rfl : p.type = v := Option.some.inj ((headWord?_word htype.isWord).symm.trans hv)
    exact hnotType (by decide))
  have hptype : parameterType (spell (.token p.type :: (Piece.ofOption p.name ++
      (Expr.optionalSizePieces p.size ++ k)))) = .matched p.type (spell (Piece.ofOption p.name ++
        (Expr.optionalSizePieces p.size ++ k))) :=
    bind_of_matched (optional_of_matched (typeName_spell htype hk'.right.right))
  have hsizeWord : headWord? (Expr.optionalSizePieces p.size ++ k) = none := by
    cases p.size with
    | none => exact hnext.2
    | some e => exact headWord?_symbol (by decide)
  have hname := parameterName_spell h.name hk'.right.right.tail hsizeWord
  have hsize := parameterSize_spell h.size hk'.right.right.tail.right hnext.1
  have hsome : (if p.isConst = true then some () else none).isSome = p.isConst := by
    cases p.isConst <;> rfl
  simp only [parameter, here_bind, bind_of_matched hconst, bind_of_matched hword, hforeign, hsome]
  rw [Parameter.restPieces]
  simp only [bind_of_matched hdirection, hallowed, Bool.false_eq_true, if_false,
    bind_of_matched hprecision, bind_of_matched hptype, bind_of_matched hname, h.notVoid,
    bind_of_matched hsize, pure_apply]

theorem parameters_spell {params : List Parameter} (h : ∀ p ∈ params, p.Fits room)
    (hk : Clean (Piece.commaSeparated (params.map Parameter.pieces) ++ .token ")" :: k)) :
    parameters room (spell (Piece.commaSeparated (params.map Parameter.pieces) ++
      .token ")" :: k)) = .matched params (spell k) := by
  cases params with
  | nil =>
    have hempty : emptyList (spell (.token ")" :: k)) = .matched () (spell k) :=
      orElse_of_matched (symbol_spell (by decide) hk)
    exact bind_of_matched (optional_of_matched hempty)
  | cons p ps =>
    have hword : ∃ w, headWord? (Piece.commaSeparated ((p :: ps).map Parameter.pieces) ++
        .token ")" :: k) = some w ∧ w ≠ "void" := by
      obtain ⟨w, hw, hnot⟩ := headWord?_parameter (h p (by simp))
        (Piece.afterCommas Parameter.pieces ps ++ .token ")" :: k)
      rw [commaSeparated_map, List.append_assoc]
      cases hconst : p.isConst with
      | true =>
        refine ⟨"const", ?_, by decide⟩
        have hpieces : ∀ l, p.pieces ++ l = .token "const" :: p.restPieces l := by
          intro l
          simp [Parameter.pieces, Parameter.restPieces, hconst]
        rw [hpieces, headWord?_word (by decide)]
      | false =>
        have hpieces : ∀ l, p.pieces ++ l = p.restPieces l := by
          intro l
          simp [Parameter.pieces, Parameter.restPieces, hconst]
        rw [hpieces]
        exact ⟨w, hw, fun heq => hnot (by simp [heq])⟩
    obtain ⟨w, hw, hvoid⟩ := hword
    have hnot : headSymbol? (Piece.commaSeparated ((p :: ps).map Parameter.pieces) ++
        .token ")" :: k) ≠ some ")" := by
      intro heq
      rw [headWord?_eq_none_of_headSymbol? heq] at hw
      cases hw
    have hempty := orElse_mismatch (symbol_mismatch hk hnot)
      (bind_of_mismatch (f := fun _ => symbol ")") (keyword_mismatch hk
        (by rw [hw]; exact fun heq => hvoid (Option.some.inj heq))))
    have hlist := sepBy1_spell (fun x hx => parameter_reads (h x hx))
      (fun l => ⟨headSymbol?_ne (by decide) (by decide), headWord?_symbol (by decide)⟩) hk
      ⟨headSymbol?_ne (by decide) (by decide), headWord?_symbol (by decide)⟩
      (headSymbol?_ne (by decide) (by decide))
    have hclose := commit_of_matched (symbol_spell (by decide) hk.right)
    simp only [parameters, emptyList, bind_of_matched (optional_of_mismatch hempty),
      bind_of_matched hlist, bind_of_matched hclose, pure_apply]

end Parser

end ShaderMinifier
