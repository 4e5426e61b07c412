import ShaderMinifier.Proofs.Declaration.Reading
import ShaderMinifier.Proofs.Statement.Shape

/-
  Statements that fit into a room are read back from their pieces. What a statement starts with
  decides which parser is tried: a block with its brace, the others with their keyword, and a
  simple statement with none of them. An expression is not taken for a declaration, since no word
  follows its first word.
-/

namespace ShaderMinifier

open Piece

/-! ## How statements start -/

/-- The words by which `statementOf` decides what statement follows, and `else`. -/
def Word.statementWords : List String :=
  ["if", "while", "do", "for", "continue", "break", "discard", "return", "else"]

/-- The pieces do not start with a keyword of a statement, a brace or a hash, so `statementOf` comes
to its last case. -/
structure Piece.Plain (k : List Piece) : Prop where
  word : ∀ w ∈ headWord? k, w ∉ Word.statementWords
  opening : headSymbol? k ≠ some "\x7b"
  closing : headSymbol? k ≠ some "\x7d"
  noLine : ∀ t l, k ≠ .line t :: l

theorem isTypeName_statementWords : ∀ w ∈ Word.statementWords, Word.isTypeName w = false := by
  decide

theorem Word.NamesType.not_statementWord {w : String} (h : Word.NamesType w) :
    w ∉ Word.statementWords := by
  intro hmem
  have := h.isTypeName
  rw [isTypeName_statementWords w hmem] at this
  cases this

theorem Starts.noLine {k : List Piece} (h : Starts k) : ∀ t l, k ≠ .line t :: l := by
  cases h <;> simp

theorem Starts.plain {k : List Piece} (h : Starts k) : Piece.Plain k := by
  refine ⟨fun w hw => ?_, h.headSymbol?_ne (by decide), h.headSymbol?_ne (by decide), h.noLine⟩
  cases h with
  | @name v rest hv hr hrest =>
    obtain rfl : v = w := Option.some.inj ((headWord?_word hv).symm.trans hw)
    exact Word.NamesType.not_statementWord ⟨hv, Parser.isTypeName_of_not_reserved hr⟩
  | @truth v rest hv hrest =>
    have hwords : ∀ v ∈ ["true", "false"], Word.isWord v = true ∧ v ∉ Word.statementWords := by
      decide
    obtain ⟨hword, hnot⟩ := hwords v (by simpa using hv)
    obtain rfl : v = w := Option.some.inj ((headWord?_word hword).symm.trans hw)
    exact hnot
  | @callee v rest hv hn =>
    obtain rfl : v = w := Option.some.inj ((headWord?_word hv).symm.trans hw)
    exact Word.NamesType.not_statementWord ⟨hv, hn⟩
  | number => cases hw
  | bracket => rw [headWord?_symbol (by decide)] at hw; cases hw
  | operator op => rw [headWord?_symbol op.token_mem] at hw; cases hw

theorem Piece.plain_of_headWord {w : String} {k : List Piece} (hw : headWord? k = some w)
    (h : w ∉ Word.statementWords) : Piece.Plain k := by
  have hsymbol : ∀ t, headSymbol? k ≠ some t := by
    intro t ht
    rw [headWord?_eq_none_of_headSymbol? ht] at hw
    cases hw
  refine ⟨fun v hv => ?_, hsymbol _, hsymbol _, ?_⟩
  · obtain rfl : w = v := Option.some.inj (hw.symm.trans hv)
    exact h
  · rintro t l rfl
    cases hw

theorem Declaration.plain {room : Nat} {stage : Stage} {placement : Placement} {d : Declaration}
    (h : d.Fits room stage placement) (k : List Piece) : Piece.Plain (d.pieces ++ k) := by
  have hopens : ∀ w ∈ Word.opensType, w ∉ Word.statementWords := by decide
  rw [Declaration.pieces, List.append_assoc, List.append_assoc]
  obtain ⟨w, hw, hstarts, -⟩ := Parser.headWord?_qualifiedType h.type _
  refine Piece.plain_of_headWord hw ?_
  rcases hstarts with hname | hmem
  · exact hname.not_statementWord
  · exact hopens w hmem

theorem SimpleStatement.plain {room : Nat} {s : SimpleStatement} (h : s.Fits room)
    (k : List Piece) : Piece.Plain (s.pieces ++ k) := by
  cases s with
  | declaration decl => exact Declaration.plain h k
  | expression value =>
    cases value with
    | none =>
      have hword : headWord? (.token ";" :: k) = none := headWord?_symbol (by decide)
      refine ⟨fun w hw => ?_, headSymbol?_ne (by decide) (by decide),
        headSymbol?_ne (by decide) (by decide),
        by simp [SimpleStatement.pieces, Expr.optionalPieces]⟩
      cases hword.symm.trans hw
    | some e =>
      rw [SimpleStatement.pieces, List.append_assoc]
      exact (Expr.starts_pieces (h e rfl).1 (headWord?_symbol (by decide))).plain

namespace Statement

theorem pieces_ne_nil (s : Statement) : s.pieces ≠ [] := by
  cases s with
  | simple stmt => cases stmt <;> simp [pieces, SimpleStatement.pieces, Declaration.pieces]
  | _ => simp [pieces]

theorem head_pieces {s : Statement} {room : Nat} (h : s.Fits room) (k : List Piece) :
    headWord? (s.pieces ++ k) ≠ some "else" ∧ headSymbol? (s.pieces ++ k) ≠ some "\x7d" := by
  have hkeyword : ∀ {w : String} {l : List Piece}, Word.isWord w = true → w ≠ "else" →
      headWord? (.token w :: l) ≠ some "else" ∧ headSymbol? (.token w :: l) ≠ some "\x7d" := by
    intro w l hw hne
    rw [headWord?_word hw, headSymbol?_word hw]
    exact ⟨fun heq => hne (Option.some.inj heq), by simp⟩
  cases s with
  | block body =>
    rw [pieces, List.cons_append, List.cons_append, headWord?_symbol (by decide)]
    exact ⟨by simp, headSymbol?_ne (by decide) (by decide)⟩
  | simple stmt =>
    have hplain := SimpleStatement.plain h.2 k
    refine ⟨fun heq => ?_, hplain.closing⟩
    exact hplain.word "else" heq (by decide)
  | ifThen condition body => exact hkeyword (by decide) (by decide)
  | ifElse condition whenTrue whenFalse =>
    rw [pieces]
    exact hkeyword (by decide) (by decide)
  | whileLoop condition body => exact hkeyword (by decide) (by decide)
  | doWhile body condition =>
    rw [pieces]
    exact hkeyword (by decide) (by decide)
  | forLoop init condition step body =>
    rw [pieces]
    exact hkeyword (by decide) (by decide)
  | continueLoop => exact hkeyword (by decide) (by decide)
  | breakLoop => exact hkeyword (by decide) (by decide)
  | returnValue value => exact hkeyword (by decide) (by decide)
  | discard => exact hkeyword (by decide) (by decide)

end Statement

namespace Parser

variable {room : Nat} {k : List Piece}

/-! ## Declarations and expressions -/

/-- No type starts here, so `qualifiedType` does not match and `localDeclaration` leaves the
choice. -/
theorem qualifiedType_mismatch (hk : Clean k)
    (h : ∀ w ∈ headWord? k, w ∉ Word.beforeType ∧ Word.isTypeName w = false) :
    ∃ fault, qualifiedType room (spell k) = .mismatch fault := by
  have hqualifier : typeQualifier (spell k) = .matched none (spell k) :=
    typeQualifier_spell (q := none) hk fun w hw hmem => (h w hw).1
      ((by decide : ["const", "attribute", "varying", "uniform", "invariant"] ⊆
        Word.beforeType) hmem)
  have hprecision : precisionQualifier (spell k) = .matched none (spell k) :=
    precisionQualifier_spell (p := none) hk fun w hw hmem => (h w hw).1
      ((by decide : ["highp", "mediump", "lowp"] ⊆ Word.beforeType) hmem)
  have hstruct : structType room (spell k) =
      .mismatch ⟨spell k, .expected (.token "struct")⟩ := by
    refine bind_of_mismatch (keyword_mismatch hk fun hw => ?_)
    exact (h _ hw).1 (by decide)
  have htype : typeName (spell k) = .mismatch ⟨spell k, .unexpected⟩ := by
    refine wordWhere_mismatch hk ?_
    cases hw : headWord? k with
    | none => rfl
    | some w => simp [(h w hw).2]
  have hspecifier : ∃ fault, typeSpecifier room (spell k) = .mismatch fault :=
    ⟨_, orElse_mismatch (bind_of_mismatch hstruct) (bind_of_mismatch htype)⟩
  obtain ⟨fault, hspecifier⟩ := hspecifier
  refine ⟨fault, ?_⟩
  simp only [qualifiedType, bind_of_matched hqualifier, bind_of_matched hprecision,
    Option.isSome_none, Bool.or_self, Bool.false_eq_true, if_false, bind_of_mismatch hspecifier]

/-- A type's name with no word behind it is no declaration: `localDeclaration` does not match,
though a type was read. -/
theorem localDeclaration_mismatch_name {w : String} (hw : Word.NamesType w)
    (hrest : headWord? k = none) (hk : Clean (.token w :: k)) :
    ∃ fault, localDeclaration room (spell (.token w :: k)) = .mismatch fault := by
  have htype : qualifiedType room (spell (.token w :: k)) =
      .matched ⟨none, none, .named w⟩ (spell k) :=
    qualifiedType_reads (t := ⟨none, none, .named w⟩) hw k hk trivial
  by_cases hsemi : headSymbol? k = some ";"
  · have hlook : lookingAt (symbol ";") (spell k) = .matched true (spell k) := by
      obtain ⟨l, rfl⟩ := eq_token_of_headSymbol? hsemi (by decide)
      exact lookingAt_symbol (by decide) hk.tail
    refine ⟨⟨spell (.token w :: k), .expected .declaration⟩, ?_⟩
    simp only [localDeclaration, here_bind, bind_of_matched htype, bind_of_matched hlook, if_true,
      bareDeclaration, TypeSpecifier.isStruct, Bool.false_eq_true, if_false, mismatchAt]
  · refine ⟨⟨spell k, .unexpected⟩, ?_⟩
    simp only [localDeclaration, here_bind, bind_of_matched htype,
      bind_of_matched (not_lookingAt_symbol hk.tail hsemi), Bool.false_eq_true, if_false,
      bind_of_mismatch (declaredName_mismatch hk.tail hrest)]

theorem localDeclaration_mismatch (hs : Starts k) (hk : Clean k) :
    ∃ fault, localDeclaration room (spell k) = .mismatch fault := by
  have hnone : (∀ w ∈ headWord? k, w ∉ Word.beforeType ∧ Word.isTypeName w = false) →
      ∃ fault, localDeclaration room (spell k) = .mismatch fault := by
    intro h
    obtain ⟨fault, hmiss⟩ : ∃ fault, qualifiedType room (spell k) = .mismatch fault :=
      qualifiedType_mismatch hk h
    exact ⟨fault, by simp only [localDeclaration, here_bind, bind_of_mismatch hmiss]⟩
  cases hs with
  | name hw hr hrest =>
    exact localDeclaration_mismatch_name ⟨hw, isTypeName_of_not_reserved hr⟩ hrest hk
  | callee hw hn =>
    exact localDeclaration_mismatch_name ⟨hw, hn⟩ (headWord?_symbol (by decide)) hk
  | @truth w rest hw hrest =>
    have hwords : ∀ v ∈ ["true", "false"], Word.isWord v = true ∧ v ∉ Word.beforeType ∧
        Word.isTypeName v = false := by decide
    obtain ⟨hword, hnot⟩ := hwords w (by simpa using hw)
    refine hnone fun v hv => ?_
    obtain rfl : w = v := Option.some.inj ((headWord?_word hword).symm.trans hv)
    exact hnot
  | number => exact hnone (by simp [headWord?])
  | bracket =>
    refine hnone fun w hw => ?_
    rw [headWord?_symbol (by decide)] at hw
    cases hw
  | operator op =>
    refine hnone fun w hw => ?_
    rw [headWord?_symbol op.token_mem] at hw
    cases hw

theorem simpleStatement_reads {s : SimpleStatement} (h : s.Fits room) :
    Reads (simpleStatement room) s.pieces s Anything := by
  intro k hk _
  cases s with
  | declaration decl =>
    exact bind_of_matched (optional_of_matched (localDeclaration_reads h k hk trivial))
  | expression value =>
    cases value with
    | none =>
      have hpieces : (SimpleStatement.expression none).pieces ++ k = .token ";" :: k := rfl
      rw [hpieces] at hk ⊢
      have hword : headWord? (.token ";" :: k) = none := headWord?_symbol (by decide)
      obtain ⟨fault, hmiss⟩ : ∃ fault, qualifiedType room (spell (.token ";" :: k)) =
          .mismatch fault :=
        qualifiedType_mismatch hk (fun w hw => nomatch hword.symm.trans hw)
      have hdecl : localDeclaration room (spell (.token ";" :: k)) = .mismatch fault := by
        simp only [localDeclaration, here_bind, bind_of_mismatch hmiss]
      simp only [simpleStatement, bind_of_matched (optional_of_mismatch hdecl),
        expressionStatement,
        bind_of_matched (optional_of_matched (symbol_spell (by decide) hk)), pure_apply]
    | some e =>
      obtain ⟨hwf, hdepth⟩ := h e rfl
      have hpieces : (SimpleStatement.expression (some e)).pieces ++ k =
          e.pieces ++ .token ";" :: k := by
        simp [SimpleStatement.pieces, Expr.optionalPieces]
      rw [hpieces] at hk ⊢
      have hstart : Starts (e.pieces ++ .token ";" :: k) :=
        Expr.starts_pieces hwf (headWord?_symbol (by decide))
      obtain ⟨fault, hdecl⟩ : ∃ fault, localDeclaration room
          (spell (e.pieces ++ .token ";" :: k)) = .mismatch fault :=
        localDeclaration_mismatch hstart hk
      have hsemi := optional_of_mismatch
        (symbol_mismatch (t := ";") hk (hstart.headSymbol?_ne (by decide)))
      have hread := (Expr.readable hwf).expression room hdepth _ hk
        (Stops.symbol (by decide) (by decide))
      have hend := commit_of_matched (symbol_spell (by decide) hk.right)
      simp only [simpleStatement, bind_of_matched (optional_of_mismatch hdecl),
        expressionStatement, bind_of_matched hsemi, bind_of_matched hread, bind_of_matched hend,
        pure_apply]

theorem condition_reads {e : Expr} (h : e.FitsEnclosed room) :
    Reads (condition room) (Piece.parenthesized e.pieces) e Anything := by
  intro k hk _
  have hpieces : Piece.parenthesized e.pieces ++ k =
      .token "(" :: (e.pieces ++ .token ")" :: k) := by
    simp [Piece.parenthesized]
  rw [hpieces] at hk ⊢
  have hopen := commit_of_matched (symbol_spell (by decide) hk)
  have hread := commit_of_matched ((Expr.readable h.1).expression room h.2 _ hk.tail
    (Stops.symbol (by decide) (by decide)))
  have hclose := commit_of_matched (symbol_spell (by decide) hk.tail.right)
  simp only [condition, bind_of_matched hopen, bind_of_matched hread, bind_of_matched hclose,
    pure_apply]

theorem expressionBefore_reads {value : Option Expr} (h : ∀ e ∈ value, e.FitsEnclosed room)
    {t : String} (ht : t ∈ [";", ")"]) :
    Reads (expressionBefore room t) (Expr.optionalPieces value ++ [Piece.token t]) value
      Anything := by
  have hsymbols : ∀ t ∈ [";", ")"], t ∈ Symbol.all ∧ Symbol.continues t = none ∧
      t ∉ [".", "(", "+", "-", "++", "--", "!", "~"] := by decide
  obtain ⟨hall, hcont, hstart⟩ := hsymbols t ht
  intro k hk _
  rw [List.append_assoc, List.singleton_append] at hk ⊢
  cases value with
  | none =>
    have hpieces : Expr.optionalPieces none ++ .token t :: k = .token t :: k := rfl
    rw [hpieces] at hk ⊢
    simp only [expressionBefore, bind_of_matched (lookingAt_symbol hall hk), if_true,
      bind_of_matched (pure_apply _ _),
      bind_of_matched (commit_of_matched (symbol_spell hall hk)), pure_apply]
  | some e =>
    obtain ⟨hwf, hdepth⟩ := h e rfl
    have hpieces : Expr.optionalPieces (some e) ++ .token t :: k = e.pieces ++ .token t :: k := rfl
    rw [hpieces] at hk ⊢
    have hlook := not_lookingAt_symbol (t := t) hk
      ((Expr.starts_pieces hwf (headWord?_symbol hall)).headSymbol?_ne hstart)
    have hread := map_of_matched (f := some) (commit_of_matched
      ((Expr.readable hwf).expression room hdepth _ hk (Stops.symbol hall (by simp [hcont]))))
    simp only [expressionBefore, bind_of_matched hlook, Bool.false_eq_true, if_false,
      bind_of_matched hread, bind_of_matched (commit_of_matched (symbol_spell hall hk.right)),
      pure_apply]

/-! ## Statements -/

/-- What may stand behind a statement: anything but `else` if it `endsOpen`. -/
def Closes (s : Statement) (k : List Piece) : Prop :=
  s.endsOpen = true → headWord? k ≠ some "else"

/-- What `blockOf` repeats: a statement, unless the closing brace stands here. -/
def blockItem (statement : Parser Statement) : Parser Statement := do
  if ← lookingAt (symbol "\x7d") then mismatch .unexpected
  else commit statement

theorem steps_statements {statement : Parser Statement} {body : List Statement}
    (hbody : ∀ s ∈ body, Reads statement s.pieces s (Closes s))
    (hfits : ∀ s ∈ body, s.Fits room)
    (hk : Clean (body.flatMap Statement.pieces ++ .token "\x7d" :: k)) :
    Steps (blockItem statement) (spell (body.flatMap Statement.pieces ++ .token "\x7d" :: k)) body
      (spell (.token "\x7d" :: k)) := by
  induction body with
  | nil => exact .nil
  | cons s body ih =>
    rw [List.flatMap_cons, List.append_assoc] at hk ⊢
    have hhead := Statement.head_pieces (hfits s (by simp))
    have hfollow : Closes s (body.flatMap Statement.pieces ++ .token "\x7d" :: k) := by
      intro _
      cases body with
      | nil =>
        rw [List.flatMap_nil, List.nil_append, headWord?_symbol (by decide)]
        simp
      | cons next body =>
        rw [List.flatMap_cons, List.append_assoc]
        exact (Statement.head_pieces (hfits next (by simp)) _).1
    have hread := commit_of_matched (hbody s (by simp) _ hk hfollow)
    refine .cons ?_ (spell_length_lt (Statement.pieces_ne_nil s) hk)
      (ih (fun x hx => hbody x (by simp [hx])) (fun x hx => hfits x (by simp [hx])) hk.right)
    simp only [blockItem, bind_of_matched (not_lookingAt_symbol hk (hhead _).2),
      Bool.false_eq_true, if_false, hread]

theorem blockOf_spell {statement : Parser Statement} {body : List Statement}
    (hbody : ∀ s ∈ body, Reads statement s.pieces s (Closes s))
    (hfits : ∀ s ∈ body, s.Fits room)
    (hk : Clean ((Statement.block body).pieces ++ k)) :
    blockOf statement (spell ((Statement.block body).pieces ++ k)) =
      .matched body (spell k) := by
  have hpieces : (Statement.block body).pieces ++ k = .token "\x7b" ::
      (body.flatMap Statement.pieces ++ .token "\x7d" :: k) := by
    simp [Statement.pieces, Statement.listPieces_eq_flatMap]
  rw [hpieces] at hk ⊢
  have hstop : blockItem statement (spell (.token "\x7d" :: k)) =
      .mismatch ⟨spell (.token "\x7d" :: k), .unexpected⟩ := by
    simp only [blockItem, bind_of_matched (lookingAt_symbol (by decide) hk.tail.right), if_true,
      mismatch]
  have hmany : many (blockItem statement)
      (spell (body.flatMap Statement.pieces ++ .token "\x7d" :: k)) =
        .matched body (spell (.token "\x7d" :: k)) :=
    (steps_statements hbody hfits hk.tail).many hstop
  have hblock : blockOf statement = (do
      symbol "\x7b"
      let body ← many (blockItem statement)
      symbol "\x7d"
      return body) := rfl
  rw [hblock, bind_of_matched (symbol_spell (by decide) hk), bind_of_matched hmany,
    bind_of_matched (symbol_spell (by decide) hk.tail.right), pure_apply]

/-- A statement that starts with a keyword is read by the keyword's parser: the first two tests of
`statementOf` pass over it. -/
theorem statementOf_keyword {statement : Parser Statement} {w : String}
    (hw : Word.isWord w = true) (hk : Clean (.token w :: k)) :
    statementOf room statement (spell (.token w :: k)) =
      (match some w with
      | some "if" => selectionOf room statement
      | some "while" => whileLoopOf room statement
      | some "do" => doWhileOf room statement
      | some "for" => forLoopOf room statement
      | some "continue" => jump "continue" .continueLoop
      | some "break" => jump "break" .breakLoop
      | some "discard" => jump "discard" .discard
      | some "return" => returnStatement room
      | _ => do return .simple (← simpleStatement room)) (spell (.token w :: k)) := by
  have hhash := head_spell_ne_hash hk (by simp)
  have hbrace : headSymbol? (.token w :: k) ≠ some "\x7b" := by
    rw [headSymbol?_word hw]
    simp
  have hnext := nextWord_spell hk
  rw [headWord?_word hw] at hnext
  rw [statementOf, here_bind, if_neg hhash, bind_of_matched (not_lookingAt_symbol hk hbrace),
    if_neg (by simp)]
  exact bind_of_matched hnext

theorem statementOf_simple {statement : Parser Statement} {s : SimpleStatement} (h : s.Fits room) :
    Reads (statementOf room statement) s.pieces (.simple s) Anything := by
  intro k hk _
  have hplain := SimpleStatement.plain h k
  have hhash := head_spell_ne_hash hk hplain.noLine
  have hread := simpleStatement_reads h k hk trivial
  simp only [statementOf, here_bind, if_neg hhash,
    bind_of_matched (not_lookingAt_symbol hk hplain.opening), Bool.false_eq_true, if_false,
    bind_of_matched (nextWord_spell hk)]
  have hword := hplain.word
  generalize headWord? (s.pieces ++ k) = word at hword ⊢
  split
  · exact absurd (hword _ rfl) (by decide)
  · exact absurd (hword _ rfl) (by decide)
  · exact absurd (hword _ rfl) (by decide)
  · exact absurd (hword _ rfl) (by decide)
  · exact absurd (hword _ rfl) (by decide)
  · exact absurd (hword _ rfl) (by decide)
  · exact absurd (hword _ rfl) (by decide)
  · exact absurd (hword _ rfl) (by decide)
  · rw [bind_of_matched hread, pure_apply]

variable {statement : Parser Statement}

theorem statementOf_block {body : List Statement}
    (hbody : ∀ s ∈ body, Reads statement s.pieces s (Closes s))
    (hfits : ∀ s ∈ body, s.Fits room) :
    Reads (statementOf room statement) (Statement.block body).pieces (.block body) Anything := by
  intro k hk _
  have hread := blockOf_spell hbody hfits hk
  have hpieces : (Statement.block body).pieces ++ k = .token "\x7b" ::
      (Statement.listPieces body ++ [Piece.token "\x7d"] ++ k) := by
    simp [Statement.pieces]
  rw [hpieces] at hk hread ⊢
  have hhash := head_spell_ne_hash hk (by simp)
  simp only [statementOf, here_bind, if_neg hhash,
    bind_of_matched (lookingAt_symbol (by decide) hk), if_true, bind_of_matched hread, pure_apply]

theorem statementOf_ifThen {c : Expr} {body : Statement} (hc : c.FitsEnclosed room)
    (hbody : Reads statement body.pieces body (Closes body)) :
    Reads (statementOf room statement) (Statement.ifThen c body).pieces (.ifThen c body)
      (Closes (.ifThen c body)) := by
  intro k hk hnext
  have helse := hnext rfl
  have hpieces : (Statement.ifThen c body).pieces ++ k = .token "if" ::
      (Piece.parenthesized c.pieces ++ (body.pieces ++ k)) := by
    simp [Statement.pieces]
  rw [hpieces] at hk ⊢
  rw [statementOf_keyword (by decide) hk]
  show selectionOf room statement _ = _
  have hbody' := commit_of_matched (hbody k hk.tail.right fun _ => helse)
  simp only [selectionOf, bind_of_matched (keyword_spell (by decide) hk),
    bind_of_matched (condition_reads hc _ hk.tail trivial), bind_of_matched hbody',
    bind_of_matched (optional_of_mismatch (keyword_mismatch hk.tail.right.right helse)),
    pure_apply]

theorem statementOf_ifElse {c : Expr} {x y : Statement} (hc : c.FitsEnclosed room)
    (hx : Reads statement x.pieces x (Closes x)) (hclosed : x.endsOpen = false)
    (hy : Reads statement y.pieces y (Closes y)) :
    Reads (statementOf room statement) (Statement.ifElse c x y).pieces (.ifElse c x y)
      (Closes (.ifElse c x y)) := by
  intro k hk hnext
  have hpieces : (Statement.ifElse c x y).pieces ++ k = .token "if" ::
      (Piece.parenthesized c.pieces ++ (x.pieces ++ (.token "else" :: (y.pieces ++ k)))) := by
    simp [Statement.pieces]
  rw [hpieces] at hk ⊢
  rw [statementOf_keyword (by decide) hk]
  show selectionOf room statement _ = _
  have hx' := commit_of_matched (hx _ hk.tail.right fun ho => by rw [hclosed] at ho; cases ho)
  have helse := optional_of_matched (keyword_spell (by decide) hk.tail.right.right)
  have hy' := commit_of_matched (hy k hk.tail.right.right.tail hnext)
  simp only [selectionOf, bind_of_matched (keyword_spell (by decide) hk),
    bind_of_matched (condition_reads hc _ hk.tail trivial), bind_of_matched hx',
    bind_of_matched helse, bind_of_matched hy', pure_apply]

theorem statementOf_whileLoop {c : Expr} {body : Statement} (hc : c.FitsEnclosed room)
    (hbody : Reads statement body.pieces body (Closes body)) :
    Reads (statementOf room statement) (Statement.whileLoop c body).pieces (.whileLoop c body)
      (Closes (.whileLoop c body)) := by
  intro k hk hnext
  have hpieces : (Statement.whileLoop c body).pieces ++ k = .token "while" ::
      (Piece.parenthesized c.pieces ++ (body.pieces ++ k)) := by
    simp [Statement.pieces]
  rw [hpieces] at hk ⊢
  rw [statementOf_keyword (by decide) hk]
  show whileLoopOf room statement _ = _
  have hbody' := commit_of_matched (hbody k hk.tail.right hnext)
  simp only [whileLoopOf, bind_of_matched (keyword_spell (by decide) hk),
    bind_of_matched (condition_reads hc _ hk.tail trivial), bind_of_matched hbody', pure_apply]

theorem statementOf_doWhile {c : Expr} {body : Statement} (hc : c.FitsEnclosed room)
    (hbody : Reads statement body.pieces body (Closes body)) :
    Reads (statementOf room statement) (Statement.doWhile body c).pieces (.doWhile body c)
      Anything := by
  intro k hk _
  have hpieces : (Statement.doWhile body c).pieces ++ k = .token "do" ::
      (body.pieces ++ (.token "while" :: (Piece.parenthesized c.pieces ++ .token ";" :: k))) := by
    simp [Statement.pieces]
  rw [hpieces] at hk ⊢
  rw [statementOf_keyword (by decide) hk]
  show doWhileOf room statement _ = _
  have hbody' := commit_of_matched (hbody _ hk.tail fun _ => by
    rw [headWord?_word (by decide)]
    decide)
  have hwhile := commit_of_matched (keyword_spell (by decide) hk.tail.right)
  have hend := commit_of_matched (symbol_spell (by decide) hk.tail.right.tail.right)
  simp only [doWhileOf, bind_of_matched (keyword_spell (by decide) hk), bind_of_matched hbody',
    bind_of_matched hwhile, bind_of_matched (condition_reads hc _ hk.tail.right.tail trivial),
    bind_of_matched hend, pure_apply]

theorem statementOf_forLoop {init : SimpleStatement} {c step : Option Expr} {body : Statement}
    (hinit : init.Fits room) (hc : ∀ e ∈ c, e.FitsEnclosed room)
    (hstep : ∀ e ∈ step, e.FitsEnclosed room)
    (hbody : Reads statement body.pieces body (Closes body)) :
    Reads (statementOf room statement) (Statement.forLoop init c step body).pieces
      (.forLoop init c step body) (Closes (.forLoop init c step body)) := by
  intro k hk hnext
  have hpieces : (Statement.forLoop init c step body).pieces ++ k = .token "for" ::
      .token "(" :: (init.pieces ++ ((Expr.optionalPieces c ++ [Piece.token ";"]) ++
        ((Expr.optionalPieces step ++ [Piece.token ")"]) ++ (body.pieces ++ k)))) := by
    simp [Statement.pieces]
  rw [hpieces] at hk ⊢
  rw [statementOf_keyword (by decide) hk]
  show forLoopOf room statement _ = _
  have hopen := commit_of_matched (symbol_spell (by decide) hk.tail)
  have hinit' := commit_of_matched (simpleStatement_reads hinit _ hk.tail.tail trivial)
  have hk' := hk.tail.tail.right
  have hc' := expressionBefore_reads hc (by decide) _ hk' trivial
  have hstep' := expressionBefore_reads hstep (by decide) _ hk'.right trivial
  have hbody' := commit_of_matched (hbody k hk'.right.right hnext)
  simp only [forLoopOf, bind_of_matched (keyword_spell (by decide) hk), bind_of_matched hopen,
    bind_of_matched hinit', bind_of_matched hc', bind_of_matched hstep', bind_of_matched hbody',
    pure_apply]

theorem jump_spell {w : String} {s : Statement} (hw : Word.isWord w = true)
    (hk : Clean (.token w :: .token ";" :: k)) :
    jump w s (spell (.token w :: .token ";" :: k)) = .matched s (spell k) := by
  rw [jump, bind_of_matched (keyword_spell hw hk),
    bind_of_matched (commit_of_matched (symbol_spell (by decide) hk.tail)), pure_apply]

theorem statementOf_return {value : Option Expr} (h : ∀ e ∈ value, e.FitsEnclosed room) :
    Reads (statementOf room statement) (Statement.returnValue value).pieces (.returnValue value)
      Anything := by
  intro k hk _
  have hpieces : (Statement.returnValue value).pieces ++ k = .token "return" ::
      ((Expr.optionalPieces value ++ [Piece.token ";"]) ++ k) := by
    simp [Statement.pieces]
  rw [hpieces] at hk ⊢
  rw [statementOf_keyword (by decide) hk]
  show returnStatement room _ = _
  simp only [returnStatement, bind_of_matched (keyword_spell (by decide) hk),
    bind_of_matched (expressionBefore_reads h (by decide) _ hk.tail trivial), pure_apply]

/-- Every statement that `Fits` is read back, if no `else` behind it would change it (`Closes`). By
induction on the statement. -/
theorem statement_reads {s : Statement} {room : Nat} (h : s.Fits room) :
    Reads (Parser.statement room) s.pieces s (Closes s) := by
  have hopen : ∀ {s : Statement} {r : Nat},
      Reads (statementOf r (Parser.statement r)) s.pieces s (Closes s) →
        Reads (Parser.statement (r + 1)) s.pieces s (Closes s) := by
    intro s r hs k hk hnext
    rw [Parser.statement]
    exact hs k hk hnext
  have hany : ∀ {p : Parser Statement} {s : Statement}, Reads p s.pieces s Anything →
      Reads p s.pieces s (Closes s) := fun hs => hs.mono fun _ _ => trivial
  induction s generalizing room with
  | block body ih =>
    obtain ⟨r, rfl⟩ : ∃ r, room = r + 1 := ⟨room - 1, by have := h.pos; omega⟩
    have hall := Statement.allFit_iff.1 h.2
    exact hopen (hany (statementOf_block (fun s hs => ih s hs (hall s hs)) hall))
  | simple stmt =>
    obtain ⟨r, rfl⟩ : ∃ r, room = r + 1 := ⟨room - 1, by have := h.pos; omega⟩
    exact hopen (hany (statementOf_simple h.2))
  | ifThen c body ih =>
    obtain ⟨r, rfl⟩ : ∃ r, room = r + 1 := ⟨room - 1, by have := h.pos; omega⟩
    exact hopen (statementOf_ifThen h.2.1 (ih h.2.2))
  | ifElse c x y ihx ihy =>
    obtain ⟨r, rfl⟩ : ∃ r, room = r + 1 := ⟨room - 1, by have := h.pos; omega⟩
    exact hopen (statementOf_ifElse h.2.1 (ihx h.2.2.1) h.2.2.2.1 (ihy h.2.2.2.2))
  | whileLoop c body ih =>
    obtain ⟨r, rfl⟩ : ∃ r, room = r + 1 := ⟨room - 1, by have := h.pos; omega⟩
    exact hopen (statementOf_whileLoop h.2.1 (ih h.2.2))
  | doWhile body c ih =>
    obtain ⟨r, rfl⟩ : ∃ r, room = r + 1 := ⟨room - 1, by have := h.pos; omega⟩
    exact hopen (hany (statementOf_doWhile h.2.1 (ih h.2.2)))
  | forLoop init c step body ih =>
    obtain ⟨r, rfl⟩ : ∃ r, room = r + 1 := ⟨room - 1, by have := h.pos; omega⟩
    exact hopen (statementOf_forLoop h.2.1 h.2.2.1 h.2.2.2.1 (ih h.2.2.2.2))
  | continueLoop =>
    obtain ⟨r, rfl⟩ : ∃ r, room = r + 1 := ⟨room - 1, by have := h.pos; omega⟩
    exact hopen fun k hk _ => (statementOf_keyword (by decide) hk).trans
      (jump_spell (by decide) hk)
  | breakLoop =>
    obtain ⟨r, rfl⟩ : ∃ r, room = r + 1 := ⟨room - 1, by have := h.pos; omega⟩
    exact hopen fun k hk _ => (statementOf_keyword (by decide) hk).trans
      (jump_spell (by decide) hk)
  | returnValue value =>
    obtain ⟨r, rfl⟩ : ∃ r, room = r + 1 := ⟨room - 1, by have := h.pos; omega⟩
    exact hopen (hany (statementOf_return h.2))
  | discard =>
    obtain ⟨r, rfl⟩ : ∃ r, room = r + 1 := ⟨room - 1, by have := h.pos; omega⟩
    exact hopen fun k hk _ => (statementOf_keyword (by decide) hk).trans
      (jump_spell (by decide) hk)

theorem block_spell {body : List Statement} (h : ∀ s ∈ body, s.Fits room)
    (hk : Clean ((Statement.block body).pieces ++ k)) :
    block room (spell ((Statement.block body).pieces ++ k)) = .matched body (spell k) :=
  blockOf_spell (fun s hs => statement_reads (h s hs)) h hk

end Parser

end ShaderMinifier
