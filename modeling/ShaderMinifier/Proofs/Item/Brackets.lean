import ShaderMinifier.Proofs.Item.Line
import ShaderMinifier.Proofs.RoundTrip
import ShaderMinifier.Proofs.Statement.Brackets

/-
  Canonical text never adds brackets. A directive's line keeps the text of its value, brackets
  included, and the layout writes nothing between pieces that is a bracket: so a text has no more
  opening brackets than any source of its tree. No pair of them can be left out of it.
-/

namespace ShaderMinifier

open scoped List

open Piece

/-! ## Lines -/

theorem Directive.line_prefix (input : List Char) : Directive.line input <+: input := by
  fun_induction Directive.line input with
  | case1 rest ih => simpa using ih
  | case2 rest => exact List.nil_prefix
  | case3 c rest _ _ ih => simpa using ih
  | case4 => exact List.nil_prefix

theorem WhiteSpace.trim_sublist (text : List Char) : WhiteSpace.trim text <+ text :=
  (List.rdropWhile_prefix _ _).sublist.trans (List.dropWhile_sublist _)

theorem Directive.brackets_text (d : Directive) :
    brackets [.line d.text] = brackets [.line ("#" ++ d.name), .line d.value] := by
  unfold Directive.text
  split
  · next hempty =>
    have hnil : d.value = "" := String.isEmpty_iff.1 hempty
    simp [hnil, Piece.text]
  · simp [Piece.text]

theorem ConditionalKind.brackets_text (kind : ConditionalKind) (condition : String) :
    brackets [.line (kind.text condition)] = brackets [.line condition] := by
  have hkeyword : kind.keyword.toList.count '(' = 0 := by cases kind <;> decide
  simp [ConditionalKind.text, Piece.text, hkeyword]

theorem Item.listPieces_eq_flatMap (items : List Item) :
    Item.listPieces items = items.flatMap Item.pieces := by
  induction items with
  | nil => rfl
  | cons item items ih => rw [Item.listPieces, ih, List.flatMap_cons]

namespace Parser

variable {n room : Nat} {stage : Stage}

theorem transcribes_directiveName :
    Transcribes (.brackets n) [] directiveName fun name => [.line ("#" ++ name)] := by
  intro lead input name rest hin hm
  rw [List.append_nil, Ledger.holds_brackets] at hin
  rw [Ledger.holds_brackets]
  unfold directiveName at hm
  split at hm
  · next tail =>
    dsimp only at hm
    split at hm
    · next found last hhead =>
      obtain ⟨rfl, rfl⟩ := Reply.matched.inj hm
      have hskip : (tail.dropWhile fun c => c == ' ' || c == '\t').count '(' ≤ tail.count '(' :=
        (List.dropWhile_sublist _).count_le '('
      rw [Word.atHead?_eq hhead, List.count_append] at hskip
      have hname : ("#" ++ found).toList.count '(' = found.toList.count '(' := by simp
      simp only [brackets_append, brackets_cons, brackets_nil, Piece.text, hname]
      rw [List.count_cons_of_ne (by decide)] at hin
      omega
    · cases hm
  · cases hm

theorem transcribes_directiveValue :
    Transcribes (.brackets n) [] directiveValue fun value => [.line value] := by
  intro lead input value rest hin hm
  rw [List.append_nil, Ledger.holds_brackets] at hin
  rw [Ledger.holds_brackets]
  obtain ⟨rfl, rfl⟩ := Reply.matched.inj hm
  have htrim := (WhiteSpace.trim_sublist (Directive.line input)).count_le '('
  have hskip := (Blank.skip_suffix (input.drop (Directive.line input).length)).sublist.count_le '('
  have hsplit : (Directive.line input).count '(' +
      (input.drop (Directive.line input).length).count '(' = input.count '(' := by
    rw [← List.count_append, List.prefix_iff_eq_append.1 (Directive.line_prefix input)]
  simp only [brackets_append, brackets_cons, brackets_nil, Piece.text, String.toList_ofList]
  omega

theorem Transcribes.nextMarker {L : Ledger} {before : List Piece} :
    Transcribes L before nextMarker fun _ => before := by
  intro lead input v rest hin hm
  cases hm
  exact hin

/-! ## Items without branches -/

theorem transcribes_precisionItem {L : Ledger} : Transcribes L [] precisionItem Item.pieces := by
  refine (transcribes_keyword "precision").bind fun _ =>
    (transcribes_precisionQualifier.behind _).bind fun level => ?_
  cases level with
  | none => exact .fail _
  | some level =>
    exact (transcribes_typeName.commit.behind _).bind fun type =>
      ((transcribes_symbol (by decide)).commit.behind _).bind fun _ =>
        .pure (List.Sublist.refl _)

theorem transcribes_invariantItem {L : Ledger} : Transcribes L [] invariantItem Item.pieces := by
  have hnames := Transcribes.separated (L := L) transcribes_identifier transcribes_identifier
    (transcribes_symbol (t := ",") (by decide))
  refine (transcribes_keyword "invariant").bind fun _ => (hnames.behind _).bind fun names =>
    ((transcribes_symbol (by decide)).commit.behind _).bind fun _ => .pure ?_
  exact List.Sublist.refl _

theorem transcribes_functionRest {start : List Char} {type : QualifiedType} {name : String} :
    Transcribes (.brackets n) (type.pieces ++ [.token name, .token "("])
      (functionRest room start type name) Item.pieces := by
  unfold functionRest
  split
  · exact .failAt _ _
  · refine ((transcribes_parameters room).commit.behind _).bind fun params =>
      ((transcribes_symbol (by decide)).behind _).optional.bind fun semicolon => ?_
    cases semicolon with
    | some _ => exact .pure (by simp [Item.pieces, Prototype.pieces, parenthesized])
    | none =>
      refine Transcribes.lookingAt.bind fun brace => ?_
      cases brace with
      | true =>
        refine ((transcribes_block room).behind _).bind fun body => .pure ?_
        simp [Item.pieces, Prototype.pieces, parenthesized]
      | false => exact .fail _

theorem transcribes_typedItem :
    Transcribes (.brackets n) [] (typedItem room stage) Item.pieces := by
  refine Transcribes.here.bind fun start => (transcribes_qualifiedType room).bind fun type =>
    Transcribes.lookingAt.bind fun bare => ?_
  cases bare with
  | true => exact transcribes_bareDeclaration.bind fun _ => .pure (List.Sublist.refl _)
  | false =>
    refine (transcribes_declaredName.behind _).bind fun name =>
      ((transcribes_symbol (by decide)).behind _).optional.bind fun bracket => ?_
    cases bracket with
    | some _ =>
      have hrest : Transcribes (.brackets n) (type.pieces ++ [.token name, .token "("])
          (functionRest room start type name) Item.pieces := transcribes_functionRest
      rwa [show type.pieces ++ [Piece.token name, .token "("] =
        type.pieces ++ [.token name] ++ [.token "("] by simp] at hrest
    | none => exact transcribes_declarationRest.bind fun _ => .pure (List.Sublist.refl _)

theorem transcribes_plainItem :
    Transcribes (.brackets n) [] (plainItem room stage) Item.pieces := by
  refine Transcribes.nextWord.bind fun word => ?_
  split
  · exact transcribes_precisionItem
  · refine transcribes_invariantItem.optional.bind fun item => ?_
    cases item with
    | some item => exact .pure (List.Sublist.refl _)
    | none => exact transcribes_typedItem
  · exact transcribes_typedItem

/-! ## Conditionals -/

variable {items : Parser (List Item)}

theorem transcribes_marker (m : BranchMarker) :
    Transcribes (.brackets n) [] (marker m) fun value => [.line value] := by
  refine Transcribes.nextMarker.bind fun found => ?_
  split
  · exact transcribes_directiveName.bind fun _ => (transcribes_directiveValue.behind _).mono
      fun _ => List.sublist_append_right _ _
  · exact .mismatch _

theorem transcribes_elifBranch (hitems : Transcribes (.brackets n) [] items Item.listPieces) :
    Transcribes (.brackets n) [] (elifBranch items) fun branch =>
      .line ("#elif " ++ branch.1) :: Item.listPieces branch.2 := by
  refine Transcribes.here.bind fun start => (transcribes_marker .elif).bind fun condition => ?_
  split
  · exact .failAt _ _
  · exact (hitems.behind _).bind fun body => .pure_of_le (by simp [Piece.text])

theorem branchPieces_foldr (elifs : List (String × List Item)) (last : Branches) :
    Item.branchPieces (elifs.foldr (fun branch rest => .elif branch.1 branch.2 rest) last) =
      elifs.flatMap (fun branch => .line ("#elif " ++ branch.1) :: Item.listPieces branch.2) ++
        Item.branchPieces last := by
  induction elifs with
  | nil => rfl
  | cons branch elifs ih =>
    rw [List.foldr_cons, Item.branchPieces, ih, List.flatMap_cons, List.append_assoc]

theorem transcribes_closing {opener : List Char} {kind : ConditionalKind} {before : List Piece} :
    Transcribes (.brackets n) before (closing opener kind) fun _ => before := by
  refine Transcribes.nextMarker.bind fun found => ?_
  split
  · exact .failAt _ _
  · exact .fail _
  · exact .fail _
  · exact ((transcribes_marker .done).behind _).bind fun _ => .pure (List.sublist_append_left _ _)

theorem transcribes_branches (hitems : Transcribes (.brackets n) [] items Item.listPieces)
    {opener : List Char} {kind : ConditionalKind} :
    Transcribes (.brackets n) [] (branches opener kind items) Item.branchPieces := by
  refine ((transcribes_elifBranch hitems).many []).bind fun elifs =>
    ((transcribes_marker .otherwise).behind _).optional.bind fun otherwise => ?_
  let before := elifs.flatMap fun branch =>
    Piece.line ("#elif " ++ branch.1) :: Item.listPieces branch.2
  have hend : ∀ last, Transcribes (.brackets n) (before ++ Item.branchPieces last) (do
      closing opener kind
      return elifs.foldr (fun branch rest => .elif branch.1 branch.2 rest) last)
      Item.branchPieces := by
    intro last
    refine transcribes_closing.bind fun _ => .pure ?_
    rw [branchPieces_foldr]
  cases otherwise with
  | some value =>
    refine Transcribes.bind (f := fun last => before ++ Item.branchPieces last) ?_ hend
    refine (hitems.behind _).bind fun body => .pure_of_le ?_
    simp [before, Item.branchPieces, Piece.text]
  | none =>
    refine Transcribes.bind (f := fun last => before ++ Item.branchPieces last) ?_ hend
    exact .pure_of_le (by simp [before, Item.branchPieces, Piece.text])

theorem transcribes_directiveItem {conditional : List Char → ConditionalKind → Parser Item}
    (h : ∀ opener kind, Transcribes (.brackets n) [] (conditional opener kind) Item.pieces) :
    Transcribes (.brackets n) [] (directiveItem conditional) Item.pieces := by
  refine Transcribes.here.bind fun start => transcribes_directiveName.bind fun name => ?_
  split
  · exact .mismatchAt _ _
  · split
    · exact ((h _ _).behind _).mono fun _ => List.sublist_append_right _ _
    · split
      · refine (transcribes_directiveValue.behind _).bind fun value => .pure_of_le ?_
        exact (Directive.brackets_text ⟨name, value⟩).le
      · exact .failAt _ _

theorem transcribes_itemOf {conditional : List Char → ConditionalKind → Parser Item}
    (h : ∀ opener kind, Transcribes (.brackets n) [] (conditional opener kind) Item.pieces) :
    Transcribes (.brackets n) [] (itemOf room stage conditional) Item.pieces := by
  refine Transcribes.here.bind fun input => ?_
  split
  · exact .mismatch _
  · exact transcribes_directiveItem h
  · exact transcribes_plainItem.commit

theorem transcribes_many_items {item : Parser Item}
    (h : Transcribes (.brackets n) [] item Item.pieces) :
    Transcribes (.brackets n) [] (many item) Item.listPieces := by
  refine (h.many []).mono fun items => ?_
  rw [List.nil_append, ← Item.listPieces_eq_flatMap]

/-- What `conditionalItem` reads is accounted for by `Ledger.brackets`. By induction on the room: a
conditional takes one level from the room of its branches. -/
theorem transcribes_conditionalItem (stage : Stage) (room : Nat) (opener : List Char)
    (kind : ConditionalKind) :
    Transcribes (.brackets n) [] (conditionalItem stage room opener kind) Item.pieces := by
  induction room generalizing opener kind with
  | zero =>
    intro lead input item rest hin hm
    rw [conditionalItem] at hm
    cases hm
  | succ room ih =>
    have hitem : Transcribes (.brackets n) [] (itemOf room stage (conditionalItem stage room))
        Item.pieces := transcribes_itemOf ih
    have hitems := transcribes_many_items hitem
    refine transcribes_directiveValue.bind fun condition => ?_
    split
    · exact .failAt _ _
    · refine (hitems.behind _).bind fun body => ((transcribes_branches hitems).behind _).bind
        fun rest => .pure_of_le ?_
      rw [Item.pieces, List.cons_append, ← List.singleton_append, brackets_append,
        ConditionalKind.brackets_text, ← brackets_append, ← List.append_assoc]

theorem transcribes_blank {before : List Piece} :
    Transcribes (.brackets n) before blank fun _ => before := by
  intro lead input v rest hin hm
  cases hm
  have hskip := (Blank.skip_suffix input).sublist.count_le '('
  exact (Nat.add_le_add_left hskip _).trans hin

theorem transcribes_shader (stage : Stage) :
    Transcribes (.brackets n) [] (shader stage) Shader.pieces := by
  refine transcribes_blank.bind fun _ => (transcribes_many_items (transcribes_itemOf
    (transcribes_conditionalItem stage maxNesting))).bind fun items =>
      Transcribes.nextMarker.bind fun marker => ?_
  cases marker with
  | some _ => exact .fail _
  | none => exact .pure (List.Sublist.refl _)

theorem Transcribes.brackets_le_of_run {α : Type} {p : Parser α} {f : α → List Piece}
    {source : String} {v : α} (hp : ∀ n, Transcribes (.brackets n) [] p f)
    (h : p.run source = .ok v) : brackets (f v) ≤ source.toList.count '(' := by
  have hstart : (Ledger.brackets (source.toList.count '(')).Holds source.toList ([] ++ []) :=
    Ledger.holds_brackets.2 (by simp)
  have hout := hp _ [] _ _ _ hstart (run_eq_ok.1 h)
  simpa [Ledger.holds_brackets] using hout

end Parser

/-! ## Texts -/

theorem Pen.count_writeAll (pen : Pen) (ps : List Piece) :
    (pen.writeAll ps).count '(' = brackets ps := by
  have hlexeme : ∀ (pen : Pen) (text : List Char),
      (pen.lexeme text).count '(' = text.count '(' := by
    intro pen text
    cases text with
    | nil => rfl
    | cons c text =>
      have hgap : (pen.gap c).count '(' = 0 := by
        unfold Pen.gap
        split
        · rfl
        · split <;> rfl
      rw [Pen.lexeme, List.count_append, hgap, Nat.zero_add]
  have hline : ∀ pen : Pen, pen.lineStart.count '(' = 0 := by
    intro pen
    unfold Pen.lineStart
    split <;> rfl
  have hwrite : ∀ (pen : Pen) (p : Piece), (pen.write p).count '(' = p.text.toList.count '(' := by
    intro pen p
    cases p with
    | token t => exact hlexeme pen _
    | number t => exact hlexeme pen _
    | line t => simp [Pen.write, Piece.text, hline]
  induction ps generalizing pen with
  | nil => rfl
  | cons p ps ih => rw [Pen.writeAll, List.count_append, hwrite, ih, brackets_cons]

namespace Tree

theorem count_emit (tree : Tree) : tree.emit.toList.count '(' = brackets tree.pieces := by
  rw [emit, layout, String.toList_ofList, Pen.count_writeAll]

theorem brackets_le_of_parse {source : String} {rule : StartRule} {tree : Tree}
    (h : parse source rule = .ok tree) : brackets tree.pieces ≤ source.toList.count '(' := by
  cases rule with
  | shader stage =>
    obtain ⟨s, hs, rfl⟩ := map_eq_ok.1 h
    exact Parser.Transcribes.brackets_le_of_run (f := Shader.pieces)
      (fun _ => Parser.transcribes_shader stage) hs
  | condition =>
    obtain ⟨e, he, rfl⟩ := map_eq_ok.1 h
    exact Parser.Transcribes.brackets_le_of_run (f := Expr.pieces)
      (fun _ => Parser.transcribes_blank.bind fun _ => Parser.transcribes_expression _) he
  | statement =>
    obtain ⟨s, hs, rfl⟩ := map_eq_ok.1 h
    exact Parser.Transcribes.brackets_le_of_run (f := Statement.pieces)
      (fun _ => Parser.transcribes_blank.bind fun _ => Parser.transcribes_statement _) hs

theorem expression_of_parse {source : String} {rule : StartRule} {e : Expr}
    (h : parse source rule = .ok (.expression e)) : Expr.parse source = .ok e := by
  cases rule with
  | shader stage =>
    obtain ⟨s, -, heq⟩ := map_eq_ok.1 h
    cases heq
  | condition =>
    obtain ⟨e', he, heq⟩ := map_eq_ok.1 h
    cases heq
    exact he
  | statement =>
    obtain ⟨s, -, heq⟩ := map_eq_ok.1 h
    cases heq

/-- Canonical text has no more brackets than any source that `Tree.parse` reads as its tree, and a
pair of them that is left out of it changes the tree. All lexemes of the text of an expression stand
in each source of it, in their order (`Lexed`). -/
theorem count_bracket_emit_le {source : String} {rule : StartRule} {tree : Tree}
    (h : parse source rule = .ok tree) :
    tree.emit.toList.count '(' ≤ source.toList.count '(' ∧
      (∀ before inner after, tree.pieces = before ++ parenthesized inner ++ after →
        parse (layout (before ++ inner ++ after)) rule ≠ .ok tree) ∧
      ∀ e, tree = .expression e →
        ∃ lexemes, Lexed (Blank.skip source.toList) lexemes [] ∧ e.pieces <+ lexemes := by
  refine ⟨?_, fun before inner after hpieces hparse => ?_, ?_⟩
  · rw [count_emit]
    exact brackets_le_of_parse h
  · have hle := brackets_le_of_parse hparse
    rw [layout, String.toList_ofList, Pen.count_writeAll, hpieces] at hle
    simp [parenthesized, Piece.text] at hle
  · rintro e rfl
    exact Expr.lexed_of_parse (expression_of_parse h)

/-- Of the brackets in a loop two pairs are kept by `emit`: that of the condition and that of the
sum. -/
theorem count_bracket_emit_le_loop :
    ∃ tree, parse "while((x))y=(a+(b))*(c);" .statement = .ok tree ∧
      tree.emit = "while(x)y=(a+b)*c;" ∧ tree.emit.toList.count '(' ≤ 5 ∧
        parse "while(x)y=a+b*c;" .statement ≠ .ok tree := by
  have hparse : parse "while((x))y=(a+(b))*(c);" .statement =
      .ok (.statement (.whileLoop (.identifier "x") (.simple (.expression (some
        (.assign .set (.identifier "y") (.binary .mul
          (.binary .add (.identifier "a") (.identifier "b")) (.identifier "c")))))))) := by
    decide +kernel
  have hcount : "while((x))y=(a+(b))*(c);".toList.count '(' = 5 := by decide +kernel
  obtain ⟨hle, hpair, -⟩ := count_bracket_emit_le hparse
  rw [hcount] at hle
  -- the pieces before the brackets of the sum, between them and behind them
  have hopen := hpair (["while", "(", "x", ")", "y", "="].map .token) (["a", "+", "b"].map .token)
    (["*", "c", ";"].map .token) (by decide +kernel)
  have htext : layout (["while", "(", "x", ")", "y", "="].map .token ++
      (["a", "+", "b"].map .token) ++ (["*", "c", ";"].map .token)) = "while(x)y=a+b*c;" := by
    decide +kernel
  rw [htext] at hopen
  exact ⟨_, hparse, by decide +kernel, hle, hopen⟩

end Tree

end ShaderMinifier
