import ShaderMinifier.Proofs.Statement.Within
import ShaderMinifier.Proofs.Text.Location
import ShaderMinifier.Tree

/-
  Errors name a place of the source. Its offset is what the source has more bytes than the text that
  the fault points at, which is a place between characters only because that text is an end of the
  source, also for the faults that are reported where a conditional or a declaration began.
-/

namespace ShaderMinifier

variable {α : Type}

/-! ## Items -/

namespace Parser

section Items

variable {source : List Char} (room : Nat) (stage : Stage)

theorem within_directiveName : Within source directiveName := by
  intro input hin
  unfold directiveName
  split
  · next rest =>
    have hline : rest.dropWhile (fun c => c == ' ' || c == '\t') <:+ source :=
      (List.dropWhile_suffix _).trans ((List.suffix_cons '#' rest).trans hin)
    dsimp only
    split
    · next hword => exact (Word.atHead?_suffix hword).1.trans hline
    · exact hline
  · exact hin

theorem within_directiveValue : Within source directiveValue := fun input hin =>
  (Blank.skip_suffix _).trans ((List.drop_suffix _ input).trans hin)

theorem within_nextMarker : Within source nextMarker := fun _ hin => hin

theorem within_marker (expected : BranchMarker) : Within source (marker expected) := by
  refine within_nextMarker.bind fun found => ?_
  split
  · exact within_directiveName.bind fun _ => within_directiveValue
  · exact .mismatch _

theorem within_precisionItem : Within source precisionItem := by
  refine (within_keyword _).bind fun _ => within_precisionQualifier.bind fun level => ?_
  cases level with
  | none => exact .fail _
  | some level =>
    exact (within_wordWhere _).commit.bind fun _ => (within_symbol _).commit.bind fun _ => .pure _

theorem within_invariantItem : Within source invariantItem :=
  (within_keyword _).bind fun _ => (Within.sepBy1 (within_symbol _) (within_wordWhere _)).bind
    fun _ => (within_symbol _).commit.bind fun _ => .pure _

theorem within_functionRest {start : List Char} (hstart : start <:+ source) (type : QualifiedType)
    (name : String) : Within source (functionRest room start type name) := by
  unfold functionRest
  split
  · exact .failAt hstart _
  · refine (within_parameters room).commit.bind fun params =>
      (within_symbol _).optional.bind fun ends => ?_
    cases ends with
    | some _ => exact .pure _
    | none =>
      refine (Within.lookingAt _).bind fun opens => ?_
      split
      · exact (within_blockOf (within_statement room)).bind fun _ => .pure _
      · exact .fail _

theorem within_typedItem : Within source (typedItem room stage) := by
  refine .here fun start hstart => (within_qualifiedType room).bind fun type =>
    (Within.lookingAt _).bind fun bare => ?_
  split
  · exact (within_bareDeclaration hstart stage _ type).bind fun _ => .pure _
  · refine within_declaredName.bind fun name => (within_symbol _).optional.bind fun opens => ?_
    cases opens with
    | some _ => exact within_functionRest room hstart type name
    | none =>
      exact (within_declarationRest room hstart stage _ type name).bind fun _ => .pure _

theorem within_plainItem : Within source (plainItem room stage) := by
  refine within_nextWord.bind fun word => ?_
  split
  · exact within_precisionItem
  · refine within_invariantItem.optional.bind fun item => ?_
    cases item with
    | some _ => exact .pure _
    | none => exact within_typedItem room stage
  · exact within_typedItem room stage

section Conditionals

variable {opener : List Char} {items : Parser (List Item)}
  {conditional : List Char → ConditionalKind → Parser Item}

theorem within_elifBranch (hitems : Within source items) : Within source (elifBranch items) := by
  refine .here fun start hstart => (within_marker _).bind fun condition => ?_
  split
  · exact .failAt hstart _
  · exact hitems.bind fun _ => .pure _

/-- A conditional that is not closed is reported at its `opener`, where it opens, which is an end of
the source too. -/
theorem within_closing (hopener : opener <:+ source) (kind : ConditionalKind) :
    Within source (closing opener kind) := by
  refine within_nextMarker.bind fun found => ?_
  split
  · exact .failAt hopener _
  · exact .fail _
  · exact .fail _
  · exact (within_marker _).bind fun _ => .pure _

theorem within_branches (hopener : opener <:+ source) (kind : ConditionalKind)
    (hitems : Within source items) : Within source (branches opener kind items) := by
  have hclose : ∀ result : Branches,
      Within source (do closing opener kind; return result) :=
    fun _ => (within_closing hopener kind).bind fun _ => .pure _
  refine (within_elifBranch hitems).many.bind fun elifs =>
    (within_marker _).optional.bind fun last => ?_
  cases last with
  | some _ => exact Within.bind (hitems.bind fun _ => .pure _) fun _ => hclose _
  | none => exact Within.bind (.pure _) fun _ => hclose _

theorem within_directiveItem
    (hcond : ∀ opener kind, opener <:+ source → Within source (conditional opener kind)) :
    Within source (directiveItem conditional) := by
  refine .here fun start hstart => within_directiveName.bind fun name => ?_
  split
  · exact .mismatchAt hstart _
  · split
    · exact hcond _ _ hstart
    · split
      · exact within_directiveValue.bind fun _ => .pure _
      · exact .failAt hstart _

theorem within_itemOf
    (hcond : ∀ opener kind, opener <:+ source → Within source (conditional opener kind)) :
    Within source (itemOf room stage conditional) := by
  refine .here fun place _ => ?_
  split
  · exact .mismatch _
  · exact within_directiveItem hcond
  · exact (within_plainItem room stage).commit

/-- Replies of `conditionalItem` are `Within` the source. By induction on the room: the items of a
conditional have one level less. -/
theorem within_conditionalItem (kind : ConditionalKind) (hopener : opener <:+ source) :
    Within source (conditionalItem stage room opener kind) := by
  induction room generalizing opener kind with
  | zero => exact Within.failAt hopener _
  | succ room ih =>
    have hitems : Within source (many (itemOf room stage (conditionalItem stage room))) :=
      (within_itemOf room stage fun _ kind hopener => ih kind hopener).many
    refine Within.bind within_directiveValue fun condition => ?_
    split
    · exact .failAt hopener _
    · exact hitems.bind fun _ => (within_branches hopener kind hitems).bind fun _ => .pure _

end Conditionals

theorem within_shader : Within source (shader stage) := by
  have hitem : Within source (itemOf maxNesting stage (conditionalItem stage maxNesting)) :=
    within_itemOf _ _ fun _ kind hopener => within_conditionalItem _ _ kind hopener
  refine within_blank.bind fun _ => hitem.many.bind fun items => within_nextMarker.bind
    fun found => ?_
  cases found with
  | some marker => exact .fail _
  | none => exact .pure _

end Items

/-! ## The fault of a whole source -/

/-- The fault that the reading of a whole source ends in, if it does; what `Parser.run` turns into
its error. -/
def fault? (p : Parser α) (source : List Char) : Option Fault :=
  match p source with
  | .matched _ [] => none
  | .matched _ rest => some ⟨rest, .remaining⟩
  | .mismatch fault => some fault
  | .failure fault => some fault

theorem run_eq_error {p : Parser α} {source : String} {e : SyntaxError} :
    p.run source = .error e ↔ ∃ fault, p.fault? source.toList = some fault ∧
      fault.toError source = e := by
  unfold run fault?
  cases p source.toList with
  | matched v rest => cases rest <;> simp
  | mismatch fault => simp
  | failure fault => simp

theorem Within.fault? {p : Parser α} {source : List Char} {fault : Fault} (h : Within source p)
    (hfault : p.fault? source = some fault) : fault.rest <:+ source := by
  have hreply := h source (List.suffix_refl _)
  unfold Parser.fault? at hfault
  cases hp : p source with
  | matched v rest =>
    rw [hp] at hreply hfault
    cases rest with
    | nil => cases hfault
    | cons c rest =>
      obtain rfl := Option.some.inj hfault
      exact hreply
  | mismatch f | failure f =>
    rw [hp] at hreply hfault
    obtain rfl := Option.some.inj hfault
    exact hreply

end Parser

/-- The fault that the reading of a text from this entry point ends in, for the three parsers that
`Tree.parse` runs. -/
def StartRule.fault? (source : List Char) : StartRule → Option Fault
  | .shader stage => (Parser.shader stage).fault? source
  | .condition => Parser.fault? (do Parser.blank; Parser.expression Parser.maxNesting) source
  | .statement => Parser.fault? (do Parser.blank; Parser.statement Parser.maxNesting) source

theorem StartRule.rest_fault? {source : List Char} {rule : StartRule} {fault : Fault}
    (h : rule.fault? source = some fault) : fault.rest <:+ source := by
  cases rule with
  | shader stage => exact (Parser.within_shader stage).fault? h
  | condition =>
    exact (Parser.within_blank.bind fun _ => Parser.within_expression _).fault? h
  | statement =>
    exact (Parser.within_blank.bind fun _ => Parser.within_statement _).fault? h

theorem Tree.parse_eq_error {source : String} {rule : StartRule} {e : SyntaxError} :
    Tree.parse source rule = .error e ↔ ∃ fault, rule.fault? source.toList = some fault ∧
      fault.toError source = e := by
  have hmap : ∀ {β : Type} (f : β → Tree) (result : Except SyntaxError β),
      f <$> result = .error e ↔ result = .error e := by
    intro β f result
    cases result <;> simp [Functor.map, Except.map]
  cases rule with
  | shader stage => exact (hmap _ _).trans Parser.run_eq_error
  | condition => exact (hmap _ _).trans Parser.run_eq_error
  | statement => exact (hmap _ _).trans Parser.run_eq_error

theorem Fault.location_toError {source : String} {before : List Char} {fault : Fault}
    (h : source.toList = before ++ fault.rest) :
    (fault.toError source).location = Location.after before := by
  rw [toError, h, byteLength_append, Nat.add_sub_cancel, SyntaxError.location_ofOffset h]

/-- Errors of `Tree.parse` are reported at a place of the source: the offset is no larger than the
source, it lies between two characters, where what the `Fault` points at begins, and the line and
the column count the line feeds before it and the characters since the last of them (`PlaceOf`). The
place can be told from line and column: further into the source they grow (`lineColumn`). -/
theorem Tree.parse_error_place (source : String) :
    (∀ rule e, Tree.parse source rule = .error e →
      (∃ fault, rule.fault? source.toList = some fault ∧ fault.toError source = e ∧
        fault.rest <:+ source.toList ∧
        e.location.position + byteLength fault.rest = source.utf8ByteSize) ∧
      e.location.position ≤ source.utf8ByteSize ∧
      (String.Pos.Raw.mk e.location.position).IsValid source ∧
      e.location.PlaceOf source.toList) ∧
    ∀ message : String,
      (∀ position, (String.Pos.Raw.mk position).IsValid source →
        (SyntaxError.ofOffset source position message).location.position = position ∧
        (SyntaxError.ofOffset source position message).location.PlaceOf source.toList) ∧
      StrictMonoOn
        (fun position => (SyntaxError.ofOffset source position message).location.lineColumn)
        {position | (String.Pos.Raw.mk position).IsValid source} ∧
      Set.InjOn
        (fun position => (SyntaxError.ofOffset source position message).location.lineColumn)
        {position | (String.Pos.Raw.mk position).IsValid source} := by
  constructor
  · intro rule e h
    obtain ⟨fault, hfault, rfl⟩ := Tree.parse_eq_error.1 h
    obtain ⟨before, hbefore⟩ := StartRule.rest_fault? hfault
    have hbytes : byteLength before + byteLength fault.rest = source.utf8ByteSize := by
      rw [← byteLength_append, hbefore, byteLength_toList]
    rw [Fault.location_toError hbefore.symm]
    refine ⟨⟨fault, hfault, rfl, ⟨before, hbefore⟩, hbytes⟩, ?_, ?_,
      Location.placeOf_after hbefore.symm⟩
    · exact hbytes ▸ Nat.le_add_right _ _
    · exact isValid_iff.2 ⟨before, fault.rest, hbefore.symm, rfl⟩
  · intro message
    have hmono := SyntaxError.strictMonoOn_lineColumn source message
    refine ⟨fun position hposition => ?_, hmono, hmono.injOn⟩
    obtain ⟨before, rest, hbefore, rfl⟩ := isValid_iff.1 hposition
    rw [SyntaxError.location_ofOffset hbefore]
    exact ⟨rfl, Location.placeOf_after hbefore⟩

/-- A conditional that is never closed, behind a comment with characters of two bytes: the reading
stops at the end of the source, and the error is reported at the hash, further on by `lineColumn`
than the place between the two characters. -/
theorem Tree.parse_error_place_opener :
    ∃ e, Tree.parse "\n/*éé*/ #if A\nint a;" (.shader .vertex) = .error e ∧
      e.location = ⟨10, 2, 8⟩ ∧
      (String.Pos.Raw.mk 10).IsValid "\n/*éé*/ #if A\nint a;" ∧
      (SyntaxError.ofOffset "\n/*éé*/ #if A\nint a;" 5 "").location.lineColumn <
        (SyntaxError.ofOffset "\n/*éé*/ #if A\nint a;" 10 "").location.lineColumn := by
  have h : Tree.parse "\n/*éé*/ #if A\nint a;" (.shader .vertex) =
      .error ⟨(Cause.unterminated .ifTrue).message (some '#'), ⟨10, 2, 8⟩⟩ := by
    decide +kernel
  obtain ⟨herror, horder⟩ := Tree.parse_error_place "\n/*éé*/ #if A\nint a;"
  have hten := (herror _ _ h).2.2.1
  have hfive : (String.Pos.Raw.mk 5).IsValid "\n/*éé*/ #if A\nint a;" :=
    isValid_iff.2 ⟨['\n', '/', '*', 'é'], "é*/ #if A\nint a;".toList, by decide +kernel, by decide⟩
  exact ⟨_, h, rfl, hten, (horder "").2.1 hfive hten (by decide)⟩

end ShaderMinifier
