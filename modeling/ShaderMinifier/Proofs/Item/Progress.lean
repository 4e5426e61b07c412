import ShaderMinifier.Item.Parser
import ShaderMinifier.Proofs.Grammar.Script
import ShaderMinifier.Proofs.Item.Continuation
import ShaderMinifier.Proofs.Statement.Progress

/-
  Items read something too: an item starts with a lexeme or with the hash of a directive, and a
  conditional ends with the line that closes it. The value of a directive is read row by row; each
  row but the last ends in a line feed that a backslash makes part of the value.
-/

namespace ShaderMinifier

/-! ## Rows of a directive -/

namespace Directive

/-- The characters before the first line feed, one row of a directive's `line`. -/
def row (text : List Char) : List Char := text.takeWhile (· != '\n')

/-- The first line feed and what follows it, what `row` leaves. -/
def behindRow (text : List Char) : List Char := text.dropWhile (· != '\n')

/-- What follows the first line feed, if the backslash right before it keeps the line going; one
step of `line`. -/
def nextRow? (text : List Char) : Option (List Char) :=
  match behindRow text with
  | [] => none
  | _ :: rest => if (row text).getLast? = some '\\' then some rest else none

theorem row_append (text : List Char) : row text ++ behindRow text = text :=
  List.takeWhile_append_dropWhile

theorem eq_feed_of_behindRow {text rest : List Char} {c : Char} (h : behindRow text = c :: rest) :
    c = '\n' := by
  have hfeed := List.head?_dropWhile_not (· != '\n') text
  rw [← behindRow, h] at hfeed
  simpa using hfeed

theorem nextRow?_eq_some {text rest : List Char} (h : nextRow? text = some rest) :
    (row text).getLast? = some '\\' ∧ behindRow text = '\n' :: rest := by
  unfold nextRow? at h
  split at h
  · cases h
  · next c tail hbehind =>
    split at h
    · next hlast =>
      obtain rfl := Option.some.inj h
      obtain rfl := eq_feed_of_behindRow hbehind
      exact ⟨hlast, hbehind⟩
    · cases h

theorem shortens_nextRow? : Shortens nextRow? := by
  intro input rest h
  have hinput := row_append input
  rw [(nextRow?_eq_some h).2] at hinput
  rw [← hinput]
  refine ⟨(List.suffix_cons _ _).trans (List.suffix_append _ _), ?_⟩
  rw [List.length_append, List.length_cons]
  omega

/-- A `row` has no line feed, so it is a `line` of its own. -/
theorem line_row (text : List Char) : line (row text) = row text := by
  induction text with
  | nil => rfl
  | cons c text ih =>
    by_cases hc : c = '\n'
    · simp [row, hc, line]
    · have hcons : row (c :: text) = c :: row text := by simp [row, hc]
      rw [hcons, line_cons hc fun _ => ih ▸ head_line (row text), ih]

theorem line_of_nextRow? {text rest : List Char} (h : nextRow? text = some rest) :
    line text = row text ++ '\n' :: line rest := by
  obtain ⟨hlast, hbehind⟩ := nextRow?_eq_some h
  rw [← line_append_continued (line_row text) hlast rest, ← hbehind, row_append]

theorem line_of_nextRow?_eq_none {text : List Char} (h : nextRow? text = none) :
    line text = row text := by
  unfold nextRow? at h
  split at h
  · next hbehind =>
    have htext := row_append text
    rw [hbehind, List.append_nil] at htext
    have hline := line_row text
    rwa [htext] at hline ⊢
  · next c rest hbehind =>
    obtain rfl := eq_feed_of_behindRow hbehind
    have hlast : (row text).getLast? ≠ some '\\' := by
      intro hlast
      rw [if_pos hlast] at h
      cases h
    have hline := line_append (line_row text) hlast rest
    rwa [← hbehind, row_append] at hline

theorem line_stopsAt (input : List Char) :
    ∃ last, StopsAt nextRow? input last ∧ input = line input ++ behindRow last := by
  induction hn : input.length using Nat.strong_induction_on generalizing input with
  | _ n ih =>
    subst hn
    cases hnext : nextRow? input with
    | none =>
      refine ⟨input, .refl hnext, ?_⟩
      rw [line_of_nextRow?_eq_none hnext, row_append]
    | some rest =>
      obtain ⟨last, hstops, hrest⟩ := ih _ (shortens_nextRow? _ _ hnext).2 rest rfl
      refine ⟨last, .step hnext hstops, ?_⟩
      have hinput := row_append input
      rw [(nextRow?_eq_some hnext).2] at hinput
      rw [line_of_nextRow? hnext, List.append_assoc, List.cons_append, ← hrest, hinput]

end Directive

namespace Parser

theorem directiveValue_stopsAt (input : List Char) :
    ∃ text last, StopsAt Directive.nextRow? input last ∧ input = text ++ Directive.behindRow last ∧
      directiveValue input = .matched (String.ofList (WhiteSpace.trim text))
        (Blank.skip (Directive.behindRow last)) := by
  obtain ⟨last, hstops, hinput⟩ := Directive.line_stopsAt input
  refine ⟨_, last, hstops, hinput, ?_⟩
  have hdrop : (Directive.line input ++ Directive.behindRow last).drop
      (Directive.line input).length = Directive.behindRow last := List.drop_left
  rw [← hinput] at hdrop
  rw [directiveValue, hdrop]

/-! ## Items -/

section Items

variable (room : Nat) (stage : Stage)

theorem takes_directiveName : Takes directiveName := by
  intro input v rest h
  unfold directiveName at h
  split at h
  · next tail =>
    have hdrop : tail.dropWhile (fun c => c == ' ' || c == '\t') <:+ tail := List.dropWhile_suffix _
    dsimp only at h
    split at h
    · next hword =>
      obtain ⟨-, rfl⟩ := Reply.matched.inj h
      have hrest := (Word.atHead?_suffix hword).1.trans hdrop
      exact ⟨hrest.trans (List.suffix_cons _ _), Nat.lt_succ_of_le hrest.length_le⟩
    · cases h
  · cases h

theorem keeps_directiveValue : Keeps directiveValue := by
  intro input v rest h
  obtain ⟨-, rfl⟩ := Reply.matched.inj h
  exact (Blank.skip_suffix _).trans (List.drop_suffix _ _)

theorem keeps_nextMarker : Keeps nextMarker := by
  intro input v rest h
  obtain ⟨-, rfl⟩ := Reply.matched.inj h
  exact List.suffix_refl _

theorem takes_marker (expected : BranchMarker) : Takes (marker expected) := by
  refine .behind keeps_nextMarker fun found => ?_
  split
  · exact takes_directiveName.bind fun _ => keeps_directiveValue
  · exact .mismatch _

theorem takes_precisionItem : Takes precisionItem := by
  refine (takes_keyword _).bind fun _ => keeps_precisionQualifier.bind fun level => ?_
  cases level with
  | none => exact (Takes.fail _).keeps
  | some level =>
    exact (takes_wordWhere _).keeps.commit.bind fun _ => (takes_symbol _).keeps.commit.bind fun _ =>
      .pure _

theorem takes_identifier : Takes identifier := takes_wordWhere _

theorem takes_invariantItem : Takes invariantItem :=
  (takes_keyword _).bind fun _ =>
    (Takes.sepBy1 (takes_symbol _).keeps takes_identifier).keeps.bind fun _ =>
      (takes_symbol _).keeps.commit.bind fun _ => .pure _

theorem takes_functionRest (start : List Char) (type : QualifiedType) (name : String) :
    Takes (functionRest room start type name) := by
  unfold functionRest
  split
  · exact .failAt _ _
  · refine (takes_parameters room).commit.bind fun params =>
      (takes_symbol _).keeps.optional.bind fun ends => ?_
    cases ends with
    | some _ => exact .pure _
    | none =>
      refine (Keeps.lookingAt _).bind fun opens => ?_
      split
      · exact (takes_blockOf (takes_statement room)).keeps.bind fun _ => .pure _
      · exact (Takes.fail _).keeps

theorem takes_typedItem : Takes (typedItem room stage) := by
  refine .behind .here fun start => (takes_qualifiedType room).bind fun type =>
    (Keeps.lookingAt _).bind fun bare => ?_
  split
  · exact (takes_bareDeclaration _ _ _ _).keeps.bind fun _ => .pure _
  · refine takes_declaredName.keeps.bind fun name => (takes_symbol _).keeps.optional.bind
      fun opens => ?_
    cases opens with
    | some _ => exact (takes_functionRest room _ _ _).keeps
    | none => exact (takes_declarationRest room _ _ _ _ _).keeps.bind fun _ => .pure _

theorem takes_plainItem : Takes (plainItem room stage) := by
  refine .behind keeps_nextWord fun word => ?_
  split
  · exact takes_precisionItem
  · refine takes_invariantItem.optional_bind (fun _ => .pure _) ?_
    exact takes_typedItem room stage
  · exact takes_typedItem room stage

section Conditionals

variable {opener : List Char} {items : Parser (List Item)}
  {conditional : List Char → ConditionalKind → Parser Item}

theorem takes_elifBranch (hitems : Keeps items) : Takes (elifBranch items) := by
  refine .behind .here fun start => (takes_marker _).bind fun condition => ?_
  split
  · exact (Takes.failAt _ _).keeps
  · exact hitems.bind fun _ => .pure _

theorem takes_closing (kind : ConditionalKind) : Takes (closing opener kind) := by
  refine .behind keeps_nextMarker fun found => ?_
  split
  · exact .failAt _ _
  · exact .fail _
  · exact .fail _
  · exact (takes_marker _).bind fun _ => .pure _

/-- Whatever branches there are, `branches` reads the line that closes the conditional. -/
theorem takes_branches (kind : ConditionalKind) (hitems : Keeps items) :
    Takes (branches opener kind items) := by
  have hclose : ∀ result : Branches, Takes (do closing opener kind; return result) :=
    fun _ => (takes_closing kind).bind fun _ => .pure _
  refine .behind (takes_elifBranch hitems).keeps.many fun elifs =>
    .behind (takes_marker _).keeps.optional fun last => ?_
  cases last with
  | some _ => exact .behind (hitems.bind fun _ => .pure _) fun _ => hclose _
  | none => exact .behind (.pure _) fun _ => hclose _

theorem takes_directiveItem (hcond : ∀ opener kind, Keeps (conditional opener kind)) :
    Takes (directiveItem conditional) := by
  refine .behind .here fun start => takes_directiveName.bind fun name => ?_
  split
  · exact (Takes.mismatchAt _ _).keeps
  · split
    · exact hcond _ _
    · split
      · exact keeps_directiveValue.bind fun _ => .pure _
      · exact (Takes.failAt _ _).keeps

theorem takes_itemOf (hcond : ∀ opener kind, Keeps (conditional opener kind)) :
    Takes (itemOf room stage conditional) := by
  refine .behind .here fun place => ?_
  split
  · exact .mismatch _
  · exact takes_directiveItem hcond
  · exact (takes_plainItem room stage).commit

/-- `conditionalItem` reads something. By induction on the room: the items of a conditional have one
level less. -/
theorem takes_conditionalItem (opener : List Char) (kind : ConditionalKind) :
    Takes (conditionalItem stage room opener kind) := by
  induction room generalizing opener kind with
  | zero => exact Takes.failAt _ _
  | succ room ih =>
    have hitems : Keeps (many (itemOf room stage (conditionalItem stage room))) :=
      (takes_itemOf room stage fun opener kind => (ih opener kind).keeps).keeps.many
    refine Takes.behind keeps_directiveValue fun condition => ?_
    split
    · exact .failAt _ _
    · exact .behind hitems fun _ => (takes_branches kind hitems).bind fun _ => .pure _

theorem takes_item : Takes (itemOf room stage (conditionalItem stage room)) :=
  takes_itemOf room stage fun opener kind => (takes_conditionalItem room stage opener kind).keeps

theorem keeps_items : Keeps (Parser.items room stage) := (takes_item room stage).keeps.many

end Conditionals

end Items

end Parser

end ShaderMinifier
