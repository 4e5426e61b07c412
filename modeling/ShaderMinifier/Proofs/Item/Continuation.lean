import ShaderMinifier.Proofs.Item.Merge
import ShaderMinifier.Proofs.RoundTrip
import ShaderMinifier.Proofs.Site.Nesting

/-
  Lines that go on. The line feed that is written behind a directive does not end its line if the
  text on it ends in a backslash; the line then takes in what is written behind it, and another text
  is read. Only the last item of a shader has nothing behind it. So a shader that was read is read
  back from its own text exactly if no text on a directive's line ends in a backslash, that of a
  directive which is the last item apart.
-/

namespace ShaderMinifier

open Piece

/-! ## White space -/

theorem Word.isMember_eq_false_of_isPart {c : Char} (h : isPart c = true) :
    WhiteSpace.isMember c = false := by
  rw [isPart, Bool.or_eq_true, beq_iff_eq] at h
  rcases h with halnum | rfl
  · simp only [Char.isAlphanum, Char.isAlpha, Char.isUpper, Char.isLower, Char.isDigit,
      Bool.or_eq_true, Bool.and_eq_true, decide_eq_true_eq, ge_iff_le, UInt32.le_iff_toNat_le,
      Char.toNat_val, Char.reduceToNat] at halnum
    rw [← Bool.not_eq_true]
    intro hmember
    simp only [WhiteSpace.isMember, WhiteSpace.ranges, List.any_cons, List.any_nil,
      Bool.or_eq_true, Bool.and_eq_true, decide_eq_true_eq, Bool.false_eq_true, or_false] at hmember
    omega
  · decide

theorem Piece.isMember_first {p : Piece} (hp : p.isLexeme = true) {c : Char}
    (hc : p.first? = some c) : WhiteSpace.isMember c = false := by
  cases p with
  | token t =>
    have hsymbols : ∀ s ∈ Symbol.all,
        s.toList.head?.all (fun d => !WhiteSpace.isMember d) = true := by
      decide
    have hc : t.toList.head? = some c := hc
    rw [isLexeme, Bool.or_eq_true, List.contains_iff_mem] at hp
    rcases hp with hword | hsymbol
    · simp only [Word.isWordLike, hc, Option.any_some, Bool.and_eq_true] at hword
      exact Word.isMember_eq_false_of_isPart (Word.isPart_of_isStart hword.1)
    · simpa [hc] using hsymbols t hsymbol
  | number t =>
    have hc : t.toList.head? = some c := hc
    simp only [isLexeme, hc, Option.any_some, Bool.or_eq_true, beq_iff_eq] at hp
    rcases hp with hdigit | rfl
    · exact Word.isMember_eq_false_of_isPart (Word.isPart_of_isDigit hdigit)
    · decide
  | line t =>
    have hc : t.toList.head? = some c := hc
    simp only [isLexeme, hc, beq_iff_eq, Option.some.injEq] at hp
    rw [hp]
    decide

/-- More text is trimmed away by `trim` behind a text without white space at its ends exactly if it
is all white space. -/
theorem WhiteSpace.trim_append_iff {text more : List Char} (htrim : trim text = text)
    (hne : text ≠ []) : trim (text ++ more) = text ↔ ∀ c ∈ more, isMember c = true := by
  have hhead : (text ++ more).dropWhile isMember = text ++ more := by
    have hself := dropWhile_trim text
    rw [htrim] at hself
    obtain ⟨c, cs, rfl⟩ := List.exists_cons_of_ne_nil hne
    have hc : ¬ isMember c = true := by
      intro hc
      rw [List.dropWhile_cons_of_pos hc] at hself
      have hle := (List.dropWhile_suffix (p := isMember) (l := cs)).length_le
      rw [hself] at hle
      simp at hle
    rw [List.cons_append, List.dropWhile_cons_of_neg hc]
  have htext : text.reverse.dropWhile isMember = text.reverse := by
    have hself := List.rdropWhile_idempotent isMember (text.dropWhile isMember)
    rw [← trim_eq, htrim] at hself
    rw [← List.reverse_inj, List.reverse_reverse]
    exact hself
  rw [trim, hhead, List.reverse_append, List.dropWhile_append, htext]
  split
  · next hempty =>
    have hall : ∀ c ∈ more, isMember c = true := by
      simpa [List.dropWhile_eq_nil_iff] using hempty
    simpa using hall
  · next hempty =>
    have hsome : ¬ ∀ c ∈ more, isMember c = true := by
      simpa [List.dropWhile_eq_nil_iff] using hempty
    have hlong : more.reverse.dropWhile isMember ≠ [] := by
      simpa using hempty
    refine iff_of_false (fun heq => hlong ?_) hsome
    simpa using heq

/-! ## Values that keep their line going -/

theorem Pen.writeAll_past_line {t : String} {k : List Piece} (hk : Clean (.line t :: k)) :
    (past (.line t)).writeAll k = spell k := by
  have hlast : (past (.line t)).last = some '\n' := by
    rw [past_last hk.head, start_write]
    simp [text, ending]
  cases k with
  | nil => rfl
  | cons p k =>
    have hgap : ∀ c, (past (.line t)).gap c = [] := by
      intro c
      have hpart : Word.isPart '\n' = false := by decide
      have hnumber : (past (.line t)).afterNumber = false := rfl
      simp [gap, hlast, joins, hpart, hnumber]
    have hlead : (past (.line t)).lead p = [] := by
      cases p with
      | token s | number s => cases hs : s.toList.head? <;> simp [lead, hs, hgap]
      | line s => simp [lead, lineStart, hlast]
    rw [writeAll_cons _ hk.tail.head, hlead, List.nil_append]

namespace Directive

theorem line_append_continued {text : List Char} (h : line text = text)
    (hlast : text.getLast? = some '\\') (rest : List Char) :
    line (text ++ '\n' :: rest) = text ++ '\n' :: line rest := by
  fun_induction line text with
  | case1 tail ih =>
    have htail : line tail = tail := by simpa using h
    cases tail with
    | nil => cases hlast
    | cons c tail =>
      rw [List.cons_append, List.cons_append, line, ih htail (by simpa using hlast)]
      rfl
  | case2 tail => cases h
  | case3 c tail hpair hc ih =>
    have htail : line tail = tail := by simpa using h
    cases tail with
    | nil =>
      obtain rfl : c = '\\' := by simpa using hlast
      rfl
    | cons d tail =>
      rw [List.cons_append, line_cons hc, ih htail (by simpa using hlast)]
      · rfl
      · rintro rfl hhead
        obtain rfl : d = '\n' := by simpa using hhead
        exact hpair tail rfl rfl
  | case4 => cases hlast

theorem head_line_of_ne {c : Char} (hc : c ≠ '\n') (rest : List Char) :
    (line (c :: rest)).head? = some c := by
  by_cases hslash : c = '\\' ∧ rest.head? = some '\n'
  · obtain ⟨rfl, hhead⟩ := hslash
    obtain ⟨tail, rfl⟩ := List.head?_eq_some_iff.1 hhead
    rfl
  · rw [line_cons hc fun h hhead => hslash ⟨h, hhead⟩, List.head?_cons]

end Directive

namespace Parser

variable {room : Nat} {stage : Stage} {d : Directive} {k : List Piece}

/-- The line that is taken in has more than white space on it, so `directiveValue` cannot trim it
away. -/
theorem exists_mem_line_spell {p : Piece} (hk : Clean (p :: k)) :
    ∃ c ∈ Directive.line (spell (p :: k)), WhiteSpace.isMember c = false := by
  obtain ⟨c, cs, hc⟩ := text_ne_nil hk.head
  have hfirst : p.first? = some c := by rw [first?, hc, List.head?_cons]
  have hmember := isMember_first hk.head hfirst
  have hnewline : c ≠ '\n' := by
    rintro rfl
    cases hmember
  obtain ⟨tail, htail⟩ := List.head?_eq_some_iff.1 ((Pen.head_spell_cons hk.head k).trans hfirst)
  rw [htail]
  exact ⟨c, List.mem_of_mem_head? (Directive.head_line_of_ne hnewline tail), hmember⟩

theorem directiveValue_continued (hvalue : Directive.IsValue d.value)
    (hlast : d.value.toList.getLast? = some '\\') (hk : Clean (.line d.text :: k))
    {rest : List Char} :
    directiveValue (d.behindName k) = .matched d.value rest ↔ k = [] ∧ rest = [] := by
  have hne : d.value.toList ≠ [] := by
    intro hnil
    simp [hnil] at hlast
  have hempty : d.value.isEmpty = false := by
    rw [← Bool.not_eq_true, String.isEmpty_iff]
    rintro hnil
    simp [hnil] at hne
  have hinput : d.behindName k = ' ' :: (d.value.toList ++ '\n' :: spell k) := by
    rw [Directive.behindName, hempty, Pen.writeAll_past_line hk]
    rfl
  have hline : Directive.line (d.behindName k) =
      ' ' :: (d.value.toList ++ '\n' :: Directive.line (spell k)) := by
    rw [hinput, Directive.line_cons (by decide) fun h => absurd h (by decide),
      Directive.line_append_continued hvalue.oneLine hlast]
  have hread : String.ofList (WhiteSpace.trim (Directive.line (d.behindName k))) = d.value ↔
      k = [] := by
    rw [hline, WhiteSpace.trim_cons (by decide), ← String.toList_inj, String.toList_ofList,
      WhiteSpace.trim_append_iff hvalue.trimmed hne]
    constructor
    · intro hall
      cases k with
      | nil => rfl
      | cons p k =>
        obtain ⟨c, hc, hmember⟩ := exists_mem_line_spell hk.tail
        rw [hall c (List.mem_cons_of_mem _ hc)] at hmember
        cases hmember
    · rintro rfl
      exact List.forall_mem_singleton.2 (by decide)
  simp only [directiveValue, Reply.matched.injEq, hread]
  refine and_congr_right ?_
  rintro rfl
  have hall : Directive.line (d.behindName []) = d.behindName [] := by
    rw [hline, hinput]
    rfl
  rw [hall, List.drop_length]
  exact eq_comm

theorem endsLine_of_value (hvalue : Directive.IsValue d.value) (hk : Clean (.line d.text :: k))
    (hne : k ≠ []) {rest : List Char}
    (hread : directiveValue (d.behindName k) = .matched d.value rest) :
    d.value.toList.getLast? ≠ some '\\' :=
  fun hlast => hne ((directiveValue_continued hvalue hlast hk).1 hread).1

/-! ## Repetition -/

/-- The parser gives these values one after the other, `Steps` without the claim that each takes
something. -/
def Rounds {α : Type} (p : Parser α) (input : List Char) : List α → List Char → Prop
  | [], rest => rest = input
  | v :: vs, rest => ∃ mid, p input = .matched v mid ∧ Rounds p mid vs rest

theorem Rounds.concat {α : Type} {p : Parser α} {input mid rest : List Char} {vs : List α} {v : α}
    (h : Rounds p input vs mid) (hv : p mid = .matched v rest) :
    Rounds p input (vs ++ [v]) rest := by
  induction vs generalizing input with
  | nil =>
    obtain rfl : mid = input := h
    exact ⟨rest, hv, rfl⟩
  | cons w vs ih =>
    obtain ⟨next, hw, hvs⟩ := h
    exact ⟨next, hw, ih hvs⟩

theorem rounds_of_many {α : Type} {p : Parser α} {input rest : List Char} {vs : List α}
    (h : many p input = .matched vs rest) : Rounds p input vs rest :=
  many_invariant (I := Rounds p input) (fun _ _ _ _ hvs hv => hvs.concat hv) rfl h

/-! ## Items that are read back -/

theorem endsLine_of_unread {es : List Event} (h : Event.Unread es) : ∀ e ∈ es, e.EndsLine := by
  intro e he text htext
  rw [h e he] at htext
  cases htext

theorem matched_conditional {kind : ConditionalKind} {item : Item} {opener input rest : List Char}
    (h : conditionalItem stage (room + 1) opener kind input = .matched item rest) :
    ∃ condition body branches afterCondition afterBody,
      item = .conditional kind condition body branches ∧
      directiveValue input = .matched condition afterCondition ∧
      items room stage afterCondition = .matched body afterBody ∧
      Parser.branches opener kind (items room stage) afterBody = .matched branches rest := by
  rw [conditionalItem] at h
  obtain ⟨condition, afterCondition, hvalue, h⟩ := matched_bind.1 h
  split at h
  · cases h
  · obtain ⟨body, afterBody, hbody, h⟩ := matched_bind.1 h
    obtain ⟨b, afterBranches, hbranches, h⟩ := matched_bind.1 h
    obtain ⟨rfl, rfl⟩ := matched_pure.1 h
    exact ⟨condition, body, b, afterCondition, afterBody, rfl, hvalue, hbody, hbranches⟩

theorem matched_elifBranch {items : Parser (List Item)} {condition : String} {body : List Item}
    {input rest : List Char} (h : elifBranch items input = .matched (condition, body) rest) :
    ∃ afterCondition, marker .elif input = .matched condition afterCondition ∧
      items afterCondition = .matched body rest := by
  rw [elifBranch, here_bind] at h
  obtain ⟨value, afterCondition, hvalue, h⟩ := matched_bind.1 h
  split at h
  · cases h
  · obtain ⟨read, afterBody, hbody, h⟩ := matched_bind.1 h
    obtain ⟨heq, rfl⟩ := matched_pure.1 h
    obtain ⟨rfl, rfl⟩ := Prod.mk.inj heq
    exact ⟨afterCondition, hvalue, hbody⟩

theorem matched_lastBranch {items : Parser (List Item)} {last : Branches} {input rest : List Char}
    (h : lastBranch items input = .matched last rest) :
    (last = .done ∧ rest = input) ∨ ∃ value body afterMarker, last = .otherwise body ∧
      marker .otherwise input = .matched value afterMarker ∧
      items afterMarker = .matched body rest := by
  rw [lastBranch] at h
  obtain ⟨mark, afterMarker, hmark, h⟩ := matched_bind.1 h
  cases mark with
  | none =>
    obtain ⟨rfl, rfl⟩ := matched_pure.1 h
    rcases matched_optional.1 hmark with ⟨w, hsome, -⟩ | ⟨-, hrest, -⟩
    · cases hsome
    · exact .inl ⟨rfl, hrest⟩
  | some value =>
    obtain ⟨body, afterBody, hbody, h⟩ := matched_bind.1 h
    obtain ⟨rfl, rfl⟩ := matched_pure.1 h
    rcases matched_optional.1 hmark with ⟨w, -, hw⟩ | ⟨hnone, -⟩
    · exact .inr ⟨w, body, afterMarker, rfl, hw, hbody⟩
    · cases hnone

theorem matched_branches {items : Parser (List Item)} {kind : ConditionalKind} {b : Branches}
    {opener input rest : List Char}
    (h : branches opener kind items input = .matched b rest) :
    ∃ elifs afterElifs last afterLast, Rounds (elifBranch items) input elifs afterElifs ∧
      lastBranch items afterElifs = .matched last afterLast ∧
      closing opener kind afterLast = .matched () rest ∧
      elifs.foldr (fun branch rest => .elif branch.1 branch.2 rest) last = b := by
  rw [branches_eq] at h
  obtain ⟨elifs, afterElifs, helifs, h⟩ := matched_bind.1 h
  obtain ⟨last, afterLast, hlast, h⟩ := matched_bind.1 h
  obtain ⟨_, _, hclosing, h⟩ := matched_bind.1 h
  obtain ⟨hb, rfl⟩ := matched_pure.1 h
  exact ⟨elifs, afterElifs, last, afterLast, rounds_of_many helifs, hlast, hclosing, hb⟩

theorem endsLine_of_items {body : List Item} (hk : k ≠ [])
    (h : ∀ before i after, body = before ++ i :: after →
      (∀ e ∈ i.events, e.EndsLine) ∨ after = [] ∧ k = [] ∧ ∃ d, i = .directive d) :
    ∀ e ∈ Item.listEvents body, e.EndsLine := by
  intro e he
  rw [Item.listEvents_eq_flatMap, List.mem_flatMap] at he
  obtain ⟨i, hi, he⟩ := he
  obtain ⟨before, after, heq⟩ := List.append_of_mem hi
  rcases h before i after heq with hends | ⟨-, hnil, -⟩
  · exact hends e he
  · exact absurd hnil hk

theorem listPieces_append_eq_nil {body : List Item} (h : Item.listPieces body ++ k = []) :
    body = [] ∧ k = [] := by
  obtain ⟨hbody, hk⟩ := List.append_eq_nil_iff.1 h
  cases body with
  | nil => exact ⟨rfl, hk⟩
  | cons i body => exact absurd (List.append_eq_nil_iff.1 hbody).1 i.pieces_ne_nil

theorem branchPieces_ne_nil (b : Branches) (k : List Piece) : Item.branchPieces b ++ k ≠ [] := by
  cases b <;> simp [Item.branchPieces]

/-- A branch that is read back with something behind it ends its lines (`EndsLine`), if its items
do; and it is read exactly. -/
theorem branch_endsLines {body : List Item} (hvalue : Directive.IsValue d.value)
    (hbody : Item.AllFit stage body room)
    (hk : Clean (.line d.text :: (Item.listPieces body ++ k))) (hend : EndsBranch k) (hne : k ≠ [])
    {mid rest : List Char}
    (hcondition : directiveValue (d.behindName (Item.listPieces body ++ k)) = .matched d.value mid)
    (hitems : items room stage mid = .matched body rest)
    (heach : ∀ {rest : List Char}, Rounds (itemOf room stage (conditionalItem stage room))
        (spell (Item.listPieces body ++ k)) body rest →
      ∀ before i after, body = before ++ i :: after →
        (∀ e ∈ i.events, e.EndsLine) ∨ after = [] ∧ k = [] ∧ ∃ d, i = .directive d) :
    d.value.toList.getLast? ≠ some '\\' ∧ (∀ e ∈ Item.listEvents body, e.EndsLine) ∧
      rest = spell k := by
  have hlast := endsLine_of_value hvalue hk (fun hnil => hne (listPieces_append_eq_nil hnil).2)
    hcondition
  obtain rfl := (Reply.matched.inj
    (hcondition.symm.trans (directiveValue_spell hvalue hlast hk.tail))).2
  have hends := endsLine_of_items hne (heach (rounds_of_many hitems))
  have hexact := items_of_steps (items_steps body hbody hends hk.tail) hend
  exact ⟨hlast, hends, (Reply.matched.inj (hitems.symm.trans hexact)).2⟩

mutual

/-- An item that `itemOf` reads back ends its lines, or it is a directive with nothing behind it. By
recursion on the item. -/
theorem item_endsLines : (i : Item) → {room : Nat} → i.Fits stage room → {k : List Piece} →
    Clean (i.pieces ++ k) → {rest : List Char} →
    itemOf room stage (conditionalItem stage room) (spell (i.pieces ++ k)) = .matched i rest →
    (∀ e ∈ i.events, e.EndsLine) ∨ k = [] ∧ ∃ d, i = .directive d
  | .directive d, _, h, k, hk, rest, hread => by
    rw [Item.pieces, List.singleton_append] at hk hread
    rw [itemOf_value h.1] at hread
    obtain ⟨value, after, hvalue, hpure⟩ := matched_bind.1 hread
    obtain ⟨heq, -⟩ := matched_pure.1 hpure
    obtain rfl : value = d.value := congrArg Directive.value (Item.directive.inj heq)
    by_cases hlast : d.value.toList.getLast? = some '\\'
    · exact .inr ⟨((directiveValue_continued h.2 hlast hk).1 hvalue).1, d, rfl⟩
    · refine .inl (List.forall_mem_singleton.2 fun text htext => ?_)
      rwa [← Option.some.inj htext]
  | .conditional kind condition body branches, room, h, k, hk, rest, hread => by
    obtain ⟨hpos, hcondition, hbody, hbranches⟩ := h
    obtain ⟨r, rfl⟩ := Nat.exists_eq_add_one.2 hpos
    have hpieces : (Item.conditional kind condition body branches).pieces ++ k =
        .line (Directive.mk kind.keyword condition).text ::
          (Item.listPieces body ++ (Item.branchPieces branches ++ k)) := by
      simp [Item.pieces, kind.text_eq hcondition.nonempty]
    rw [hpieces] at hk hread
    rw [itemOf_conditional] at hread
    obtain ⟨_, _, _, afterCondition, afterBody, heq, hvalue, hitems, hrest⟩ :=
      matched_conditional hread
    obtain ⟨-, rfl, rfl, rfl⟩ := Item.conditional.inj heq
    obtain ⟨hlast, hends, rfl⟩ := branch_endsLines (d := ⟨kind.keyword, condition⟩)
      hcondition.isValue hbody hk (endsBranch_branches hbranches k) (branchPieces_ne_nil branches k)
      hvalue hitems (items_endLines body hbody hk.tail)
    obtain ⟨elifs, afterElifs, last, afterLast, helifs, hlastBranch, -, heq⟩ :=
      matched_branches hrest
    refine .inl ?_
    rw [Item.events, List.cons_append, List.forall_mem_cons, List.forall_mem_append]
    refine ⟨fun text htext => ?_, hends, ?_⟩
    · rwa [← Option.some.inj htext]
    · exact branches_endLines branches hbranches hk.tail.right helifs hlastBranch heq
  | .precision _ _, _, _, _, _, _, _ => .inl (endsLine_of_unread (.cons rfl .nil))
  | .invariant names, _, _, _, _, _, _ => by
    refine .inl (endsLine_of_unread ?_)
    simp [Event.Unread, Item.events, Event.name, Event.directiveText]
  | .declaration decl, _, _, _, _, _, _ => .inl (endsLine_of_unread (decl.unread_events .topLevel))
  | .prototype signature, _, _, _, _, _, _ =>
    .inl (endsLine_of_unread
      (signature.unread_headEvents.append (signature.unread_paramEvents.inScope _)))
  | .function signature body, _, _, _, _, _, _ =>
    .inl (endsLine_of_unread (signature.unread_headEvents.append
      ((signature.unread_paramEvents.append (Statement.unread_listEvents body)).inScope _)))

theorem items_endLines : (body : List Item) → {room : Nat} → Item.AllFit stage body room →
    {k : List Piece} → Clean (Item.listPieces body ++ k) → {rest : List Char} →
    Rounds (itemOf room stage (conditionalItem stage room)) (spell (Item.listPieces body ++ k))
      body rest →
    ∀ before i after, body = before ++ i :: after →
      (∀ e ∈ i.events, e.EndsLine) ∨ after = [] ∧ k = [] ∧ ∃ d, i = .directive d
  | [], _, _, _, _, _, _, before, i, after, heq => by simp at heq
  | first :: body, room, h, k, hk, rest, hread, before, i, after, heq => by
    obtain ⟨mid, hfirst, hbody⟩ := hread
    rw [Item.listPieces, List.append_assoc] at hk hfirst
    have hone := item_endsLines first h.1 hk hfirst
    cases before with
    | nil =>
      obtain ⟨rfl, rfl⟩ := List.cons.inj heq
      refine hone.imp_right fun hlast => ?_
      obtain ⟨hbody, hnil⟩ := listPieces_append_eq_nil hlast.1
      exact ⟨hbody, hnil, hlast.2⟩
    | cons j before =>
      obtain ⟨rfl, hrest⟩ := List.cons.inj heq
      rcases hone with hends | ⟨hnil, -⟩
      · -- The first item is read exactly, so the others are read behind it.
        obtain rfl := (Reply.matched.inj
          (hfirst.symm.trans (item_reads first h.1 hends _ hk trivial))).2
        exact items_endLines body h.2 hk.right hbody before i after hrest
      · rw [(listPieces_append_eq_nil hnil).1] at hrest
        simp at hrest

theorem branches_endLines : (b : Branches) → {room : Nat} → Item.BranchesFit stage b room →
    {k : List Piece} → Clean (Item.branchPieces b ++ k) → {elifs : List (String × List Item)} →
    {last : Branches} → {afterElifs afterLast : List Char} →
    Rounds (elifBranch (items room stage)) (spell (Item.branchPieces b ++ k)) elifs afterElifs →
    lastBranch (items room stage) afterElifs = .matched last afterLast →
    elifs.foldr (fun branch rest => .elif branch.1 branch.2 rest) last = b →
    ∀ e ∈ Item.branchEvents b, e.EndsLine
  | .done, _, _, _, _, _, _, _, _, _, _, _ => by simp [Item.branchEvents]
  | .otherwise body, room, h, k, hk, elifs, last, afterElifs, afterLast, helifs, hlast, heq => by
    cases elifs with
    | cons branch elifs => cases heq
    | nil =>
      obtain rfl : last = .otherwise body := heq
      obtain rfl : afterElifs = _ := helifs
      have hpieces : Item.branchPieces (.otherwise body) ++ k =
          .line (Directive.mk BranchMarker.otherwise.keyword "").text ::
            (Item.listPieces body ++ .line "#endif" :: k) := by
        simp [Item.branchPieces, else_text]
      rw [hpieces] at hk hlast
      rcases matched_lastBranch hlast with
        ⟨hdone, -⟩ | ⟨value, read, afterMarker, heq, hmarker, hread⟩
      · cases hdone
      · obtain rfl := Branches.otherwise.inj heq
        obtain rfl := (Reply.matched.inj
          (hmarker.symm.trans (marker_spell isValue_empty (by simp) hk))).2
        exact endsLine_of_items (by simp) (items_endLines body h hk.tail (rounds_of_many hread))
  | .elif condition body rest, room, h, k, hk, elifs, last, afterElifs, afterLast, helifs, hlast,
      heq => by
    obtain ⟨hcondition, hbody, hrest⟩ := h
    cases elifs with
    | nil =>
      obtain rfl : last = .elif condition body rest := heq
      rcases matched_lastBranch hlast with ⟨hdone, -⟩ | ⟨_, _, _, hother, -⟩
      · cases hdone
      · cases hother
    | cons branch elifs =>
      obtain ⟨rfl, rfl, hfold⟩ := Branches.elif.inj heq
      obtain ⟨mid, hbranch, helifs⟩ := helifs
      have hpieces : Item.branchPieces (.elif branch.1 branch.2 rest) ++ k =
          .line (Directive.mk BranchMarker.elif.keyword branch.1).text ::
            (Item.listPieces branch.2 ++ (Item.branchPieces rest ++ k)) := by
        simp [Item.branchPieces, BranchMarker.elif_text hcondition.nonempty]
      rw [hpieces] at hk hbranch
      obtain ⟨afterCondition, hmarker, hitems⟩ := matched_elifBranch hbranch
      rw [marker_value] at hmarker
      obtain ⟨hends, hlines, rfl⟩ := branch_endsLines
        (d := ⟨BranchMarker.elif.keyword, branch.1⟩) hcondition.isValue hbody hk
        (endsBranch_branches hrest k) (branchPieces_ne_nil rest k) hmarker hitems
        (items_endLines branch.2 hbody hk.tail)
      rw [Item.branchEvents, List.cons_append, List.forall_mem_cons, List.forall_mem_append]
      refine ⟨fun text htext => ?_, hlines, ?_⟩
      · rwa [← Option.some.inj htext]
      · exact branches_endLines rest hrest hk.tail.right helifs hlast hfold

end

/-! ## A last directive -/

/-- A directive with nothing behind it is read back by `itemOf`, whatever its value ends in. -/
theorem itemOf_last {conditional : List Char → ConditionalKind → Parser Item}
    (hname : d.name ∈ Directive.plainNames) (hvalue : Directive.IsValue d.value) :
    itemOf room stage conditional (spell [.line d.text]) = .matched (.directive d) [] := by
  have hk : Clean [.line d.text] := Clean.line d.head_text Clean.nil
  have hread : directiveValue (d.behindName []) = .matched d.value [] := by
    by_cases hlast : d.value.toList.getLast? = some '\\'
    · exact (directiveValue_continued hvalue hlast hk).2 ⟨rfl, rfl⟩
    · exact directiveValue_spell hvalue hlast Clean.nil
  rw [itemOf_value hname, bind_of_matched hread, pure_apply]

end Parser

/-! ## Shaders -/

theorem Item.listPieces_append (xs ys : List Item) :
    listPieces (xs ++ ys) = listPieces xs ++ listPieces ys := by
  induction xs with
  | nil => rfl
  | cons x xs ih => rw [List.cons_append, listPieces, listPieces, ih, List.append_assoc]

namespace Shader

/-- Every line of a directive ends where it is written to end: no text on it ends in a backslash
(`EndsLine`), unless it is that of a directive which is the last item. -/
def LinesEnd (s : Shader) : Prop :=
  ∀ before i after, s.items = before ++ i :: after →
    (∀ e ∈ i.events, e.EndsLine) ∨ after = [] ∧ ∃ d, i = .directive d

variable {s : Shader} {stage : Stage}

theorem LinesEnd.steps (h : s.LinesEnd) (hfit : Item.AllFit stage s.items Parser.maxNesting)
    (hclean : Clean s.pieces) :
    Parser.Steps (Parser.itemOf Parser.maxNesting stage
        (Parser.conditionalItem stage Parser.maxNesting)) (spell s.pieces) s.items (spell []) := by
  rcases List.eq_nil_or_concat' s.items with hnil | ⟨init, last, hitems⟩
  · rw [pieces, hnil]
    exact .nil
  · rw [LinesEnd, hitems] at h
    rw [hitems, Item.allFit_iff, List.forall_mem_append, List.forall_mem_singleton] at hfit
    rw [pieces, hitems, Item.listPieces_append, Item.listPieces, Item.listPieces,
      List.append_nil] at hclean
    have hinit : ∀ e ∈ Item.listEvents init, e.EndsLine := by
      refine Parser.endsLine_of_items (k := last.pieces) last.pieces_ne_nil ?_
      rintro before i after rfl
      rcases h before i (after ++ [last]) (by simp) with hends | ⟨hnil, -⟩
      · exact .inl hends
      · simp at hnil
    have hlast : Parser.itemOf Parser.maxNesting stage
        (Parser.conditionalItem stage Parser.maxNesting) (spell last.pieces) =
          .matched last (spell []) := by
      rcases h init last [] rfl with hends | ⟨-, d, rfl⟩
      · have hread := Parser.item_reads last hfit.2 hends []
        rw [List.append_nil] at hread
        exact hread hclean.right trivial
      · exact Parser.itemOf_last hfit.2.1 hfit.2.2
    have hlt : (spell []).length < (spell last.pieces).length := by
      have hlt := spell_length_lt (k := []) last.pieces_ne_nil
      rw [List.append_nil] at hlt
      exact hlt hclean.right
    rw [hitems, pieces, hitems, Item.listPieces_append, Item.listPieces, Item.listPieces,
      List.append_nil]
    exact (Parser.items_steps init (Item.allFit_iff.2 hfit.1) hinit hclean).append
      (.one hlast hlt)

theorem linesEnd_of_parse (hfit : Item.AllFit stage s.items Parser.maxNesting)
    (hclean : Clean s.pieces) (h : Parser.shader stage (spell s.pieces) = .matched s []) :
    s.LinesEnd := by
  rw [Parser.shader] at h
  obtain ⟨_, mid, hblank, h⟩ := Parser.matched_bind.1 h
  rw [Parser.blank, skip_spell hclean] at hblank
  obtain ⟨-, rfl⟩ := Reply.matched.inj hblank
  obtain ⟨items, afterItems, hitems, h⟩ := Parser.matched_bind.1 h
  obtain ⟨marker, afterMarker, -, h⟩ := Parser.matched_bind.1 h
  have hsame : items = s.items := by
    cases marker with
    | some marker => cases h
    | none => exact congrArg Shader.items (Parser.matched_pure.1 h).1
  rw [hsame] at hitems
  intro before i after heq
  have hread : Parser.items Parser.maxNesting stage (spell (Item.listPieces s.items ++ [])) =
      .matched s.items afterItems := by
    rw [List.append_nil]
    exact hitems
  have hclean' : Clean (Item.listPieces s.items ++ []) := by
    rw [List.append_nil]
    exact hclean
  rcases Parser.items_endLines s.items hfit hclean' (Parser.rounds_of_many hread) before i after heq
    with hends | ⟨hafter, -, hd⟩
  · exact .inl hends
  · exact .inr ⟨hafter, hd⟩

/-- A shader that was read by `Shader.parse` is read back from its own text exactly if `LinesEnd`
holds of it. -/
theorem parse_emit_iff {source : String} (h : parse source stage = .ok s) :
    parse s.emit stage = .ok s ↔ s.LinesEnd := by
  have hfit : Item.AllFit stage s.items Parser.maxNesting :=
    Parser.yields_shader _ _ _ (Parser.run_eq_ok.1 h)
  have hclean : Clean (s.pieces ++ []) := Item.closed_listPieces s.items hfit [] Clean.nil
  rw [List.append_nil] at hclean
  rw [parse, Parser.run_eq_ok, emit, layout_toList]
  exact ⟨linesEnd_of_parse hfit hclean,
    fun hends => Parser.shader_of_steps hclean (hends.steps hfit hclean)⟩

/-- A condition that goes on over two lines, and a last directive that ends in a backslash: a shader
of which `LinesEnd` holds. -/
def continued : Shader := ⟨[
  .conditional .ifDefined "A \\\n B"
    [.declaration ⟨⟨none, none, .named "int"⟩, [⟨"x", none, none⟩]⟩] .done,
  .directive ⟨"define", "C \\"⟩]⟩

theorem parse_emit_iff_continued :
    parse "#ifdef A \\\n B\nint x;\n#endif\n#define C \\ " .vertex = .ok continued ∧
      parse continued.emit .vertex = .ok continued ∧ continued.LinesEnd := by
  have hparse : parse "#ifdef A \\\n B\nint x;\n#endif\n#define C \\ " .vertex = .ok continued := by
    decide +kernel
  have hemit : parse continued.emit .vertex = .ok continued := by
    decide +kernel
  exact ⟨hparse, hemit, (parse_emit_iff hparse).1 hemit⟩

/-- The line of a directive that ends in a backslash takes in all that is written behind it: what is
read back is another shader, as `LinesEnd` does not hold. -/
theorem parse_emit_swallows :
    ∃ s, parse "#define A \\ \nfloat x;void main()\x7b\x7d" .vertex = .ok s ∧
      parse s.emit .vertex =
        .ok ⟨[.directive ⟨"define", "A \\\nfloat x;void main()\x7b\x7d"⟩]⟩ := by
  refine ⟨⟨[
    .directive ⟨"define", "A \\"⟩,
    .declaration ⟨⟨none, none, .named "float"⟩, [⟨"x", none, none⟩]⟩,
    .function ⟨⟨none, none, .named "void"⟩, "main", []⟩ []]⟩, ?_, ?_⟩ <;> decide +kernel

end Shader

end ShaderMinifier
