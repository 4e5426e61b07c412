import ShaderMinifier.Item.Merge
import ShaderMinifier.Proofs.Replace

/-
  Merging declarations keeps what can be read, and no event is new: of a declaration that goes
  into its neighbour, nothing is lost but the name of the type, which both have.
-/

namespace ShaderMinifier

/-! ## Names of types -/

/-- The name is not that of a type. Only names of types are written less often after
`mergeDeclarations`. -/
def Site.isOfValue (s : Site) : Bool := s.role ≠ .type

namespace Event

/-- The events but the names of types (`isOfValue`). -/
def values (es : List Event) : List Event := es.filter fun e => e.site?.all Site.isOfValue

/-- The second events are the first ones without some names of types, which occur elsewhere: what
`mergeDeclarations` does to the events. -/
structure DropsTypes (es es' : List Event) : Prop where
  sublist : es'.Sublist es
  values : values es' = values es
  kept : ∀ e ∈ es, e ∈ es'

variable {es es' fs fs' : List Event}

theorem values_append (es fs : List Event) : values (es ++ fs) = values es ++ values fs :=
  List.filter_append es fs

theorem values_cons_congr (e : Event) (h : values es' = values es) :
    values (e :: es') = values (e :: es) := by
  rw [values, values, List.filter_cons, List.filter_cons, ← values, ← values, h]

namespace DropsTypes

theorem refl (es : List Event) : DropsTypes es es := ⟨.refl _, rfl, fun _ he => he⟩

theorem trans {gs : List Event} (h : DropsTypes es fs) (h' : DropsTypes fs gs) :
    DropsTypes es gs :=
  ⟨h'.sublist.trans h.sublist, h'.values.trans h.values, fun e he => h'.kept e (h.kept e he)⟩

theorem cons (e : Event) (h : DropsTypes es es') : DropsTypes (e :: es) (e :: es') :=
  ⟨h.sublist.cons_cons e, values_cons_congr e h.values,
    fun e' he' => List.mem_cons.2 ((List.mem_cons.1 he').imp_right (h.kept e'))⟩

theorem append (h : DropsTypes es es') (h' : DropsTypes fs fs') :
    DropsTypes (es ++ fs) (es' ++ fs') :=
  ⟨h.sublist.append h'.sublist, by rw [values_append, values_append, h.values, h'.values],
    fun e he => List.mem_append.2 ((List.mem_append.1 he).imp (h.kept e) (h'.kept e))⟩

theorem sites (h : DropsTypes es es') :
    (es'.filterMap site?).Sublist (es.filterMap site?) ∧
      (es'.filterMap site?).filter Site.isOfValue = (es.filterMap site?).filter Site.isOfValue := by
  refine ⟨h.sublist.filterMap site?, ?_⟩
  have hfilter : ∀ es : List Event,
      (es.filterMap site?).filter Site.isOfValue = (Event.values es).filterMap site? := by
    intro es
    rw [Event.values, List.filter_filterMap, List.filterMap_filter]
    refine List.filterMap_congr fun e _ => ?_
    cases e.site? with
    | none => simp
    | some s => cases hs : s.isOfValue <;> simp [hs]
  rw [hfilter, hfilter, h.values]

end DropsTypes

end Event

open Event (DropsTypes)

/-! ## Two declarations -/

namespace Declaration

variable {first second : Declaration} {room : Nat} {stage : Stage} {placement : Placement}

theorem canMerge_iff :
    first.canMerge second = true ↔ first.type.specifier.isStruct = false ∧
      first.type = second.type ∧ first.declarators ≠ [] ∧ second.declarators ≠ [] := by
  simp [canMerge, and_assoc]

theorem Fits.merge (hmerge : first.canMerge second = true)
    (hfirst : first.Fits room stage placement) (hsecond : second.Fits room stage placement) :
    (first.merge second).Fits room stage placement := by
  obtain ⟨-, htype, hne, -⟩ := canMerge_iff.1 hmerge
  have hallowed := fault?_eq_none.1 hfirst.allowed
  have hallowed' := fault?_eq_none.1 hsecond.allowed
  refine ⟨hfirst.type, ?_, fun hnil => ?_, fault?_eq_none.2 ⟨fun _ => hallowed.notVoid hne,
    hallowed.unlinkedLocal, hallowed.attributeType, fun hq => ?_⟩⟩
  · exact List.forall_mem_append.2 ⟨hfirst.declarators, hsecond.declarators⟩
  · exact absurd (List.append_eq_nil_iff.1 hnil).1 hne
  · refine List.forall_mem_append.2 ⟨hallowed.plainAttribute hq, ?_⟩
    exact hallowed'.plainAttribute (htype ▸ hq)

theorem events_merge (hmerge : first.canMerge second = true) (placement : Placement) :
    DropsTypes (first.events placement ++ second.events placement)
      ((first.merge second).events placement) := by
  obtain ⟨hstruct, htype, -⟩ := canMerge_iff.1 hmerge
  have hnamed : Event.values second.type.specifier.events = [] := by
    rw [htype] at hstruct
    cases hspecifier : second.type.specifier with
    | named name => rfl
    | struct spec => rw [hspecifier] at hstruct; cases hstruct
  rw [events, events, events, merge, List.flatMap_append, ← htype, List.append_assoc]
  refine ⟨.append (.refl _) (.append (.refl _) (List.sublist_append_right _ _)), ?_, ?_⟩
  · simp only [Event.values_append, htype, hnamed, List.nil_append]
  · intro e he
    -- The name of the type still stands before the variables of the first declaration.
    simp only [List.mem_append] at he ⊢
    tauto

end Declaration

/-! ## Runs -/

section Runs

variable {α : Type} {declaration? : α → Option Declaration} {ofDeclaration : Declaration → α}

/-- What one element does to a list whose own neighbours are merged: `mergeInto` puts it in front,
or merges it with the first element. -/
theorem mergeInto_cases (x : α) (ys : List α) :
    mergeInto declaration? ofDeclaration x ys = x :: ys ∨
      ∃ y rest first second, ys = y :: rest ∧ declaration? x = some first ∧
        declaration? y = some second ∧ first.canMerge second = true ∧
        mergeInto declaration? ofDeclaration x ys = ofDeclaration (first.merge second) :: rest := by
  cases ys with
  | nil => exact .inl rfl
  | cons y rest =>
    rw [mergeInto]
    split
    · rename_i first second hfirst hsecond
      by_cases hmerge : first.canMerge second = true
      · rw [if_pos hmerge]
        exact .inr ⟨y, rest, first, second, rfl, hfirst, hsecond, hmerge, rfl⟩
      · rw [if_neg hmerge]
        exact .inl rfl
    · exact .inl rfl

theorem forall_mergeRuns {P : α → Prop}
    (hmerge : ∀ x y first second, declaration? x = some first → declaration? y = some second →
      first.canMerge second = true → P x → P y → P (ofDeclaration (first.merge second)))
    {xs : List α} (h : ∀ x ∈ xs, P x) :
    ∀ x ∈ mergeRuns declaration? ofDeclaration xs, P x := by
  induction xs with
  | nil => exact h
  | cons x xs ih =>
    rw [List.forall_mem_cons] at h
    have hxs := ih h.2
    rw [mergeRuns, List.foldr_cons, ← mergeRuns]
    rcases mergeInto_cases x (mergeRuns declaration? ofDeclaration xs) with
      heq | ⟨y, rest, first, second, hys, hfirst, hsecond, hcan, heq⟩
    · rw [heq, List.forall_mem_cons]
      exact ⟨h.1, hxs⟩
    · rw [hys, List.forall_mem_cons] at hxs
      rw [heq, List.forall_mem_cons]
      exact ⟨hmerge x y first second hfirst hsecond hcan h.1 hxs.1, hxs.2⟩

theorem dropsTypes_mergeRuns {events : α → List Event}
    (hmerge : ∀ x y first second, declaration? x = some first → declaration? y = some second →
      first.canMerge second = true →
      DropsTypes (events x ++ events y) (events (ofDeclaration (first.merge second))))
    (xs : List α) :
    DropsTypes (xs.flatMap events) ((mergeRuns declaration? ofDeclaration xs).flatMap events) := by
  induction xs with
  | nil => exact .refl _
  | cons x xs ih =>
    rw [mergeRuns, List.foldr_cons, ← mergeRuns, List.flatMap_cons]
    rcases mergeInto_cases x (mergeRuns declaration? ofDeclaration xs) with
      heq | ⟨y, rest, first, second, hys, hfirst, hsecond, hcan, heq⟩
    · rw [heq, List.flatMap_cons]
      exact .append (.refl _) ih
    · rw [hys, List.flatMap_cons] at ih
      rw [heq, List.flatMap_cons]
      have hpair := (hmerge x y first second hfirst hsecond hcan).append
        (.refl (rest.flatMap events))
      rw [List.append_assoc] at hpair
      exact .trans (.append (.refl _) ih) hpair

theorem flatMap_mergeRuns {β : Type} {f : α → List β}
    (hmerge : ∀ x y first second, declaration? x = some first → declaration? y = some second →
      first.canMerge second = true → f (ofDeclaration (first.merge second)) = f x ++ f y)
    (xs : List α) : (mergeRuns declaration? ofDeclaration xs).flatMap f = xs.flatMap f := by
  induction xs with
  | nil => rfl
  | cons x xs ih =>
    rw [mergeRuns, List.foldr_cons, ← mergeRuns, List.flatMap_cons]
    rcases mergeInto_cases x (mergeRuns declaration? ofDeclaration xs) with
      heq | ⟨y, rest, first, second, hys, hfirst, hsecond, hcan, heq⟩
    · rw [heq, List.flatMap_cons, ih]
    · rw [hys, List.flatMap_cons] at ih
      rw [heq, List.flatMap_cons, hmerge x y first second hfirst hsecond hcan,
        List.append_assoc, ih]

end Runs

/-! ## Statements -/

namespace Statement

theorem declaration?_eq_some {s : Statement} {decl : Declaration}
    (h : s.declaration? = some decl) : s = declaration decl := by
  unfold declaration? at h
  split at h
  · rw [Option.some.inj h]
    rfl
  · cases h

theorem listEvents_eq_flatMap (body : List Statement) :
    listEvents body = body.flatMap events := by
  induction body with
  | nil => rfl
  | cons s body ih => rw [listEvents, ih, List.flatMap_cons]

theorem listReplacedBy_mergeRuns (body : List Statement) :
    ListReplacedBy body (mergeRuns declaration? declaration body) := by
  intro room h
  rw [allFit_iff] at h ⊢
  refine forall_mergeRuns (fun x y first second hfirst hsecond hcan hx hy => ?_) h
  rw [declaration?_eq_some hfirst] at hx
  rw [declaration?_eq_some hsecond] at hy
  exact ⟨hx.1, Declaration.Fits.merge hcan hx.2 hy.2⟩

theorem listEvents_mergeRuns (body : List Statement) :
    DropsTypes (listEvents body) (listEvents (mergeRuns declaration? declaration body)) := by
  rw [listEvents_eq_flatMap, listEvents_eq_flatMap]
  refine dropsTypes_mergeRuns (fun x y first second hfirst hsecond hcan => ?_) body
  rw [declaration?_eq_some hfirst, declaration?_eq_some hsecond]
  exact Declaration.events_merge hcan .inBody

theorem ListReplacedBy.trans {a b c : List Statement} (hab : ListReplacedBy a b)
    (hbc : ListReplacedBy b c) : ListReplacedBy a c :=
  fun room h => hbc room (hab room h)

mutual

theorem replacedBy_merge : (s : Statement) → ReplacedBy s (merge s)
  | block body => .block (.trans (.of_forall₂ (replacedBy_mergeEach body))
      (listReplacedBy_mergeRuns (mergeEach body)))
  | ifThen condition body => .ifThen (.refl condition) (replacedBy_merge body)
  | ifElse condition whenTrue whenFalse =>
    .ifElse (.refl condition) (replacedBy_merge whenTrue) (replacedBy_merge whenFalse)
  | whileLoop condition body => .whileLoop (.refl condition) (replacedBy_merge body)
  | doWhile body condition => .doWhile (replacedBy_merge body) (.refl condition)
  | forLoop _ condition step body =>
    .forLoop (fun _ => id) (Expr.ReplacedBy.optionRefl condition)
      (Expr.ReplacedBy.optionRefl step) (replacedBy_merge body)
  | simple _ | continueLoop | breakLoop | returnValue _ | discard => .refl _

theorem replacedBy_mergeEach : (body : List Statement) →
    List.Forall₂ ReplacedBy body (mergeEach body)
  | [] => .nil
  | s :: body => .cons (replacedBy_merge s) (replacedBy_mergeEach body)

end

theorem listReplacedBy_mergeList (body : List Statement) :
    ListReplacedBy body (mergeList body) :=
  .trans (.of_forall₂ (replacedBy_mergeEach body)) (listReplacedBy_mergeRuns (mergeEach body))

mutual

theorem events_merge : (s : Statement) → DropsTypes s.events (merge s).events
  | block body =>
    .append (.cons _ (.trans (listEvents_mergeEach body) (listEvents_mergeRuns (mergeEach body))))
      (.refl _)
  | ifThen _ body => .append (.refl _) (events_merge body)
  | ifElse _ whenTrue whenFalse =>
    .append (.append (.refl _) (events_merge whenTrue)) (events_merge whenFalse)
  | whileLoop _ body => .append (.refl _) (events_merge body)
  | doWhile body _ => .append (events_merge body) (.refl _)
  | forLoop _ _ _ body => .append (.cons _ (.append (.refl _) (events_merge body))) (.refl _)
  | simple _ | continueLoop | breakLoop | returnValue _ | discard => .refl _

theorem listEvents_mergeEach : (body : List Statement) →
    DropsTypes (listEvents body) (listEvents (mergeEach body))
  | [] => .refl _
  | s :: body => .append (events_merge s) (listEvents_mergeEach body)

end

theorem listEvents_mergeList (body : List Statement) :
    DropsTypes (listEvents body) (listEvents (mergeList body)) :=
  .trans (listEvents_mergeEach body) (listEvents_mergeRuns (mergeEach body))

end Statement

/-! ## Items -/

namespace Item

theorem declaration?_eq_some {i : Item} {decl : Declaration} (h : i.declaration? = some decl) :
    i = declaration decl := by
  unfold declaration? at h
  split at h
  · rw [Option.some.inj h]
  · cases h

theorem listEvents_eq_flatMap (items : List Item) : listEvents items = items.flatMap events := by
  induction items with
  | nil => rfl
  | cons i items ih => rw [listEvents, ih, List.flatMap_cons]

theorem listReplacedBy_mergeRuns (items : List Item) :
    ListReplacedBy items (mergeRuns declaration? declaration items) := by
  intro stage room h
  rw [allFit_iff] at h ⊢
  refine forall_mergeRuns (fun x y first second hfirst hsecond hcan hx hy => ?_) h
  rw [declaration?_eq_some hfirst] at hx
  rw [declaration?_eq_some hsecond] at hy
  exact Declaration.Fits.merge hcan hx hy

theorem listEvents_mergeRuns (items : List Item) :
    DropsTypes (listEvents items) (listEvents (mergeRuns declaration? declaration items)) := by
  rw [listEvents_eq_flatMap, listEvents_eq_flatMap]
  refine dropsTypes_mergeRuns (fun x y first second hfirst hsecond hcan => ?_) items
  rw [declaration?_eq_some hfirst, declaration?_eq_some hsecond]
  exact Declaration.events_merge hcan .topLevel

theorem ListReplacedBy.trans {a b c : List Item} (hab : ListReplacedBy a b)
    (hbc : ListReplacedBy b c) : ListReplacedBy a c :=
  fun stage room h => hbc stage room (hab stage room h)

mutual

theorem replacedBy_merge : (i : Item) → ReplacedBy i (merge i)
  | conditional kind condition body rest =>
    .conditional kind condition
      (.trans (listReplacedBy_mergeEach body) (listReplacedBy_mergeRuns (mergeEach body)))
      (replacedBy_mergeBranches rest)
  | function _ body =>
    .function (fun _ => id) (Statement.listReplacedBy_mergeList body)
  | directive _ | precision _ _ | invariant _ | declaration _ | prototype _ => .refl _

theorem listReplacedBy_mergeEach : (items : List Item) → ListReplacedBy items (mergeEach items)
  | [] => .nil
  | i :: items => .cons (replacedBy_merge i) (listReplacedBy_mergeEach items)

theorem replacedBy_mergeBranches : (b : Branches) → BranchesReplacedBy b (mergeBranches b)
  | .done => .done
  | .otherwise body =>
    .otherwise (.trans (listReplacedBy_mergeEach body) (listReplacedBy_mergeRuns (mergeEach body)))
  | .elif condition body rest =>
    .elif condition
      (.trans (listReplacedBy_mergeEach body) (listReplacedBy_mergeRuns (mergeEach body)))
      (replacedBy_mergeBranches rest)

end

theorem listReplacedBy_mergeList (items : List Item) : ListReplacedBy items (mergeList items) :=
  .trans (listReplacedBy_mergeEach items) (listReplacedBy_mergeRuns (mergeEach items))

mutual

theorem events_merge : (i : Item) → DropsTypes i.events (merge i).events
  | conditional kind condition body rest => by
    rw [merge, events, events]
    refine .append (.cons _ ?_) (branchEvents_mergeBranches rest)
    exact .trans (listEvents_mergeEach body) (listEvents_mergeRuns (mergeEach body))
  | function signature body => by
    rw [merge, events, events]
    refine .append (.refl _) (.append (.cons _ (.append (.refl _) ?_)) (.refl _))
    exact Statement.listEvents_mergeList body
  | directive _ | precision _ _ | invariant _ | declaration _ | prototype _ => .refl _

theorem listEvents_mergeEach : (items : List Item) →
    DropsTypes (listEvents items) (listEvents (mergeEach items))
  | [] => .refl _
  | i :: items => .append (events_merge i) (listEvents_mergeEach items)

theorem branchEvents_mergeBranches : (b : Branches) →
    DropsTypes (branchEvents b) (branchEvents (mergeBranches b))
  | .done => .refl _
  | .otherwise body =>
    .trans (listEvents_mergeEach body) (listEvents_mergeRuns (mergeEach body))
  | .elif condition body rest => by
    rw [mergeBranches, branchEvents, branchEvents]
    refine .append (.cons _ ?_) (branchEvents_mergeBranches rest)
    exact .trans (listEvents_mergeEach body) (listEvents_mergeRuns (mergeEach body))

end

theorem listEvents_mergeList (items : List Item) :
    DropsTypes (listEvents items) (listEvents (mergeList items)) :=
  .trans (listEvents_mergeEach items) (listEvents_mergeRuns (mergeEach items))

end Item

end ShaderMinifier
