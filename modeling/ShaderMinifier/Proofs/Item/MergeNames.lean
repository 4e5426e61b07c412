import ShaderMinifier.Proofs.Item.Merge
import ShaderMinifier.Proofs.Site.Restore

/-
  Merging declarations and giving names. Whether two declarations are merged depends on their
  types alone, so it makes no difference whether names are given before or afterwards, as long as
  those of types stay: each site that is left gets the name it would have got.
-/

namespace ShaderMinifier

open Event

/-! ## Names by site -/

theorem filterMap_site?_inScope (kind : ScopeKind) (es : List Event) :
    (inScope kind es).filterMap site? = es.filterMap site? := by
  rw [inScope, List.filterMap_append, List.filterMap_cons_none rfl, List.filterMap_cons_none rfl,
    List.filterMap_nil, List.append_nil]

namespace Relabel

variable {α β : Type} {rename : Site → String}

/-- With what `rename` makes of the sites among these events, the computation gives `x` and has used
up all names. -/
def Takes (rename : Site → String) (m : Relabel α) (es : List Event) (x : α) : Prop :=
  Gives m x ((es.filterMap site?).map rename)

variable {m : Relabel α} {es fs : List Event} {x x' : α} {y : β}

theorem Restores.exists_takes {f : α → Relabel α} (h : Restores f x (siteNames es))
    (rename : Site → String) : ∃ y, Takes rename (f x) es y :=
  h.exists_gives (by simp [siteNames])

namespace Takes

theorem unique (h : Takes rename m es x) (h' : Takes rename m es x') : x = x' :=
  Gives.unique h h'

theorem bind {next : α → Relabel β} (h : Takes rename m es x)
    (hnext : Takes rename (next x) fs y) : Takes rename (m >>= next) (es ++ fs) y := by
  rw [Takes, List.filterMap_append, List.map_append]
  exact Gives.bind h hnext

theorem map {g : α → β} (h : Takes rename m es x) :
    Takes rename (m >>= fun a => pure (g a)) es (g x) :=
  Gives.map h

theorem congr (h : Takes rename m es x) (hsites : fs.filterMap site? = es.filterMap site?) :
    Takes rename m fs x := by
  rwa [Takes, hsites]

theorem cons {e : Event} (h : Takes rename m es x) (he : e.site? = none) :
    Takes rename m (e :: es) x :=
  h.congr (List.filterMap_cons_none he)

theorem inScope (h : Takes rename m es x) (kind : ScopeKind) :
    Takes rename m (inScope kind es) x :=
  h.congr (filterMap_site?_inScope kind es)

end Takes

end Relabel

open Relabel

variable {rename : Site → String}

/-! ## Two declarations -/

namespace Declaration

variable {placement : Placement} {decl decl' first first' second second' : Declaration}

/-- The type of a declaration and its variables take their names one after the other, so `Takes`
splits. -/
theorem takes_parts (h : Takes rename decl.relabel (decl.events placement) decl') :
    Takes rename decl.type.relabel decl.type.specifier.events decl'.type ∧
      Takes rename (decl.declarators.mapM Declarator.relabel)
        (decl.declarators.flatMap (Declarator.events placement decl.type)) decl'.declarators := by
  obtain ⟨type, htype⟩ := decl.type.restores_relabel.exists_takes rename
  have hrestores : Restores (List.mapM Declarator.relabel) decl.declarators
      (siteNames (decl.declarators.flatMap (Declarator.events placement decl.type))) :=
    .mapM fun d _ => d.restores_relabel placement decl.type
  obtain ⟨declarators, hdeclarators⟩ := hrestores.exists_takes rename
  have hparts : Takes rename decl.relabel (decl.events placement) ⟨type, declarators⟩ :=
    htype.bind hdeclarators.map
  obtain rfl := hparts.unique h
  exact ⟨htype, hdeclarators⟩

theorem takes_merge (hmerge : first.canMerge second = true)
    (hfirst : Takes rename first.relabel (first.events placement) first')
    (hsecond : Takes rename second.relabel (second.events placement) second') :
    Takes rename (first.merge second).relabel ((first.merge second).events placement)
      (first'.merge second') := by
  obtain ⟨-, hsame, -⟩ := canMerge_iff.1 hmerge
  obtain ⟨htype, hdeclarators⟩ := takes_parts hfirst
  obtain ⟨-, hdeclarators'⟩ := takes_parts hsecond
  rw [← hsame] at hdeclarators'
  refine htype.bind (Takes.map ?_)
  rw [merge, List.flatMap_append, List.mapM_append]
  exact hdeclarators.bind hdeclarators'.map

variable (hkeep : ∀ name, rename ⟨.type, name⟩ = name)

include hkeep

theorem type_of_takes (h : Takes rename decl.relabel (decl.events placement) decl') :
    decl'.type.specifier.isStruct = decl.type.specifier.isStruct ∧
      (decl.type.specifier.isStruct = false → decl'.type = decl.type) := by
  have htype := (takes_parts h).1.fst_eq
  obtain ⟨⟨qualifier, precision, specifier⟩, declarators⟩ := decl
  rw [← htype]
  cases specifier with
  | named name =>
    refine ⟨rfl, fun _ => ?_⟩
    show QualifiedType.mk qualifier precision (.named (rename ⟨.type, name⟩)) = _
    rw [hkeep]
  | struct spec => exact ⟨rfl, fun hstruct => by cases hstruct⟩

theorem canMerge_of_takes (hfirst : Takes rename first.relabel (first.events placement) first')
    (hsecond : Takes rename second.relabel (second.events placement) second') :
    first'.canMerge second' = first.canMerge second := by
  have hempty : ∀ {decl decl' : Declaration},
      Takes rename decl.relabel (decl.events placement) decl' →
      (decl'.declarators = [] ↔ decl.declarators = []) := by
    intro decl decl' h
    rw [← (takes_parts h).2.fst_eq, ← List.length_eq_zero_iff, length_mapM,
      List.length_eq_zero_iff]
  obtain ⟨hstruct, htype⟩ := type_of_takes hkeep hfirst
  obtain ⟨hstruct', htype'⟩ := type_of_takes hkeep hsecond
  rw [Bool.eq_iff_iff, canMerge_iff, canMerge_iff, hstruct, Ne, Ne, hempty hfirst,
    hempty hsecond]
  refine and_congr_right fun hnamed => and_congr_left fun _ => ?_
  rw [htype hnamed]
  -- The second type is named or spelled out, and then it is not that of the first.
  cases hsecondStruct : second.type.specifier.isStruct with
  | false => rw [htype' hsecondStruct]
  | true =>
    constructor
    · intro heq
      rw [heq, hstruct', hsecondStruct] at hnamed
      cases hnamed
    · intro heq
      rw [heq, hsecondStruct] at hnamed
      cases hnamed

end Declaration

/-! ## Runs -/

/-- Elements that stand in a relation still do after `mergeRuns`, if the relation keeps which
declarations they are and which of these can be merged. -/
theorem forall₂_mergeRuns {α : Type} {declaration? : α → Option Declaration}
    {ofDeclaration : Declaration → α} {R : α → α → Prop} {S : Declaration → Declaration → Prop}
    {xs ys : List α} (h : List.Forall₂ R xs ys)
    (hdeclaration : ∀ x y, R x y → Option.Rel S (declaration? x) (declaration? y))
    (hof : ∀ d d', S d d' → R (ofDeclaration d) (ofDeclaration d'))
    (hcan : ∀ d d' e e', S d d' → S e e' → d'.canMerge e' = d.canMerge e)
    (hmerge : ∀ d d' e e', d.canMerge e = true → S d d' → S e e' →
      S (d.merge e) (d'.merge e')) :
    List.Forall₂ R (mergeRuns declaration? ofDeclaration xs)
      (mergeRuns declaration? ofDeclaration ys) := by
  induction h with
  | nil => exact .nil
  | @cons x y xs ys hxy _ ih =>
    rw [mergeRuns, mergeRuns, List.foldr_cons, List.foldr_cons, ← mergeRuns, ← mergeRuns]
    generalize mergeRuns declaration? ofDeclaration xs = xs at ih
    generalize mergeRuns declaration? ofDeclaration ys = ys at ih
    cases ih with
    | nil => exact .cons hxy .nil
    | @cons x₂ y₂ xs ys hxy₂ hrest =>
      have hfirst := hdeclaration x y hxy
      have hsecond := hdeclaration x₂ y₂ hxy₂
      simp only [mergeInto]
      generalize declaration? x = a, declaration? y = b at hfirst ⊢
      generalize declaration? x₂ = a₂, declaration? y₂ = b₂ at hsecond ⊢
      cases hfirst with
      | none => exact .cons hxy (.cons hxy₂ hrest)
      | @some d d' hd =>
        cases hsecond with
        | none => exact .cons hxy (.cons hxy₂ hrest)
        | @some e e' he =>
          dsimp only
          rw [hcan _ _ _ _ hd he]
          split
          · rename_i hcan'
            exact .cons (hof _ _ (hmerge _ _ _ _ hcan' hd he)) hrest
          · exact .cons hxy (.cons hxy₂ hrest)

/-! ## Statements -/

namespace Statement

theorem takes_declaration {decl decl' : Declaration}
    (h : Takes rename decl.relabel (decl.events .inBody) decl') :
    Takes rename (declaration decl).relabel (declaration decl).events (declaration decl') :=
  h.map.map

theorem declaration?_of_takes {s s' : Statement} (h : Takes rename s.relabel s.events s') :
    Option.Rel (fun decl decl' => Takes rename decl.relabel (decl.events .inBody) decl')
      s.declaration? s'.declaration? := by
  have hs' := h.fst_eq
  cases s with
  | simple stmt =>
    cases stmt with
    | declaration decl =>
      obtain ⟨decl', hdecl⟩ := (decl.restores_relabel .inBody).exists_takes rename
      obtain rfl := (takes_declaration hdecl).unique h
      exact .some hdecl
    | expression value => exact hs' ▸ .none
  | block _ | ifThen _ _ | ifElse _ _ _ | whileLoop _ _ | doWhile _ _ | forLoop _ _ _ _
  | continueLoop | breakLoop | returnValue _ | discard => exact hs' ▸ .none

theorem takes_list {body body' : List Statement}
    (h : List.Forall₂ (fun s s' => Takes rename s.relabel s.events s') body body') :
    Takes rename (relabelList body) (listEvents body) body' := by
  induction h with
  | nil => exact fun _ => rfl
  | cons hs _ ih => exact hs.bind ih.map

theorem takes_mergeRuns (hkeep : ∀ name, rename ⟨.type, name⟩ = name)
    {body body' : List Statement}
    (h : List.Forall₂ (fun s s' => Takes rename s.relabel s.events s') body body') :
    Takes rename (relabelList (mergeRuns declaration? declaration body))
      (listEvents (mergeRuns declaration? declaration body))
      (mergeRuns declaration? declaration body') :=
  takes_list (forall₂_mergeRuns h (fun _ _ => declaration?_of_takes)
    (fun _ _ => takes_declaration) (fun _ _ _ _ => Declaration.canMerge_of_takes hkeep)
    fun _ _ _ _ => Declaration.takes_merge)

mutual

theorem takes_merge (hkeep : ∀ name, rename ⟨.type, name⟩ = name) : (s : Statement) →
    ∃ s', Takes rename s.relabel s.events s' ∧
      Takes rename (merge s).relabel (merge s).events (merge s')
  | block body => by
    obtain ⟨body', hbody, hmerged⟩ := takes_mergeEach hkeep body
    exact ⟨block body', (hbody.inScope _).map,
      ((takes_mergeRuns hkeep hmerged).inScope _).map⟩
  | simple stmt => by
    obtain ⟨stmt', hstmt⟩ := stmt.restores_relabel.exists_takes rename
    exact ⟨simple stmt', hstmt.map, hstmt.map⟩
  | ifThen condition body => by
    obtain ⟨condition', hcondition⟩ := condition.restores_relabel.exists_takes rename
    obtain ⟨body', hbody, hmerged⟩ := takes_merge hkeep body
    exact ⟨ifThen condition' body', hcondition.bind hbody.map, hcondition.bind hmerged.map⟩
  | ifElse condition whenTrue whenFalse => by
    obtain ⟨condition', hcondition⟩ := condition.restores_relabel.exists_takes rename
    obtain ⟨whenTrue', htrue, htrueMerged⟩ := takes_merge hkeep whenTrue
    obtain ⟨whenFalse', hfalse, hfalseMerged⟩ := takes_merge hkeep whenFalse
    rw [merge, events, events, List.append_assoc, List.append_assoc]
    exact ⟨ifElse condition' whenTrue' whenFalse', hcondition.bind (htrue.bind hfalse.map),
      hcondition.bind (htrueMerged.bind hfalseMerged.map)⟩
  | whileLoop condition body => by
    obtain ⟨condition', hcondition⟩ := condition.restores_relabel.exists_takes rename
    obtain ⟨body', hbody, hmerged⟩ := takes_merge hkeep body
    exact ⟨whileLoop condition' body', hcondition.bind hbody.map, hcondition.bind hmerged.map⟩
  | doWhile body condition => by
    obtain ⟨body', hbody, hmerged⟩ := takes_merge hkeep body
    obtain ⟨condition', hcondition⟩ := condition.restores_relabel.exists_takes rename
    exact ⟨doWhile body' condition', hbody.bind hcondition.map, hmerged.bind hcondition.map⟩
  | forLoop init condition step body => by
    obtain ⟨init', hinit⟩ := init.restores_relabel.exists_takes rename
    obtain ⟨condition', hcondition⟩ :=
      (Expr.restores_relabelOption condition).exists_takes rename
    obtain ⟨step', hstep⟩ := (Expr.restores_relabelOption step).exists_takes rename
    obtain ⟨body', hbody, hmerged⟩ := takes_merge hkeep body
    rw [merge, events, events, List.append_assoc, List.append_assoc, List.append_assoc,
      List.append_assoc]
    exact ⟨forLoop init' condition' step' body',
      (hinit.bind (hcondition.bind (hstep.bind hbody.map))).inScope _,
      (hinit.bind (hcondition.bind (hstep.bind hmerged.map))).inScope _⟩
  | returnValue value => by
    obtain ⟨value', hvalue⟩ := (Expr.restores_relabelOption value).exists_takes rename
    exact ⟨returnValue value', hvalue.map, hvalue.map⟩
  | continueLoop => ⟨continueLoop, fun _ => rfl, fun _ => rfl⟩
  | breakLoop => ⟨breakLoop, fun _ => rfl, fun _ => rfl⟩
  | discard => ⟨discard, fun _ => rfl, fun _ => rfl⟩

theorem takes_mergeEach (hkeep : ∀ name, rename ⟨.type, name⟩ = name) :
    (body : List Statement) →
    ∃ body', Takes rename (relabelList body) (listEvents body) body' ∧
      List.Forall₂ (fun s s' => Takes rename s.relabel s.events s') (mergeEach body)
        (mergeEach body')
  | [] => ⟨[], fun _ => rfl, .nil⟩
  | s :: body => by
    obtain ⟨s', hs, hsMerged⟩ := takes_merge hkeep s
    obtain ⟨body', hbody, hmerged⟩ := takes_mergeEach hkeep body
    exact ⟨s' :: body', hs.bind hbody.map, .cons hsMerged hmerged⟩

end

end Statement

/-! ## Items -/

namespace Item

theorem declaration?_of_takes {i i' : Item} (h : Takes rename i.relabel i.events i') :
    Option.Rel (fun decl decl' => Takes rename decl.relabel (decl.events .topLevel) decl')
      i.declaration? i'.declaration? := by
  have hi' := h.fst_eq
  cases i with
  | declaration decl =>
    obtain ⟨decl', hdecl⟩ := (decl.restores_relabel .topLevel).exists_takes rename
    obtain rfl := (Takes.map (g := declaration) hdecl).unique h
    exact .some hdecl
  | directive _ | conditional _ _ _ _ | precision _ _ | invariant _ | prototype _
  | function _ _ => exact hi' ▸ .none

theorem takes_list {items items' : List Item}
    (h : List.Forall₂ (fun i i' => Takes rename i.relabel i.events i') items items') :
    Takes rename (relabelList items) (listEvents items) items' := by
  induction h with
  | nil => exact fun _ => rfl
  | cons hi _ ih => exact hi.bind ih.map

theorem takes_mergeRuns (hkeep : ∀ name, rename ⟨.type, name⟩ = name)
    {items items' : List Item}
    (h : List.Forall₂ (fun i i' => Takes rename i.relabel i.events i') items items') :
    Takes rename (relabelList (mergeRuns declaration? declaration items))
      (listEvents (mergeRuns declaration? declaration items))
      (mergeRuns declaration? declaration items') :=
  takes_list (forall₂_mergeRuns h (fun _ _ => declaration?_of_takes)
    (fun _ _ hdecl => hdecl.map) (fun _ _ _ _ => Declaration.canMerge_of_takes hkeep)
    fun _ _ _ _ => Declaration.takes_merge)

mutual

theorem takes_merge (hkeep : ∀ name, rename ⟨.type, name⟩ = name) : (i : Item) →
    ∃ i', Takes rename i.relabel i.events i' ∧
      Takes rename (merge i).relabel (merge i).events (merge i')
  | conditional kind condition body rest => by
    obtain ⟨body', hbody, hmerged⟩ := takes_mergeEach hkeep body
    obtain ⟨rest', hrest, hrestMerged⟩ := takes_mergeBranches hkeep rest
    exact ⟨conditional kind condition body' rest', (hbody.cons rfl).bind hrest.map,
      ((takes_mergeRuns hkeep hmerged).cons rfl).bind hrestMerged.map⟩
  | function signature body => by
    obtain ⟨signature', hsignature⟩ := signature.restores_relabel.exists_takes rename
    obtain ⟨body', hbody, hmerged⟩ := Statement.takes_mergeEach hkeep body
    refine ⟨function signature' body', (hsignature.bind hbody.map).congr ?_,
      (hsignature.bind (Statement.takes_mergeRuns hkeep hmerged).map).congr ?_⟩
    · simp [events, filterMap_site?_inScope]
    · simp [merge, events, filterMap_site?_inScope, Statement.mergeList]
  | directive line => ⟨directive line, fun _ => rfl, fun _ => rfl⟩
  | precision level type =>
    ⟨precision level (rename ⟨.type, type⟩), fun _ => rfl, fun _ => rfl⟩
  | invariant names => by
    obtain ⟨names', hnames⟩ := (restores_names names).exists_takes rename
    exact ⟨invariant names', hnames.map, hnames.map⟩
  | declaration decl => by
    obtain ⟨decl', hdecl⟩ := (decl.restores_relabel .topLevel).exists_takes rename
    exact ⟨declaration decl', hdecl.map, hdecl.map⟩
  | prototype signature => by
    obtain ⟨signature', hsignature⟩ := signature.restores_relabel.exists_takes rename
    have hsites : (prototype signature).events.filterMap site? =
        (signature.headEvents ++ signature.paramEvents).filterMap site? := by
      simp [events, filterMap_site?_inScope]
    exact ⟨prototype signature', hsignature.map.congr hsites, hsignature.map.congr hsites⟩

theorem takes_mergeEach (hkeep : ∀ name, rename ⟨.type, name⟩ = name) : (items : List Item) →
    ∃ items', Takes rename (relabelList items) (listEvents items) items' ∧
      List.Forall₂ (fun i i' => Takes rename i.relabel i.events i') (mergeEach items)
        (mergeEach items')
  | [] => ⟨[], fun _ => rfl, .nil⟩
  | i :: items => by
    obtain ⟨i', hi, hiMerged⟩ := takes_merge hkeep i
    obtain ⟨items', hitems, hmerged⟩ := takes_mergeEach hkeep items
    exact ⟨i' :: items', hi.bind hitems.map, .cons hiMerged hmerged⟩

theorem takes_mergeBranches (hkeep : ∀ name, rename ⟨.type, name⟩ = name) : (b : Branches) →
    ∃ b', Takes rename (relabelBranches b) (branchEvents b) b' ∧
      Takes rename (relabelBranches (mergeBranches b)) (branchEvents (mergeBranches b))
        (mergeBranches b')
  | .done => ⟨.done, fun _ => rfl, fun _ => rfl⟩
  | .otherwise body => by
    obtain ⟨body', hbody, hmerged⟩ := takes_mergeEach hkeep body
    exact ⟨.otherwise body', hbody.map, (takes_mergeRuns hkeep hmerged).map⟩
  | .elif condition body rest => by
    obtain ⟨body', hbody, hmerged⟩ := takes_mergeEach hkeep body
    obtain ⟨rest', hrest, hrestMerged⟩ := takes_mergeBranches hkeep rest
    exact ⟨.elif condition body' rest', (hbody.cons rfl).bind hrest.map,
      ((takes_mergeRuns hkeep hmerged).cons rfl).bind hrestMerged.map⟩

end

end Item

namespace Shader

theorem mergeDeclarations_mapNames (hkeep : ∀ name, rename ⟨.type, name⟩ = name)
    (shader : Shader) :
    (shader.mapNames rename).mergeDeclarations = shader.mergeDeclarations.mapNames rename := by
  obtain ⟨items, hitems, hmerged⟩ := Item.takes_mergeEach hkeep shader.items
  have hnames : shader.mapNames rename = ⟨items⟩ := congrArg Shader.mk hitems.fst_eq
  rw [hnames]
  exact congrArg Shader.mk (Item.takes_mergeRuns hkeep hmerged).fst_eq.symm

end Shader

/-! ## Shaders that differ in the names of values -/

/-- The name at the site, if it is that of a type (`isOfValue`). -/
def Site.typeName? (s : Site) : Option String := if s.isOfValue then none else some s.name

theorem Role.Like.isOfValue_eq {s s' : Site} (h : Role.Like s.role s'.role) :
    s'.isOfValue = s.isOfValue := by
  obtain ⟨role, name⟩ := s
  obtain ⟨role', name'⟩ := s'
  cases h <;> rfl

theorem map_name_eq_of_values {sites sites' : List Site}
    (htypes : sites'.map Site.typeName? = sites.map Site.typeName?)
    (hvalues : (sites'.filter Site.isOfValue).map Site.name =
      (sites.filter Site.isOfValue).map Site.name) :
    sites'.map Site.name = sites.map Site.name := by
  induction sites generalizing sites' with
  | nil => rw [List.map_eq_nil_iff.1 htypes]
  | cons s sites ih =>
    cases sites' with
    | nil => cases htypes
    | cons s' sites' =>
      obtain ⟨hname, htypes⟩ := List.cons.inj htypes
      rw [Site.typeName?, Site.typeName?] at hname
      rw [List.filter_cons, List.filter_cons] at hvalues
      cases hs : s.isOfValue <;> cases hs' : s'.isOfValue <;>
        simp only [hs, hs', if_true, if_false, Bool.false_eq_true, reduceCtorEq,
          Option.some.injEq] at hname hvalues
      · rw [List.map_cons, List.map_cons, hname, ih htypes hvalues]
      · obtain ⟨hname, hvalues⟩ := List.cons.inj hvalues
        rw [List.map_cons, List.map_cons, hname, ih htypes hvalues]

namespace Shader

variable {shader shader' : Shader} {names : List String}

/-- The shader with empty names for its values: all of it that a renaming of values cannot
change. -/
def typesOnly (shader : Shader) : Shader := shader.mapNames fun s => s.typeName?.getD ""

theorem mergeDeclarations_typesOnly (shader : Shader) :
    shader.mergeDeclarations.typesOnly = shader.typesOnly.mergeDeclarations :=
  (mergeDeclarations_mapNames (fun _ => rfl) shader).symm

theorem map_typeName?_withNames
    (h : List.Forall₂ (fun s name => s.isOfValue = false → name = s.name) shader.sites names) :
    (shader.withNames names).sites.map Site.typeName? = shader.sites.map Site.typeName? := by
  have hlength : names.length = shader.sites.length := h.length_eq.symm
  have haligned := aligned_withNames hlength
  rw [← names_withNames hlength, List.forall₂_map_right_iff] at h
  rw [Aligned, List.forall₂_iff_zip] at haligned
  rw [List.forall₂_iff_zip] at h
  have hsites : List.Forall₂ (fun s s' => s.typeName? = s'.typeName?) shader.sites
      (shader.withNames names).sites := by
    refine List.forall₂_iff_zip.2 ⟨h.1, fun {s s'} hs => ?_⟩
    rw [Site.typeName?, Site.typeName?, (haligned.2 hs).isOfValue_eq]
    split
    · rfl
    · rename_i htype
      rw [h.2 hs (by simpa using htype)]
  have hmapped : List.Forall₂ Eq (shader.sites.map Site.typeName?)
      ((shader.withNames names).sites.map Site.typeName?) :=
    List.forall₂_map_left_iff.2 (List.forall₂_map_right_iff.2 hsites)
  rw [List.forall₂_eq_eq_eq] at hmapped
  exact hmapped.symm

/-- The names of values are lost in `typesOnly`, whatever they are. -/
theorem typesOnly_withNames
    (h : List.Forall₂ (fun s name => s.isOfValue = false → name = s.name) shader.sites names) :
    (shader.withNames names).typesOnly = shader.typesOnly := by
  have htypes := congrArg (List.map fun name? => name?.getD "") (map_typeName?_withNames h)
  rw [List.map_map, List.map_map] at htypes
  rw [typesOnly, mapNames, withNames_of_withNames shader, typesOnly, mapNames]
  · exact congrArg shader.withNames htypes
  · rw [List.length_map]
    exact (aligned_withNames h.length_eq.symm).length_eq.symm

theorem eq_of_typesOnly_eq (h : shader'.typesOnly = shader.typesOnly)
    (hvalues : (shader'.sites.filter Site.isOfValue).map Site.name =
      (shader.sites.filter Site.isOfValue).map Site.name) : shader' = shader := by
  have htypes : ∀ shader : Shader,
      shader.typesOnly.sites.map Site.typeName? = shader.sites.map Site.typeName? := by
    intro shader
    refine map_typeName?_withNames (List.forall₂_map_right_iff.2 (List.forall₂_same.2 ?_))
    intro s _ hs
    simp [Site.typeName?, hs]
  have hnames := map_name_eq_of_values (by rw [← htypes shader', h, htypes shader]) hvalues
  rw [← shader'.withNames_withNames, ← shader.withNames_withNames, hnames]
  exact congrArg (withNames · _) h

end Shader

end ShaderMinifier
