import ShaderMinifier.Proofs.Declaration.Shape

/-
  What the parsers of types, declarations and signatures give fits into the room they had.
-/

namespace ShaderMinifier

namespace Parser

theorem yields_arraySize (room : Nat) : Yields (arraySize room) (Expr.Fits room .conditional) :=
  Yields.bind (yields_conditional room).commit fun _ hsize =>
    Yields.skip fun _ => Yields.pure hsize

theorem yields_memberDeclarator (room : Nat) :
    Yields (memberDeclarator room) (MemberDeclarator.Fits room) := by
  refine Yields.bind yields_declaredName fun name hname => Yields.skip fun place =>
    Yields.skip fun bracket => ?_
  cases bracket with
  | none => exact Yields.pure ⟨hname, by simp [Expr.SizeFits]⟩
  | some _ =>
    refine Yields.skip fun empty => ?_
    cases empty with
    | true => exact Yields.failAt _ _
    | false =>
      refine Yields.bind (yields_arraySize room) fun size hsize => Yields.pure ⟨hname, ?_⟩
      intro e he
      obtain rfl := Option.some.inj he
      exact hsize

theorem yields_member (room : Nat) : Yields (member room) (Member.Fits room) := by
  refine Yields.skip fun precision => Yields.skip fun nested => ?_
  cases nested with
  | true => exact Yields.fail _
  | false =>
    exact Yields.bind yields_typeName fun type htype =>
      Yields.bind (Yields.sepBy1 (yields_memberDeclarator room)).commit fun declarators hd =>
        Yields.skip fun _ => Yields.pure ⟨htype, hd.1, hd.2⟩

theorem yields_structName : Yields structName fun name => ∀ w ∈ name, Word.Declarable w := by
  refine Yields.skip fun anonymous => ?_
  cases anonymous with
  | true => exact Yields.pure (by simp)
  | false =>
    refine Yields.bind yields_declaredName.commit fun name hname => Yields.pure fun w hw => ?_
    obtain rfl := Option.some.inj hw
    exact hname

theorem yields_structType (room : Nat) : Yields (structType room) (StructType.Fits room) :=
  Yields.skip fun _ => Yields.bind yields_structName fun _ hname => Yields.skip fun _ =>
    Yields.bind (Yields.many1 (yields_member room)).commit fun _ hmembers =>
      Yields.skip fun _ => Yields.pure ⟨hname, hmembers.1, hmembers.2⟩

theorem yields_typeSpecifier (room : Nat) :
    Yields (typeSpecifier room) (TypeSpecifier.Fits room) :=
  Yields.orElse (Yields.bind (yields_structType room) fun _ h => Yields.pure h)
    (Yields.bind yields_typeName fun _ h => Yields.pure h)

theorem yields_qualifiedType (room : Nat) :
    Yields (qualifiedType room) fun t => t.specifier.Fits room := by
  refine Yields.skip fun qualifier => Yields.skip fun precision => ?_
  dsimp only
  split
  · exact Yields.bind (yields_typeSpecifier room).commit fun specifier h => Yields.pure h
  · exact Yields.bind (yields_typeSpecifier room) fun specifier h => Yields.pure h

theorem yields_declaratorArray (room : Nat) :
    Yields (declaratorArray room) fun array => ∀ a ∈ array, a.Fits room := by
  refine Yields.skip fun bracket => ?_
  cases bracket with
  | none => exact Yields.pure (by simp)
  | some _ =>
    refine Yields.skip fun close => ?_
    cases close with
    | some _ =>
      refine Yields.pure fun a ha => ?_
      obtain rfl := Option.some.inj ha
      exact trivial
    | none =>
      refine Yields.bind (yields_arraySize room) fun size hsize => Yields.pure fun a ha => ?_
      obtain rfl := Option.some.inj ha
      exact hsize

theorem yields_initializer (room : Nat) : Yields (initializer room) (Expr.ValueFits room) := by
  refine Yields.skip fun mark => ?_
  cases mark with
  | none => exact Yields.pure (by simp [Expr.ValueFits])
  | some _ =>
    refine Yields.bind (Yields.commit (yields_assignment room)) fun e he =>
      Yields.pure fun v hv => ?_
    obtain rfl := Option.some.inj hv
    exact he

theorem yields_declaratorRest (room : Nat) {name : String} (hname : Word.Declarable name) :
    Yields (declaratorRest room name) (Declarator.Fits room) :=
  Yields.bind (yields_declaratorArray room) fun _ harray =>
    Yields.bind (yields_initializer room) fun _ hvalue => Yields.pure ⟨hname, harray, hvalue⟩

theorem yields_nextDeclarator (room : Nat) :
    Yields (nextDeclarator room) (Declarator.Fits room) :=
  Yields.skip fun _ => Yields.bind yields_declaredName.commit fun _ hname =>
    yields_declaratorRest room hname

theorem yields_checked {room : Nat} {stage : Stage} {placement : Placement} {start : List Char}
    {d : Declaration} (htype : d.type.specifier.Fits room)
    (hdeclarators : ∀ x ∈ d.declarators, x.Fits room)
    (hbare : d.declarators = [] → d.type.specifier.isStruct = true) :
    Yields (checked stage placement start d) (Declaration.Fits room stage placement) := by
  unfold checked
  cases h : d.fault? stage placement with
  | some cause => exact Yields.failAt _ _
  | none => exact Yields.pure ⟨htype, hdeclarators, hbare, h⟩

theorem yields_declarationRest {room : Nat} {stage : Stage} {placement : Placement}
    {start : List Char} {type : QualifiedType} {name : String} (htype : type.specifier.Fits room)
    (hname : Word.Declarable name) :
    Yields (declarationRest room stage placement start type name)
      (Declaration.Fits room stage placement) := by
  refine Yields.bind (yields_declaratorRest room hname) fun first hfirst =>
    Yields.bind (Yields.many (yields_nextDeclarator room)) fun others hothers =>
      Yields.skip fun _ => yields_checked htype (fun x hx => ?_) (by simp)
  rcases List.mem_cons.1 hx with rfl | hx
  · exact hfirst
  · exact hothers x hx

theorem yields_bareDeclaration {room : Nat} {stage : Stage} {placement : Placement}
    {start : List Char} {type : QualifiedType} (htype : type.specifier.Fits room) :
    Yields (bareDeclaration stage placement start type)
      (Declaration.Fits room stage placement) := by
  unfold bareDeclaration
  split
  · next hstruct =>
    exact Yields.skip fun _ => yields_checked htype (by simp) fun _ => hstruct
  · exact Yields.mismatchAt _ _

theorem yields_localDeclaration (room : Nat) :
    Yields (localDeclaration room) (Declaration.Fits room .vertex .inBody) := by
  refine Yields.skip fun start => Yields.bind (yields_qualifiedType room) fun type htype =>
    Yields.skip fun bare => ?_
  cases bare with
  | true => exact yields_bareDeclaration htype
  | false =>
    exact Yields.bind yields_declaredName fun name hname => yields_declarationRest htype hname

theorem yields_parameterType : Yields parameterType Word.NamesType := by
  refine Yields.bind yields_typeName.optional fun type htype => ?_
  cases type with
  | none => exact Yields.fail _
  | some t => exact Yields.pure (htype t rfl)

theorem yields_parameterSize (room : Nat) :
    Yields (parameterSize room) (Expr.SizeFits room) := by
  refine Yields.skip fun bracket => ?_
  cases bracket with
  | none => exact Yields.pure (by simp [Expr.SizeFits])
  | some _ =>
    refine Yields.bind (yields_arraySize room) fun size hsize => Yields.pure fun e he => ?_
    obtain rfl := Option.some.inj he
    exact hsize

theorem yields_parameter (room : Nat) : Yields (parameter room) (Parameter.Fits room) := by
  refine Yields.skip fun start => Yields.skip fun const => Yields.skip fun word => ?_
  split
  · exact Yields.fail _
  · refine Yields.skip fun direction => ?_
    split
    · exact Yields.failAt _ _
    · next hdirection =>
      refine Yields.skip fun precision => Yields.bind yields_parameterType fun type htype =>
        Yields.bind yields_declaredName.optional fun name hname => ?_
      split
      · exact Yields.failAt _ _
      · next hvoid =>
        refine Yields.bind (yields_parameterSize room) fun size hsize =>
          Yields.pure ⟨fun hconst => ?_, htype, hvoid, hname, hsize⟩
        have hsome : const.isSome = true := hconst
        simpa [hsome] using hdirection

theorem yields_parameters (room : Nat) :
    Yields (parameters room) fun params => ∀ p ∈ params, p.Fits room := by
  refine Yields.skip fun empty => ?_
  cases empty with
  | some _ => exact Yields.pure (by simp)
  | none =>
    exact Yields.bind (Yields.sepBy1 (yields_parameter room)) fun params hparams =>
      Yields.skip fun _ => Yields.pure hparams.2

end Parser

end ShaderMinifier
