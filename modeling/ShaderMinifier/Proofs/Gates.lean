import ShaderMinifier.Proofs.RoundTrip

/-
  What the parser lets through, wherever it stands in a tree. The parts of a tree are what is
  reached from its top going from a part to the parts directly inside it. A tree that was read fits,
  and what fits has only parts that fit (`fits_child`); so every gate holds at every depth, in all
  branches of the conditionals, in all blocks and in all operands (`gates_of_parse`).
-/

namespace ShaderMinifier

/-! ## Parts of a tree -/

/-- A part of a tree that some gate speaks about, or that has such parts inside; the nodes that
`children` connects. -/
inductive Part where
  | expression (value : Expr)
  | struct (spec : StructType)
  | declaration (placement : Placement) (decl : Declaration)
  | parameter (param : Parameter)
  | signature (head : Prototype)
  | simple (stmt : SimpleStatement)
  | statement (stmt : Statement)
  | item (item : Item)
  | branches (rest : Branches)

/-- The operands of an expression, the expressions directly inside it; `children` of
`Part.expression`. -/
def Expr.operands : Expr → List Expr
  | identifier _ | int _ | float _ | bool _ => []
  | unary _ x | step _ x | field x _ => [x]
  | binary _ x y | assign _ x y | index x y => [x, y]
  | ternary x y z => [x, y, z]
  | call _ args => args
  | sequence items => items

/-- The sizes of the arrays in a struct, over all its members (`MemberDeclarator.size`). -/
def StructType.sizes (s : StructType) : List Expr :=
  s.members.flatMap fun m => m.declarators.flatMap fun d => d.size.toList

/-- The struct that a type spells out, if it does (`isStruct`). -/
def TypeSpecifier.struct? : TypeSpecifier → Option StructType
  | named _ => none
  | struct spec => some spec

/-- The size of an array, if it is given; `unsized` brackets have none. -/
def ArraySize.size? : ArraySize → Option Expr
  | unsized => none
  | sized size => some size

/-- The expressions of a declared variable: its size (`ArraySize.size?`) and its initial value. -/
def Declarator.values (d : Declarator) : List Expr :=
  (d.array.bind ArraySize.size?).toList ++ d.initializer.toList

namespace Part

/-- The parts directly inside a part. `Tree.Has` follows them to any depth. -/
def children : Part → List Part
  | expression e => e.operands.map expression
  | struct spec => spec.sizes.map expression
  | declaration _ decl =>
    decl.type.specifier.struct?.toList.map struct ++
      (decl.declarators.flatMap Declarator.values).map expression
  | parameter param => param.size.toList.map expression
  | signature head =>
    head.returnType.specifier.struct?.toList.map struct ++ head.params.map parameter
  | simple (.declaration decl) => [declaration .inBody decl]
  | simple (.expression value) => value.toList.map expression
  | statement (.block body) => body.map statement
  | statement (.simple stmt) => [simple stmt]
  | statement (.ifThen c body) => [expression c, statement body]
  | statement (.ifElse c x y) => [expression c, statement x, statement y]
  | statement (.whileLoop c body) => [expression c, statement body]
  | statement (.doWhile body c) => [statement body, expression c]
  | statement (.forLoop init c step body) =>
    simple init :: (c.toList ++ step.toList).map expression ++ [statement body]
  | statement (.returnValue value) => value.toList.map expression
  | statement .continueLoop | statement .breakLoop | statement .discard => []
  | item (.directive _) | item (.precision _ _) | item (.invariant _) => []
  | item (.conditional _ _ body rest) => body.map item ++ [branches rest]
  | item (.declaration decl) => [declaration .topLevel decl]
  | item (.prototype head) => [signature head]
  | item (.function head body) => signature head :: body.map statement
  | branches .done => []
  | branches (.otherwise body) => body.map item
  | branches (.elif _ body rest) => body.map item ++ [branches rest]

end Part

namespace Tree

/-- The parts at the top of a tree, from which `Has` starts. -/
def roots : Tree → List Part
  | shader value => value.items.map .item
  | statement value => [.statement value]
  | expression value => [.expression value]

/-- The part occurs in the tree, at any depth: `children` lead to it from one of the `roots`. -/
def Has (tree : Tree) (part : Part) : Prop :=
  ∃ root ∈ tree.roots, Relation.ReflTransGen (fun parent child => child ∈ parent.children) root part

theorem Has.child {tree : Tree} {part child : Part} (h : tree.Has part)
    (hc : child ∈ part.children) : tree.Has child := by
  obtain ⟨root, hroot, hpath⟩ := h
  exact ⟨root, hroot, hpath.tail hc⟩

end Tree

/-! ## Parts of what fits -/

namespace Part

/-- The part is one that this entry point can give, by the `Fits` of its kind. Only a shader has
anything at its top level. -/
def Fits (rule : StartRule) : Part → Prop
  | expression e => e.WellFormed
  | struct spec => ∃ room, spec.Fits room
  | declaration placement decl =>
    ∃ stage room, decl.Fits room stage placement ∧ (placement = .topLevel → rule = .shader stage)
  | parameter param => ∃ room, param.Fits room
  | signature head => ∃ room, head.Fits room
  | simple stmt => ∃ room, stmt.Fits room
  | statement stmt => ∃ room, stmt.Fits room
  | item i => ∃ stage room, i.Fits stage room ∧ rule = .shader stage
  | branches rest => ∃ stage room, Item.BranchesFit stage rest room ∧ rule = .shader stage

theorem fits_operand {e x : Expr} (h : e.WellFormed) (hx : x ∈ e.operands) : x.WellFormed := by
  cases e with
  | identifier | int | float | bool => cases hx
  | unary _ y | step _ y =>
    obtain rfl : x = y := by simpa [Expr.operands] using hx
    exact h
  | field y name =>
    obtain rfl : x = y := by simpa [Expr.operands] using hx
    exact h.2
  | binary _ y z | index y z =>
    obtain rfl | rfl : x = y ∨ x = z := by simpa [Expr.operands] using hx
    · exact h.1
    · exact h.2
  | assign _ y z =>
    obtain rfl | rfl : x = y ∨ x = z := by simpa [Expr.operands] using hx
    · exact h.2.1
    · exact h.2.2
  | ternary c y z =>
    obtain rfl | rfl | rfl : x = c ∨ x = y ∨ x = z := by simpa [Expr.operands] using hx
    · exact h.1
    · exact h.2.1
    · exact h.2.2
  | call callee args => exact Expr.allWellFormed_iff.1 h.2.2 x hx
  | sequence items => exact Expr.allWellFormed_iff.1 h.2 x hx

theorem fits_size {room : Nat} {spec : StructType} {x : Expr} (h : spec.Fits room)
    (hx : x ∈ spec.sizes) : x.WellFormed := by
  simp only [StructType.sizes, List.mem_flatMap, Option.mem_toList] at hx
  obtain ⟨m, hm, d, hd, hsize⟩ := hx
  exact (((h.members m hm).declarators d hd).size x hsize).1

theorem fits_struct {room : Nat} {type : TypeSpecifier} {spec : StructType} (h : type.Fits room)
    (hspec : spec ∈ type.struct?.toList) : spec.Fits room := by
  cases type with
  | named => cases hspec
  | struct s =>
    obtain rfl : spec = s := by simpa [TypeSpecifier.struct?] using hspec
    exact h

theorem fits_value {room : Nat} {d : Declarator} {x : Expr} (h : d.Fits room)
    (hx : x ∈ d.values) : x.WellFormed := by
  simp only [Declarator.values, List.mem_append, Option.mem_toList, Option.bind_eq_some_iff] at hx
  rcases hx with ⟨a, ha, hsize⟩ | hvalue
  · cases a with
    | unsized => cases hsize
    | sized size =>
      obtain rfl := Option.some.inj hsize
      exact (h.array _ ha).1
  · exact (h.initializer x hvalue).1

variable {rule : StartRule} {child : Part}

theorem fits_child_declaration {placement : Placement} {decl : Declaration}
    (h : (declaration placement decl).Fits rule)
    (hc : child ∈ (declaration placement decl).children) : child.Fits rule := by
  obtain ⟨stage, room, hfits, -⟩ := h
  rw [children, List.mem_append, List.mem_map, List.mem_map] at hc
  obtain ⟨spec, hspec, rfl⟩ | ⟨x, hx, rfl⟩ := hc
  · exact ⟨room, fits_struct hfits.type hspec⟩
  · obtain ⟨d, hd, hx⟩ := List.mem_flatMap.1 hx
    exact fits_value (hfits.declarators d hd) hx

theorem fits_child_signature {head : Prototype} (h : (signature head).Fits rule)
    (hc : child ∈ (signature head).children) : child.Fits rule := by
  obtain ⟨room, hfits⟩ := h
  rw [children, List.mem_append, List.mem_map, List.mem_map] at hc
  obtain ⟨spec, hspec, rfl⟩ | ⟨param, hparam, rfl⟩ := hc
  · exact ⟨room, fits_struct hfits.type hspec⟩
  · exact ⟨room, hfits.params param hparam⟩

theorem fits_child_optional {value : Option Expr} (h : ∀ e ∈ value, e.WellFormed)
    (hc : child ∈ value.toList.map expression) : child.Fits rule := by
  obtain ⟨e, he, rfl⟩ := List.mem_map.1 hc
  exact h e (Option.mem_toList.1 he)

theorem fits_child_statement {stmt : Statement} (h : (statement stmt).Fits rule)
    (hc : child ∈ (statement stmt).children) : child.Fits rule := by
  obtain ⟨room, hfits⟩ := h
  cases stmt with
  | block body =>
    obtain ⟨s, hs, rfl⟩ := List.mem_map.1 hc
    exact ⟨_, Statement.allFit_iff.1 hfits.2 s hs⟩
  | simple s =>
    obtain rfl : child = simple s := by simpa [children] using hc
    exact ⟨_, hfits.2⟩
  | ifThen c body | whileLoop c body =>
    obtain rfl | rfl : child = expression c ∨ child = statement body := by
      simpa [children] using hc
    · exact hfits.2.1.1
    · exact ⟨_, hfits.2.2⟩
  | ifElse c x y =>
    obtain rfl | rfl | rfl : child = expression c ∨ child = statement x ∨ child = statement y := by
      simpa [children] using hc
    · exact hfits.2.1.1
    · exact ⟨_, hfits.2.2.1⟩
    · exact ⟨_, hfits.2.2.2.2⟩
  | doWhile body c =>
    obtain rfl | rfl : child = statement body ∨ child = expression c := by
      simpa [children] using hc
    · exact ⟨_, hfits.2.2⟩
    · exact hfits.2.1.1
  | forLoop init c step body =>
    obtain ⟨-, hinit, hcondition, hstep, hbody⟩ := hfits
    simp only [children, List.map_append, List.cons_append, List.mem_cons, List.mem_append,
      List.not_mem_nil, or_false] at hc
    rcases hc with rfl | (hc | hc) | rfl
    · exact ⟨_, hinit⟩
    · exact fits_child_optional (fun e he => (hcondition e he).1) hc
    · exact fits_child_optional (fun e he => (hstep e he).1) hc
    · exact ⟨_, hbody⟩
  | returnValue value => exact fits_child_optional (fun e he => (hfits.2 e he).1) hc
  | continueLoop | breakLoop | discard => cases hc

theorem fits_child_item {i : Item} (h : (item i).Fits rule) (hc : child ∈ (item i).children) :
    child.Fits rule := by
  obtain ⟨stage, room, hfits, hrule⟩ := h
  cases i with
  | directive | precision | invariant => cases hc
  | conditional kind condition body rest =>
    rw [children, List.mem_append, List.mem_map, List.mem_singleton] at hc
    obtain ⟨i, hi, rfl⟩ | rfl := hc
    · exact ⟨stage, _, Item.allFit_iff.1 hfits.2.2.1 i hi, hrule⟩
    · exact ⟨stage, _, hfits.2.2.2, hrule⟩
  | declaration decl =>
    obtain rfl : child = declaration .topLevel decl := by simpa [children] using hc
    exact ⟨stage, room, hfits, fun _ => hrule⟩
  | prototype head =>
    obtain rfl : child = signature head := by simpa [children] using hc
    exact ⟨room, hfits⟩
  | function head body =>
    rw [children, List.mem_cons, List.mem_map] at hc
    obtain rfl | ⟨s, hs, rfl⟩ := hc
    · exact ⟨room, hfits.1⟩
    · exact ⟨room, hfits.2 s hs⟩

theorem fits_child_branches {rest : Branches} (h : (branches rest).Fits rule)
    (hc : child ∈ (branches rest).children) : child.Fits rule := by
  obtain ⟨stage, room, hfits, hrule⟩ := h
  cases rest with
  | done => cases hc
  | otherwise body =>
    obtain ⟨i, hi, rfl⟩ := List.mem_map.1 hc
    exact ⟨stage, room, Item.allFit_iff.1 hfits i hi, hrule⟩
  | elif condition body rest =>
    rw [children, List.mem_append, List.mem_map, List.mem_singleton] at hc
    obtain ⟨i, hi, rfl⟩ | rfl := hc
    · exact ⟨stage, room, Item.allFit_iff.1 hfits.2.1 i hi, hrule⟩
    · exact ⟨stage, room, hfits.2.2, hrule⟩

/-- One step: what stands directly inside a part that `Fits` (`children`) fits itself. -/
theorem fits_child {part : Part} (h : part.Fits rule) (hc : child ∈ part.children) :
    child.Fits rule := by
  cases part with
  | expression e =>
    obtain ⟨x, hx, rfl⟩ := List.mem_map.1 hc
    exact fits_operand h hx
  | struct spec =>
    obtain ⟨room, hfits⟩ := h
    obtain ⟨x, hx, rfl⟩ := List.mem_map.1 hc
    exact fits_size hfits hx
  | declaration placement decl => exact fits_child_declaration h hc
  | parameter param =>
    obtain ⟨room, hfits⟩ := h
    exact fits_child_optional (fun e he => (hfits.size e he).1) hc
  | signature head => exact fits_child_signature h hc
  | simple stmt =>
    obtain ⟨room, hfits⟩ := h
    cases stmt with
    | declaration decl =>
      obtain rfl : child = declaration .inBody decl := by simpa [children] using hc
      exact ⟨.vertex, room, hfits, Placement.noConfusion⟩
    | expression value => exact fits_child_optional (fun e he => (hfits e he).1) hc
  | statement stmt => exact fits_child_statement h hc
  | item i => exact fits_child_item h hc
  | branches rest => exact fits_child_branches h hc

end Part

namespace Tree

theorem fits_root {rule : StartRule} {tree : Tree} (h : tree.Fits rule) {root : Part}
    (hroot : root ∈ tree.roots) : root.Fits rule := by
  cases rule with
  | shader stage =>
    cases tree with
    | shader s =>
      obtain ⟨i, hi, rfl⟩ := List.mem_map.1 hroot
      exact ⟨stage, _, Item.allFit_iff.1 h i hi, rfl⟩
    | statement s => exact False.elim h
    | expression e => exact False.elim h
  | condition =>
    cases tree with
    | expression e =>
      obtain rfl : root = .expression e := by simpa [roots] using hroot
      exact h.1
    | shader s => exact False.elim h
    | statement s => exact False.elim h
  | statement =>
    cases tree with
    | statement s =>
      obtain rfl : root = .statement s := by simpa [roots] using hroot
      exact ⟨_, h⟩
    | shader s => exact False.elim h
    | expression e => exact False.elim h

theorem fits_part {rule : StartRule} {tree : Tree} (h : tree.Fits rule) {part : Part}
    (hpart : tree.Has part) : part.Fits rule := by
  obtain ⟨root, hroot, hpath⟩ := hpart
  induction hpath with
  | refl => exact fits_root h hroot
  | tail _ hchild ih => exact Part.fits_child ih hchild

end Tree

/-! ## The gates -/

/-- What `Declaration.fault?` and the names leave of declarations at this place, as a list of
rules. -/
structure Declaration.Gates (rule : StartRule) (placement : Placement) (decl : Declaration) :
    Prop where
  /-- Attributes stand at the top level of vertex shaders, and are no structs (`isStruct`). -/
  attributePlace : decl.type.qualifier = some .vertexAttribute →
    rule = .shader .vertex ∧ placement = .topLevel ∧ decl.type.specifier.isStruct = false
  attributeValue : decl.type.qualifier = some .vertexAttribute →
    ∀ d ∈ decl.declarators, d.initializer = none ∧ d.array = none
  localQualifier : placement = .inBody →
    decl.type.qualifier = none ∨ decl.type.qualifier = some .const
  notVoid : decl.declarators ≠ [] → decl.type.specifier ≠ .named "void"
  bare : decl.declarators = [] → decl.type.specifier.isStruct = true
  names : ∀ d ∈ decl.declarators, Word.Declarable d.name

structure StructType.Gates (spec : StructType) : Prop where
  name : ∀ w ∈ spec.name, Word.Declarable w
  memberNames : ∀ m ∈ spec.members, ∀ d ∈ m.declarators, Word.Declarable d.name

structure Parameter.Gates (param : Parameter) : Prop where
  notVoid : param.type ≠ "void"
  direction : param.isConst = true → param.direction = none ∨ param.direction = some .input
  name : ∀ w ∈ param.name, Word.Declarable w

structure Prototype.Gates (head : Prototype) : Prop where
  returnType : head.returnType.qualifier = none
  name : Word.Declarable head.name

def Expr.Gates : Expr → Prop
  | assign _ left _ => .unary ≤ left.precedence
  | sequence items => 2 ≤ items.length
  | _ => True

/-- A simple statement, which also stands first in the head of a `for` loop: a declaration that
passes the gates of a body (`Declaration.Gates`), or an expression, if there is one, that passes its
own. -/
def SimpleStatement.Gates (rule : StartRule) : SimpleStatement → Prop
  | declaration decl => decl.Gates rule .inBody
  | expression value => ∀ e ∈ value, e.Gates

def Statement.Gates (rule : StartRule) : Statement → Prop
  | forLoop init _ _ _ => init.Gates rule
  | ifElse _ whenTrue _ => whenTrue.endsOpen = false
  | _ => True

def Item.Gates : Item → Prop
  | conditional _ condition _ _ => condition ≠ ""
  | _ => True

def Branches.Gates : Branches → Prop
  | elif condition _ _ => condition ≠ ""
  | _ => True

namespace Part

/-- The part keeps to the rules that depend on where it stands, each kind of `Part` to its own. -/
def Gates (rule : StartRule) : Part → Prop
  | expression e => e.Gates
  | struct spec => spec.Gates
  | declaration placement decl => decl.Gates rule placement
  | parameter param => param.Gates
  | signature head => head.Gates
  | simple stmt => stmt.Gates rule
  | statement stmt => stmt.Gates rule
  | item i => i.Gates
  | branches rest => rest.Gates

end Part

theorem Declaration.Allowed.gates {rule : StartRule} {stage : Stage} {placement : Placement}
    {decl : Declaration} {room : Nat} (h : decl.Allowed stage placement)
    (hfits : decl.Fits room stage placement)
    (hrule : placement = .topLevel → rule = .shader stage) : decl.Gates rule placement where
  attributePlace hattribute := by
    obtain ⟨rfl, hstruct⟩ := h.attributeType hattribute
    cases placement with
    | topLevel => exact ⟨hrule rfl, rfl, hstruct⟩
    | inBody => cases h.unlinkedLocal rfl _ hattribute
  attributeValue := h.plainAttribute
  localQualifier hlocal := by
    cases hq : decl.type.qualifier with
    | none => exact .inl rfl
    | some q => exact .inr (by rw [h.unlinkedLocal hlocal q hq])
  notVoid hne hvoid := by
    have := h.notVoid hne
    rw [hvoid] at this
    cases this
  bare := hfits.bare
  names d hd := (hfits.declarators d hd).name

theorem Parameter.Fits.gates {param : Parameter} {room : Nat} (h : param.Fits room) :
    param.Gates where
  notVoid := h.notVoid
  direction hconst := by
    obtain ⟨hout, hboth⟩ := h.direction hconst
    cases hdirection : param.direction with
    | none => exact .inl rfl
    | some d =>
      cases d with
      | input => exact .inr rfl
      | output => exact absurd hdirection hout
      | both => exact absurd hdirection hboth
  name := h.name

theorem Expr.WellFormed.gates {e : Expr} (h : e.WellFormed) : e.Gates := by
  cases e with
  | assign op left right => exact h.1
  | sequence items => exact h.1
  | identifier | int | float | bool | unary | step | binary | ternary | index | field | call =>
    trivial

theorem SimpleStatement.Fits.gates {rule : StartRule} {stmt : SimpleStatement} {room : Nat}
    (h : stmt.Fits room) : stmt.Gates rule := by
  cases stmt with
  | declaration decl =>
    have hdecl : decl.Fits room .vertex .inBody := h
    exact (Declaration.fault?_eq_none.1 hdecl.allowed).gates hdecl Placement.noConfusion
  | expression value => exact fun e he => (h e he).1.gates

theorem Statement.Fits.gates {rule : StartRule} {stmt : Statement} {room : Nat}
    (h : stmt.Fits room) : stmt.Gates rule := by
  cases stmt with
  | ifElse condition whenTrue whenFalse => exact h.2.2.2.1
  | forLoop init condition step body => exact SimpleStatement.Fits.gates h.2.1
  | block | simple | ifThen | whileLoop | doWhile | continueLoop | breakLoop | returnValue |
    discard => trivial

theorem Directive.IsCondition.ne_empty {text : String} (h : Directive.IsCondition text) :
    text ≠ "" := by
  rintro rfl
  cases h.nonempty

theorem Part.Fits.gates {rule : StartRule} {part : Part} (h : part.Fits rule) :
    part.Gates rule := by
  cases part with
  | expression e => exact Expr.WellFormed.gates h
  | struct spec =>
    obtain ⟨room, hspec⟩ := h
    exact ⟨hspec.name, fun m hm d hd => ((hspec.members m hm).declarators d hd).name⟩
  | declaration placement decl =>
    obtain ⟨stage, room, hdecl, hrule⟩ := h
    exact (Declaration.fault?_eq_none.1 hdecl.allowed).gates hdecl hrule
  | parameter param =>
    obtain ⟨room, hparam⟩ := h
    exact hparam.gates
  | signature head =>
    obtain ⟨room, hhead⟩ := h
    exact ⟨hhead.unqualified, hhead.name⟩
  | simple stmt =>
    obtain ⟨room, hstmt⟩ := h
    exact SimpleStatement.Fits.gates hstmt
  | statement stmt =>
    obtain ⟨room, hstmt⟩ := h
    exact Statement.Fits.gates hstmt
  | item i =>
    obtain ⟨stage, room, hitem, -⟩ := h
    cases i with
    | conditional kind condition body rest => exact hitem.2.1.ne_empty
    | directive | precision | invariant | declaration | prototype | function => trivial
  | branches rest =>
    obtain ⟨stage, room, hrest, -⟩ := h
    cases rest with
    | elif condition body rest => exact hrest.1.ne_empty
    | done | otherwise => trivial

namespace Tree

/-- Every part of a tree that `Tree.parse` gives passes the gates, at any depth (`Has`). -/
theorem gates_of_parse {source : String} {rule : StartRule} {tree : Tree}
    (h : parse source rule = .ok tree) {part : Part} (hpart : tree.Has part) : part.Gates rule :=
  (fits_part (fits_of_parse h) hpart).gates

/-- An attribute in a branch, and a sequence in a loop in an `if` in a function there, for
`gates_of_parse`. -/
theorem gates_of_parse_branches :
    ∃ tree, parse
        "#if A\n#elif B\nattribute vec3 p;\nvoid f()\x7bif(a)for(;;)b=(c,d);else b;\x7d\n#endif"
        (.shader .vertex) = .ok tree ∧
      (∃ decl, tree.Has (.declaration .topLevel decl) ∧
        decl.type.qualifier = some .vertexAttribute ∧ decl.Gates (.shader .vertex) .topLevel) ∧
      ∃ items, tree.Has (.expression (.sequence items)) ∧ 2 ≤ items.length := by
  let point : Declaration :=
    ⟨⟨some .vertexAttribute, none, .named "vec3"⟩, [⟨"p", none, none⟩]⟩
  let both : Expr := .sequence [.identifier "c", .identifier "d"]
  let choice : Statement := .ifElse (.identifier "a")
    (.forLoop (.expression none) none none
      (.simple (.expression (some (.assign .set (.identifier "b") both)))))
    (.simple (.expression (some (.identifier "b"))))
  let rest : Branches := .elif "B" [.declaration point,
    .function ⟨⟨none, none, .named "void"⟩, "f", []⟩ [choice]] .done
  have hparse : parse
      "#if A\n#elif B\nattribute vec3 p;\nvoid f()\x7bif(a)for(;;)b=(c,d);else b;\x7d\n#endif"
      (.shader .vertex) = .ok (shader ⟨[.conditional .ifTrue "A" [] rest]⟩) := by
    decide +kernel
  have hrest : Has (shader ⟨[.conditional .ifTrue "A" [] rest]⟩) (.branches rest) :=
    Has.child ⟨_, .head _, .refl⟩ (.head _)
  have hpoint := (hrest.child (.head _)).child (.head _)
  have hloop := ((hrest.child (.tail _ (.head _))).child (.tail _ (.head _))).child
    (.tail _ (.head _))
  have hboth := (((hloop.child (.tail _ (.head _))).child (.head _)).child (.head _)).child
    (.tail _ (.head _))
  exact ⟨_, hparse, ⟨point, hpoint, rfl, gates_of_parse hparse hpoint⟩,
    _, hboth, gates_of_parse hparse hboth⟩

end Tree

end ShaderMinifier
