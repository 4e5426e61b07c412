/-
  Words of GLSL ES 1.00: the characters they are made of, and the words with a fixed meaning.
  `isReserved` covers every keyword, the names of built-in types included; a built-in function
  is an ordinary word that user code may overload.
-/

namespace ShaderMinifier

namespace Word

/-- A letter or an underscore, the characters that `Word.atHead?` lets a word start with. -/
def isStart (c : Char) : Bool := c.isAlpha || c == '_'

/-- A letter, a digit or an underscore, the characters that go on a word once one with `isStart` has
started it. Words are ASCII. -/
def isPart (c : Char) : Bool := c.isAlphanum || c == '_'

/-- The keywords that the language uses. Those that name a type are again in `builtinTypes`. -/
def keywords : List String :=
  ["attribute", "const", "uniform", "varying", "break", "continue", "do", "for", "while", "if",
   "else", "in", "out", "inout", "float", "int", "void", "bool", "true", "false", "lowp",
   "mediump", "highp", "precision", "invariant", "discard", "return", "mat2", "mat3", "mat4",
   "vec2", "vec3", "vec4", "ivec2", "ivec3", "ivec4", "bvec2", "bvec3", "bvec4", "sampler2D",
   "samplerCube", "struct"]

/-- The keywords that the language sets aside for later versions. They are in `reserved` like those
of `keywords`, so a shader cannot declare them. -/
def futureKeywords : List String :=
  ["asm", "class", "union", "enum", "typedef", "template", "this", "packed", "goto", "switch",
   "default", "inline", "noinline", "volatile", "public", "static", "extern", "external",
   "interface", "flat", "long", "short", "double", "half", "fixed", "unsigned", "superp",
   "input", "output", "hvec2", "hvec3", "hvec4", "dvec2", "dvec3", "dvec4", "fvec2", "fvec3",
   "fvec4", "sampler1D", "sampler3D", "sampler1DShadow", "sampler2DShadow", "sampler2DRect",
   "sampler3DRect", "sampler2DRectShadow", "sizeof", "cast", "namespace", "using"]

/-- Every keyword, those of `keywords` and of `futureKeywords`: none of them is an identifier. -/
def reserved : List String := keywords ++ futureKeywords

/-- The keywords that name a type. A constructor call has one of them as its callee, see
`isTypeName`. -/
def builtinTypes : List String :=
  ["void", "float", "int", "bool", "vec2", "vec3", "vec4", "ivec2", "ivec3", "ivec4", "bvec2",
   "bvec3", "bvec4", "mat2", "mat3", "mat4", "sampler2D", "samplerCube"]

/-- The functions that every shader can call. They are not in `reserved`: user code may overload
them. -/
def builtinFunctions : List String :=
  ["radians", "degrees", "sin", "cos", "tan", "asin", "acos", "atan", "pow", "exp", "log",
   "exp2", "log2", "sqrt", "inversesqrt", "abs", "sign", "floor", "ceil", "fract", "mod", "min",
   "max", "clamp", "mix", "step", "smoothstep", "length", "distance", "dot", "cross",
   "normalize", "faceforward", "reflect", "refract", "matrixCompMult", "lessThan",
   "lessThanEqual", "greaterThan", "greaterThanEqual", "equal", "notEqual", "any", "all", "not",
   "texture2D", "texture2DProj", "texture2DLod", "texture2DProjLod", "textureCube",
   "textureCubeLod", "dFdx", "dFdy", "fwidth"]

/-- Whether `word` is in `reserved`. The parser `identifier` takes every word that is not. -/
def isReserved (word : String) : Bool := reserved.contains word

/-- Whether `word` is in `builtinTypes`, that is a keyword that names a type. -/
def isBuiltinType (word : String) : Bool := builtinTypes.contains word

/-- Whether `word` is in `builtinFunctions`, that is the name of a function that every shader can
call. -/
def isBuiltinFunction (word : String) : Bool := builtinFunctions.contains word

/-- Whether `word` belongs to the implementation: it starts with `gl_`. Such a variable may be used
but not declared. -/
def isBuiltinVariable (word : String) : Bool := ['g', 'l', '_'].isPrefixOf word.toList

/-- Whether `word` can name a type: a built-in one, or one that a shader declares, which is any word
without `isReserved`. -/
def isTypeName (word : String) : Bool := isBuiltinType word || !isReserved word

end Word

end ShaderMinifier
