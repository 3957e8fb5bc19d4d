/-!
# Type names

The absolute names of classes, modules, interfaces and aliases, such as `::Geometry::Point`.
The spelling of the last segment tells what a name stands for: an underscore begins the name of
an interface, a lower-case letter that of an alias, anything else that of a class or module.

Main definitions: `TypeName`, `TypeName.ofString`, `TypeName.isInterface`, `TypeName.isAlias`.
-/

namespace TypeShape

/-- An absolute name; its text starts with two colons. -/
structure TypeName where
  text : String
deriving DecidableEq, Inhabited

namespace TypeName

/-- Names are ordered by their text. -/
instance : Ord TypeName :=
  ⟨fun a b => compare a.text b.text⟩

/-- Makes a name absolute: the leading colons are added when they are missing. -/
def ofString (s : String) : TypeName :=
  match s.toList with
  | ':' :: ':' :: _ => ⟨s⟩
  | _ => ⟨"::" ++ s⟩

/-- What stands before the first pair of colons. -/
def beforeColons : List Char → List Char
  | ':' :: ':' :: _ => []
  | c :: cs => c :: beforeColons cs
  | [] => []

/-- The characters after the last pair of colons. -/
def lastSegment (n : TypeName) : List Char :=
  (beforeColons n.text.toList.reverse).reverse

/-- The last segment begins with an underscore. -/
def isInterface (n : TypeName) : Bool :=
  match n.lastSegment with
  | c :: _ => c == '_'
  | [] => false

/-- The last segment begins with a lower-case letter. -/
def isAlias (n : TypeName) : Bool :=
  match n.lastSegment with
  | c :: _ => c.isLower
  | [] => false

/-! ## Names of the base library -/

/-- The class of classes. -/
def classClass : TypeName := ⟨"::Class"⟩

/-- The class of modules. -/
def moduleClass : TypeName := ⟨"::Module"⟩

/-- The root of the class hierarchy. -/
def basicObject : TypeName := ⟨"::BasicObject"⟩

/-- The class that ordinary classes inherit from. -/
def object : TypeName := ⟨"::Object"⟩

/-- The module of methods every object has. -/
def kernel : TypeName := ⟨"::Kernel"⟩

/-- The class of texts. -/
def string : TypeName := ⟨"::String"⟩

/-- The class of integers. -/
def integer : TypeName := ⟨"::Integer"⟩

/-- The class of symbols. -/
def symbol : TypeName := ⟨"::Symbol"⟩

/-- The class whose only instance is `true`. -/
def trueClass : TypeName := ⟨"::TrueClass"⟩

/-- The class whose only instance is `false`. -/
def falseClass : TypeName := ⟨"::FalseClass"⟩

/-- The class whose only instance is `nil`. -/
def nilClass : TypeName := ⟨"::NilClass"⟩

/-- The class of arrays, with one type parameter. -/
def array : TypeName := ⟨"::Array"⟩

/-- The class of hashes, with a key and a value parameter. -/
def hash : TypeName := ⟨"::Hash"⟩

/-- The class of procs. -/
def proc : TypeName := ⟨"::Proc"⟩

end TypeName
end TypeShape
